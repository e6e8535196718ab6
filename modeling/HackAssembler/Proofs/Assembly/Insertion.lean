-- SUMMARY: Inserted code: what moves when instructions without names are put into a source.
import HackAssembler.Proofs.Assembly.Binary
import HackAssembler.Proofs.Assembly.Concatenation
import HackAssembler.Proofs.Assembly.Relabelling

/-!
# Insertion

Instructions that hold no names, put somewhere into a source, move what stands behind them by
their number. So the labels behind them move, and each reference to such a label loads an
address that is larger by that number, wherever the reference stands. All other words stay as
they are, and so do the labels in front and all variables.
-/

namespace HackAssembler

namespace Source

/-- Lines without labels and names: each one is blank, or holds a compute instruction or a number to
load. -/
def Nameless (lines : List String) : Prop :=
  ∀ line ∈ lines, Line.normalize line = "" ∨
    ∃ code, Statement.parse (Line.normalize line) = .ok (.code code) ∧ code.symbol? = none

namespace Nameless

variable {c : List String}

theorem exists_code (h : Nameless c) {i : Nat} {result : Except SourceError Statement}
    (hi : statement? c i = some result) :
    ∃ code, result = .ok (.code code) ∧ code.symbol? = none := by
  obtain ⟨line, hline, htoken, rfl⟩ := statement?_eq_some_iff.mp hi
  rcases h line (List.mem_of_getElem? hline) with hblank | hcode
  · exact absurd hblank htoken
  · exact hcode

theorem label?_ne_some (h : Nameless c) (i : Nat) (name : String) : label? c i ≠ some name := by
  intro hi
  obtain ⟨code, hcode, -⟩ := h.exists_code (label?_eq_some_iff.mp hi)
  cases hcode

theorem labelNames_eq_nil (h : Nameless c) : labelNames c = [] := by
  rw [List.eq_nil_iff_forall_not_mem]
  intro name hname
  obtain ⟨i, hi⟩ := mem_labelNames.mp hname
  exact h.label?_ne_some i name hi

theorem labels_eq_nil (h : Nameless c) : labels c = [] :=
  List.map_eq_nil_iff.mp h.labelNames_eq_nil

theorem symbol?_eq_none (h : Nameless c) {x : Located Code} (hx : x ∈ instructions c) :
    x.item.symbol? = none := by
  obtain ⟨i, -, hi⟩ := mem_before.mp hx
  obtain ⟨code, hcode, rfl⟩ := Option.map_eq_some_iff.mp hi
  obtain ⟨code', heq, hsymbol⟩ := h.exists_code (instruction?_eq_some_iff.mp hcode)
  obtain rfl : code = code' := by simpa using heq
  exact hsymbol

theorem references_eq_nil (h : Nameless c) : references c = [] :=
  List.filterMap_eq_nil_iff.mpr fun _ => h.symbol?_eq_none

theorem wellFormed (h : Nameless c) : WellFormed c where
  readable line hline htoken := by
    rcases h line hline with hblank | ⟨code, hcode, -⟩
    · exact absurd hblank htoken
    · exact ⟨.code code, hcode⟩
  label_free i name hi := absurd hi (h.label?_ne_some i name)
  label_once i _ name hi _ := absurd hi (h.label?_ne_some i name)
  label_fits i name hi := absurd hi (h.label?_ne_some i name)
  variables_fit := by simp [variableNames, h.references_eq_nil]

end Nameless

/-! ## Around the inserted lines -/

/-- The number that a line gets when the lines `c` are put in behind the lines `p`. -/
def around (p c : List String) (i : Nat) : Nat :=
  if i < p.length then i else c.length + i

section Around

variable {p c q : List String} {name : String} {i : Nat}

theorem around_of_lt (h : i < p.length) : around p c i = i :=
  if_pos h

theorem around_add (p c : List String) (i : Nat) :
    around p c (p.length + i) = (p ++ c).length + i := by
  rw [around, if_neg (Nat.not_lt.mpr (Nat.le_add_right _ _)), List.length_append]
  omega

theorem around_injective (p c : List String) : Function.Injective (around p c) := by
  intro i j hij
  unfold around at hij
  split at hij <;> split at hij <;> omega

theorem statement?_around (p c q : List String) (i : Nat) :
    statement? (p ++ c ++ q) (around p c i) = statement? (p ++ q) i := by
  rcases Nat.lt_or_ge i p.length with hlt | hge
  · rw [around_of_lt hlt, List.append_assoc, statement?_append_left hlt,
      statement?_append_left hlt]
  · obtain ⟨j, rfl⟩ := Nat.exists_eq_add_of_le hge
    rw [around_add, statement?_append_right, statement?_append_right]

theorem label?_around (p c q : List String) (i : Nat) :
    label? (p ++ c ++ q) (around p c i) = label? (p ++ q) i := by
  simp only [label?, statement?_around]

/-- What stands behind the inserted lines moves on by the number of their instructions. -/
theorem position_around (p c q : List String) (i : Nat) :
    position (p ++ c ++ q) (around p c i) =
      position (p ++ q) i + if i < p.length then 0 else (instructions c).length := by
  rcases Nat.lt_or_ge i p.length with hlt | hge
  · have hle := Nat.le_of_lt hlt
    rw [around_of_lt hlt, List.append_assoc, position_append_left hle, position_append_left hle,
      if_pos hlt, Nat.add_zero]
  · obtain ⟨j, rfl⟩ := Nat.exists_eq_add_of_le hge
    rw [around_add, position_append_right, position_append_right, instructions_append,
      List.length_append, List.length_map, if_neg (Nat.not_lt.mpr hge)]
    omega

/-- What is left of a source with good labels when lines are taken out has good labels. -/
theorem WellLabelled.of_insert (h : WellLabelled (p ++ c ++ q)) : WellLabelled (p ++ q) where
  readable line hline := by
    refine h.readable line ?_
    simp only [List.mem_append] at hline ⊢
    tauto
  label_free i name hi := h.label_free (around p c i) name ((label?_around p c q i).trans hi)
  label_once i j name hi hj :=
    around_injective p c <| h.label_once _ _ name ((label?_around p c q i).trans hi)
      ((label?_around p c q j).trans hj)
  label_fits i name hi := by
    have hfits := h.label_fits (around p c i) name ((label?_around p c q i).trans hi)
    -- the instructions that are taken out only raised the position
    rw [position_around] at hfits
    omega

/-! ## Labels behind -/

theorem WellLabelled.not_mem_of_predefined (h : WellLabelled (p ++ q))
    (hname : name ∈ Memory.predefined.map Prod.fst) : name ∉ labelNames q := by
  intro hmem
  obtain ⟨j, hj⟩ := mem_labelNames.mp hmem
  exact h.label_free (p.length + j) name ((label?_append_right p q j).trans hj) hname

theorem WellLabelled.mem_labelNames_iff (h : WellLabelled (p ++ q))
    (hi : label? (p ++ q) i = some name) : name ∈ labelNames q ↔ ¬ i < p.length := by
  constructor
  · intro hmem hlt
    obtain ⟨j, hj⟩ := mem_labelNames.mp hmem
    have heq := h.label_once i (p.length + j) name hi ((label?_append_right p q j).trans hj)
    omega
  · intro hge
    obtain ⟨j, rfl⟩ := Nat.exists_eq_add_of_le (Nat.not_lt.mp hge)
    exact mem_labelNames.mpr ⟨j, (label?_append_right p q j).symm.trans hi⟩

theorem IsVariable.not_mem_labelNames (h : IsVariable (p ++ q) name) : name ∉ labelNames q := by
  have hname := (isVariable_iff.mp h).2
  rw [labelNames_append, List.mem_append, not_or] at hname
  exact hname.2

/-! ## Names -/

section Nameless

variable (hc : Nameless c)

include hc

theorem labels_insert (p q : List String) :
    labels (p ++ c ++ q) =
      (labels (p ++ q)).map fun l => ⟨around p c l.line, l.item⟩ := by
  have hfront : (labels p).map (fun l => (⟨around p c l.line, l.item⟩ : Located String)) =
      labels p := by
    refine (List.map_congr_left fun l hl => ?_).trans (List.map_id _)
    rw [around_of_lt (lt_length_of_label? (mem_labels.mp hl))]
    rfl
  rw [labels_append, labels_append, labels_append, hc.labels_eq_nil, List.map_nil, List.append_nil,
    List.map_append, List.map_map, hfront]
  -- the labels in front agree, and those behind are shifted once by `p ++ c` and twice otherwise
  congr 1
  refine List.map_congr_left fun l _ => ?_
  simp only [Function.comp_apply, Located.shift, around_add]

theorem references_insert (p q : List String) : references (p ++ c ++ q) = references (p ++ q) := by
  rw [references_append, references_append, references_append, hc.references_eq_nil,
    List.append_nil]

theorem isVariable_insert_iff : IsVariable (p ++ c ++ q) name ↔ IsVariable (p ++ q) name := by
  rw [isVariable_iff, isVariable_iff, labelNames_append, labelNames_append, labelNames_append,
    hc.labelNames_eq_nil, List.append_nil]

theorem variableNames_insert (p q : List String) :
    variableNames (p ++ c ++ q) = variableNames (p ++ q) := by
  simp only [variableNames, references_insert hc, isVariable_insert_iff hc]

theorem variablesBefore_insert (p q : List String) (name : String) :
    variablesBefore (p ++ c ++ q) name = variablesBefore (p ++ q) name := by
  simp only [variablesBefore, references_insert hc, isVariable_insert_iff hc]

theorem WellFormed.of_insert (h : WellFormed (p ++ c ++ q)) : WellFormed (p ++ q) where
  toWellLabelled := h.toWellLabelled.of_insert
  variables_fit := variableNames_insert hc p q ▸ h.variables_fit

/-- Only the labels behind the inserted lines get other addresses. -/
theorem address_insert (h : WellLabelled (p ++ c ++ q)) (name : String) :
    address (p ++ c ++ q) name =
      address (p ++ q) name + if name ∈ labelNames q then (instructions c).length else 0 := by
  have hrest : WellLabelled (p ++ q) := h.of_insert
  -- a name has one of three kinds in the shorter source, and keeps it in the longer one
  rcases exists_lookup_or_label_or_isVariable (p ++ q) name with ⟨a, ha⟩ | ⟨i, hi⟩ | hvariable
  · have hname := hrest.not_mem_of_predefined
      (List.mem_map_of_mem (f := Prod.fst) (Memory.mem_predefined_of_lookup ha))
    rw [address_of_predefined ha, address_of_predefined ha, if_neg hname, Nat.add_zero]
  · rw [h.address_of_label ((label?_around p c q i).trans hi), hrest.address_of_label hi,
      position_around]
    simp only [hrest.mem_labelNames_iff hi, ite_not]
  · have hvariable' := (isVariable_insert_iff hc).mpr hvariable
    rw [address_of_variable hvariable', address_of_variable hvariable,
      variablesBefore_insert hc, if_neg hvariable.not_mem_labelNames, Nat.add_zero]

end Nameless

end Around

end Source

/-! ## Words -/

/-- Whether code loads the address of one of the given names. -/
def Code.References (names : List String) (code : Code) : Prop :=
  ∃ name ∈ names, code.symbol? = some name

instance (names : List String) (code : Code) : Decidable (code.References names) :=
  inferInstanceAs (Decidable (∃ name ∈ names, code.symbol? = some name))

/-- The words of an assembly, as numbers, after the given names have moved on by `n`. -/
def Assembly.movedWords (a : Assembly) (names : List String) (n : Nat) : List Nat :=
  List.zipWith (fun c w => w.toNat + if c.item.References names then n else 0) a.code a.words

open Source

section Insert

variable {p c q : List String} {a b d : Assembly}

theorem Source.word_of_nameless (lines others : List String) {code : Code}
    (h : code.symbol? = none) : word lines code = word others code := by
  match code with
  | .address (.literal value) => rfl
  | .compute dest comp jump => rfl

theorem Source.word_insert (hc : Nameless c) (h : WellLabelled (p ++ c ++ q)) (code : Code) :
    word (p ++ c ++ q) code =
      word (p ++ q) code +
        if code.References (labelNames q) then (Source.instructions c).length else 0 := by
  match code with
  | .address (.literal value) => simp [word, Code.References, Code.symbol?]
  | .compute dest comp jump => simp [word, Code.References, Code.symbol?]
  | .address (.symbol name) =>
    have hreferences : (Code.address (.symbol name)).References (labelNames q) ↔
        name ∈ labelNames q := by
      simp [Code.References, Code.symbol?]
    simp only [hreferences]
    exact address_insert hc h name

theorem Assembly.Holds.movedWords_eq (hb : b.Holds (p ++ q)) (hc : Nameless c)
    (h : WellLabelled (p ++ c ++ q)) :
    b.movedWords (labelNames q) (Source.instructions c).length =
      (Source.instructions (p ++ q)).map fun x => word (p ++ c ++ q) x.item := by
  let moved (x : Located Code) (w : Nat) : Nat :=
    w + if x.item.References (labelNames q) then (Source.instructions c).length else 0
  calc b.movedWords (labelNames q) (Source.instructions c).length
    _ = List.zipWith moved b.code (b.words.map BitVec.toNat) := by
      rw [List.zipWith_map_right]
      rfl
    _ = (Source.instructions (p ++ q)).map fun x => moved x (word (p ++ q) x.item) := by
      rw [hb.words_eq, hb.code_eq, List.zipWith_map_right, List.zipWith_self]
    _ = (Source.instructions (p ++ q)).map fun x => word (p ++ c ++ q) x.item :=
      List.map_congr_left fun x _ => (word_insert hc h x.item).symm

theorem Assembly.Holds.words_insert (hc : Nameless c) (ha : a.Holds (p ++ c ++ q))
    (hb : b.Holds (p ++ q)) (hd : d.Holds c) :
    let moved := b.movedWords (labelNames q) (Source.instructions c).length
    let k := (Source.instructions p).length
    a.words.map BitVec.toNat = moved.take k ++ d.words.map BitVec.toNat ++ moved.drop k := by
  intro moved k
  let f (x : Located Code) : Nat := word (p ++ c ++ q) x.item
  -- the references of `p` and `q` are moved, and the lines `c` have none
  have hmoved : moved = (Source.instructions p).map f ++ (Source.instructions q).map f := by
    refine (hb.movedWords_eq hc ha.wellFormed.toWellLabelled).trans ?_
    rw [instructions_append, List.map_append, List.map_map]
    rfl
  have hinserted : d.words.map BitVec.toNat = (Source.instructions c).map f := by
    rw [hd.words_eq]
    exact List.map_congr_left fun x hx => word_of_nameless _ _ (hc.symbol?_eq_none hx)
  have hk : ((Source.instructions p).map f).length = k := List.length_map _
  -- all three parts are now the meanings of their instructions in the longer source
  rw [hmoved, List.take_left' hk, List.drop_left' hk, hinserted, ha.words_eq, instructions_append,
    instructions_append, List.map_append, List.map_append, List.map_map, List.map_map]
  rfl

/-! ## Tables -/

/-- A name with its address and kind, after the given names have moved on by `n` instructions
and `m` lines. -/
def SymbolTable.movedBinding (names : List String) (n m : Nat) :
    String × Nat × SymbolKind → String × Nat × SymbolKind
  | (name, address, kind) =>
    if name ∈ names then (name, address + n, Relabelling.kind { line := (m + ·) } kind)
    else (name, address, kind)

theorem SymbolTable.movedBinding_of_not_mem {names : List String} {n m address : Nat}
    {name : String} {kind : SymbolKind} (h : name ∉ names) :
    movedBinding names n m (name, address, kind) = (name, address, kind) :=
  if_neg h

theorem SymbolTable.movedBinding_of_mem {names : List String} {n m address line : Nat}
    {name : String} (h : name ∈ names) :
    movedBinding names n m (name, address, .label line) = (name, address + n, .label (m + line)) :=
  if_pos h

theorem Assembly.Holds.bindings_insert (hc : Nameless c) (ha : a.Holds (p ++ c ++ q))
    (hb : b.Holds (p ++ q)) :
    a.symbols.bindings = b.symbols.bindings.map
      (SymbolTable.movedBinding (labelNames q) (Source.instructions c).length c.length) := by
  have hrest : WellLabelled (p ++ q) := hb.wellFormed.toWellLabelled
  rw [ha.bindings_eq, hb.bindings_eq, labels_insert hc, variableNames_insert hc]
  simp only [List.map_append, List.map_map]
  congr 1
  · congr 1
    · refine (List.map_congr_left fun e he => ?_)
      exact (SymbolTable.movedBinding_of_not_mem
        (hrest.not_mem_of_predefined (List.mem_map_of_mem he))).symm
    · refine List.map_congr_left fun l hl => ?_
      have hlabel : label? (p ++ q) l.line = some l.item := mem_labels.mp hl
      have hmem := hrest.mem_labelNames_iff hlabel
      simp only [Function.comp_apply, position_around]
      by_cases hlt : l.line < p.length
      · rw [SymbolTable.movedBinding_of_not_mem (fun h => hmem.mp h hlt), around_of_lt hlt,
          if_pos hlt, Nat.add_zero]
      · rw [SymbolTable.movedBinding_of_mem (hmem.mpr hlt), around, if_neg hlt, if_neg hlt]
  · refine ((List.map_congr_left fun e he => ?_).trans (List.map_id _)).symm
    obtain ⟨i, hi, rfl⟩ := List.mem_mapIdx.mp he
    have hvariable := (mem_variableNames.mp (List.getElem_mem hi)).2
    exact SymbolTable.movedBinding_of_not_mem hvariable.not_mem_labelNames

theorem Assembly.Holds.not_mem_labelNames (hb : b.Holds (p ++ q)) {e : String × Symbol}
    (he : e ∈ b.symbols.entries) (hfront : e.1 ∈ labelNames p ∨ e.2.kind = .var) :
    e.1 ∉ labelNames q := by
  rcases hfront with hlabel | hvariable
  · obtain ⟨i, hi⟩ := mem_labelNames.mp hlabel
    have hlt := lt_length_of_label? hi
    have hi' : label? (p ++ q) i = some e.1 := (label?_append_left hlt).trans hi
    rw [hb.wellFormed.toWellLabelled.mem_labelNames_iff hi']
    exact not_not.mpr hlt
  · rw [hb.entries_eq, SymbolTable.entries_initial, List.mem_append, List.mem_append] at he
    rcases he with (he | he) | he
    · obtain ⟨_, -, rfl⟩ := List.mem_map.mp he
      cases hvariable
    · obtain ⟨_, -, rfl⟩ := List.mem_map.mp he
      cases hvariable
    · obtain ⟨i, hi, rfl⟩ := List.mem_mapIdx.mp he
      exact (mem_variableNames.mp (List.getElem_mem hi)).2.not_mem_labelNames

theorem Assembly.Holds.mem_entries_insert (hc : Nameless c) (ha : a.Holds (p ++ c ++ q))
    (hb : b.Holds (p ++ q)) {e : String × Symbol} (he : e ∈ b.symbols.entries)
    (hname : e.1 ∉ labelNames q) : e ∈ a.symbols.entries := by
  have hbinding : (e.1, e.2.address.toNat, e.2.kind) ∈ a.symbols.bindings := by
    rw [ha.bindings_insert hc hb, List.mem_map]
    exact ⟨_, List.mem_map_of_mem he, SymbolTable.movedBinding_of_not_mem hname⟩
  obtain ⟨⟨name, address, kind⟩, hmem, heq⟩ := List.mem_map.mp hbinding
  obtain ⟨hname', haddress, hkind⟩ : name = e.1 ∧ address.toNat = e.2.address.toNat ∧
      kind = e.2.kind := by
    simpa using heq
  obtain rfl : (name, Symbol.mk address kind) = e := by
    rw [hname', BitVec.eq_of_toNat_eq haddress, hkind]
  exact hmem

/-- If a source with nameless lines `c` in its middle assembles, it also does without them. With
them, their words stand behind those of `p`, every reference to a label of `q` loads an address
that is larger by their number, and the other words are the same. In the table only the labels
of `q` have moved: those of `p` and the variables are where they were. -/
theorem assembleLines_of_insert (hc : Nameless c) (ha : assembleLines (p ++ c ++ q) = .ok a) :
    ∃ b d, assembleLines (p ++ q) = .ok b ∧ assembleLines c = .ok d ∧
      let n := (Source.instructions c).length
      let k := (Source.instructions p).length
      let moved := b.movedWords (labelNames q) n
      d.words.length = n ∧
      a.words.map BitVec.toNat = moved.take k ++ d.words.map BitVec.toNat ++ moved.drop k ∧
      a.symbols.bindings =
        b.symbols.bindings.map (SymbolTable.movedBinding (labelNames q) n c.length) ∧
      ∀ e ∈ b.symbols.entries, e.1 ∈ labelNames p ∨ e.2.kind = .var → e ∈ a.symbols.entries := by
  have hwhole : a.Holds (p ++ c ++ q) := Assembly.holds_of_assembleLines ha
  obtain ⟨b, hb⟩ := exists_assembleLines (hwhole.wellFormed.of_insert hc)
  obtain ⟨d, hd⟩ := exists_assembleLines hc.wellFormed
  have hrest : b.Holds (p ++ q) := Assembly.holds_of_assembleLines hb
  have hinserted : d.Holds c := Assembly.holds_of_assembleLines hd
  refine ⟨b, d, hb, hd, ?_, hwhole.words_insert hc hrest hinserted,
    hwhole.bindings_insert hc hrest, ?_⟩
  · simpa using congrArg List.length hinserted.words_eq
  · intro e he hfront
    exact hwhole.mem_entries_insert hc hrest he (hrest.not_mem_labelNames he hfront)

end Insert

/-- Two instructions are put in between two labels. The first of the labels ends the front part and
stays, and the second one begins the part behind, so it moves on by two. It is referenced from
both sides. -/
theorem assembleLines_of_insert_between :
    let p := ["@HERE", "@NEXT", "D=A", "(HERE)"]
    let c := ["// wait", "D=D+1", "@5"]
    let q := ["(NEXT)", "@i", "@NEXT", "0;JMP"]
    Nameless c ∧ ∃ a b d, assembleLines (p ++ c ++ q) = .ok a ∧ assembleLines (p ++ q) = .ok b ∧
      assembleLines c = .ok d ∧ d.words.length = 2 ∧
      a.words.map BitVec.toNat =
        (b.movedWords ["NEXT"] 2).take 3 ++ d.words.map BitVec.toNat ++
          (b.movedWords ["NEXT"] 2).drop 3 ∧
      a.symbols.bindings.drop 23 =
        [("HERE", 3, .label 3), ("NEXT", 5, .label 7), ("i", 16, .var)] ∧
      b.symbols.bindings.map (SymbolTable.movedBinding ["NEXT"] 2 3) = a.symbols.bindings := by
  intro p c q
  have hc : Nameless c := by
    intro line hline
    obtain rfl | rfl | rfl : line = "// wait" ∨ line = "D=D+1" ∨ line = "@5" := by
      simpa [c] using hline
    · exact .inl (by decide)
    · exact .inr ⟨.compute { d := true } .dPlusOne .never, by decide, rfl⟩
    · exact .inr ⟨.address (.literal 5), by decide, rfl⟩
  obtain ⟨a, ha, hbindings⟩ := exists_of_map_toOption
    (show (assembleLines (p ++ c ++ q)).toOption.map (·.symbols.bindings.drop 23) =
      some [("HERE", 3, .label 3), ("NEXT", 5, .label 7), ("i", 16, .var)] by decide +kernel)
  obtain ⟨b, d, hb, hd, hlength, hwords, hmoved, -⟩ := assembleLines_of_insert hc ha
  have hnames : labelNames q = ["NEXT"] := by decide +kernel
  have hn : (Source.instructions c).length = 2 := by decide +kernel
  have hk : (Source.instructions p).length = 3 := by decide +kernel
  rw [hnames, hn] at hmoved
  rw [hnames, hn, hk] at hwords
  exact ⟨hc, a, b, d, ha, hb, hd, hlength.trans hn, hwords, hbindings, hmoved.symm⟩

end HackAssembler
