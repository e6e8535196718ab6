-- SUMMARY: What assembling a source gives: when it succeeds, its words, and its table.
import HackAssembler.Proofs.Assembly.Names
import HackAssembler.Proofs.Machine.Letters
import HackAssembler.Proofs.Source.Grammar

/-!
# The specification of assembling

A source assembles exactly if it is well formed. Its words and its table are then those
that its meaning prescribes, although the assembler finds them in two passes that each
know only what lies behind them.
-/

namespace HackAssembler

open Source

/-! ## Instructions that can be written -/

theorem Source.exists_written {lines : List String} {c : Located Code}
    (hc : c ∈ instructions lines) : ∃ token, Statement.Written (.code c.item) token := by
  obtain ⟨n, -, hn⟩ := mem_before.mp hc
  obtain ⟨code, hcode, rfl⟩ := Option.map_eq_some_iff.mp hn
  obtain ⟨line, -, -, hparse⟩ := statement?_eq_some_iff.mp (instruction?_eq_some_iff.mp hcode)
  exact ⟨Line.normalize line, Statement.parse_eq_ok_iff.mp hparse⟩

/-- No mnemonic sets a bit of a destination that belongs to no register. -/
theorem Statement.Written.other_eq {dest : Destination} {comp : Computation} {jump : Jump}
    {token : String} (h : Written (.code (.compute dest comp jump)) token) : dest.other = 0 := by
  cases h with
  | compute hdest => exact hdest.other_eq
  | store hdest => exact hdest.other_eq
  | branch => rfl

/-! ## The second pass over a source -/

namespace Program.Holds

variable {lines : List String} {p : Program} {c : Located Code}

theorem mem_references (h : p.Holds lines) {name : String} :
    name ∈ references lines ↔ ∃ c ∈ p.code, c.item = .address (.symbol name) := by
  simp only [references, ← h.code_eq, List.mem_filterMap, Code.symbol?_eq_some_iff]

/-- If all variables fit, every instruction stands for the word that it means. -/
theorem exists_lookup (h : p.Holds lines) (hfit : (variableNames lines).length ≤ 32752)
    (hc : c ∈ p.code) :
    ∃ instruction, c.item.lookup (p.symbols.linked p.code) = .ok instruction ∧
      instruction.encode.toNat = word lines c.item := by
  match hitem : c.item with
  | .address (.literal value) => exact ⟨.address value, rfl, rfl⟩
  | .compute dest comp jump =>
    -- a destination that is read from a token has registers only, as the digits require
    obtain ⟨token, htoken⟩ := exists_written (h.code_eq ▸ hc)
    rw [hitem] at htoken
    have hspells := Instruction.spells_encode htoken.other_eq comp jump
    exact ⟨.compute dest comp jump, rfl, hspells.value_eq.symm⟩
  | .address (.symbol name) =>
    have href : name ∈ references lines := h.mem_references.mpr ⟨c, hc, hitem⟩
    obtain ⟨symbol, hfind, haddress, hle⟩ := h.exists_find?_linked hfit href
    refine ⟨.address symbol.address, ?_, haddress⟩
    rw [Code.lookup_of_bound hfind, if_pos hle]

theorem faultless_iff (h : p.Holds lines) :
    p.code.filterMap (Code.fault? (p.symbols.linked p.code)) = [] ↔
      (variableNames lines).length ≤ 32752 := by
  rw [List.filterMap_eq_nil_iff]
  constructor
  · intro hall
    -- one variable too many is referenced somewhere, and that reference is a fault
    by_contra hlong
    obtain ⟨name, href, hfree⟩ := h.exists_find?_linked_eq_none (Nat.not_le.mp hlong)
    obtain ⟨c, hc, hitem⟩ := h.mem_references.mp href
    obtain ⟨instruction, hlookup⟩ := Code.fault?_eq_none_iff.mp (hall c hc)
    rw [hitem, Code.lookup_of_free hfree] at hlookup
    cases hlookup
  · intro hfit c hc
    obtain ⟨instruction, hlookup, -⟩ := h.exists_lookup hfit hc
    exact Code.fault?_eq_none_iff.mpr ⟨instruction, hlookup⟩

theorem words_eq (h : p.Holds lines) (hfit : (variableNames lines).length ≤ 32752) :
    (p.code.filterMap fun c => (c.item.lookup (p.symbols.linked p.code)).toOption).map
        (fun instruction => instruction.encode.toNat) =
      (instructions lines).map fun c => word lines c.item := by
  rw [List.map_filterMap, ← h.code_eq, ← List.filterMap_eq_map]
  apply List.filterMap_congr
  intro c hc
  obtain ⟨instruction, hlookup, hword⟩ := h.exists_lookup hfit hc
  rw [hlookup, Function.comp_apply, ← hword]
  rfl

end Program.Holds

/-! ## Both passes -/

/-- What an assembly of a source holds. -/
structure Assembly.Holds (lines : List String) (a : Assembly) : Prop where
  wellFormed : WellFormed lines
  code_eq : a.code = Source.instructions lines
  words_eq : a.words.map BitVec.toNat = (Source.instructions lines).map fun c => word lines c.item
  entries_eq : a.symbols.entries =
    SymbolTable.initial.entries ++ (labels lines).map (labelEntry lines) ++
      (variableNames lines).mapIdx variableEntry
  invariant : a.symbols.Invariant

theorem Program.Holds.link {lines : List String} {p : Program} {a : Assembly} (h : p.Holds lines)
    (hlink : p.link = .ok a) : a.Holds lines := by
  rw [Program.link_eq] at hlink
  split at hlink
  · rename_i hfaults
    have hfit : (variableNames lines).length ≤ 32752 := h.faultless_iff.mp hfaults
    obtain rfl := Except.ok.inj hlink
    refine ⟨⟨h.wellLabelled, hfit⟩, h.code_eq, ?_, ?_, h.invariant.linked p.code⟩
    · rw [Assembly.words, List.map_map]
      exact h.words_eq hfit
    · rw [h.entries_linked, List.take_of_length_le hfit]
  · cases hlink

theorem exists_of_isOk {ε α : Type} {e : Except ε α} (h : e.isOk) : ∃ a, e = .ok a := by
  cases e with
  | error e => cases h
  | ok a => exact ⟨a, rfl⟩

theorem exists_of_map_toOption {ε α β : Type} {e : Except ε α} {f : α → β} {b : β}
    (h : e.toOption.map f = some b) : ∃ a, e = .ok a ∧ f a = b := by
  cases e with
  | error e => cases h
  | ok a => exact ⟨a, rfl, Option.some.inj h⟩

theorem Assembly.holds_of_assembleLines {lines : List String} {a : Assembly}
    (h : assembleLines lines = .ok a) : a.Holds lines := by
  rw [assembleLines_eq] at h
  cases hprogram : Program.ofLines lines with
  | error e =>
    rw [hprogram] at h
    cases h
  | ok p =>
    rw [hprogram] at h
    exact (Program.holds_of_ofLines hprogram).link h

theorem exists_assembleLines {lines : List String} (h : WellFormed lines) :
    ∃ a, assembleLines lines = .ok a := by
  obtain ⟨p, hprogram⟩ := Program.exists_ofLines h.toWellLabelled
  have hp : p.Holds lines := Program.holds_of_ofLines hprogram
  rw [assembleLines_eq, hprogram]
  refine ⟨_, (Program.link_eq p).trans (if_pos ?_)⟩
  exact hp.faultless_iff.mpr h.variables_fit

/-- A source assembles exactly if it is well formed, and then each of its instructions becomes the
word that it means. -/
theorem assemble_meets_meaning (source : String) :
    ((∃ a, assemble source = .ok a) ↔ WellFormed (Text.lines source)) ∧
    ∀ a, assemble source = .ok a →
      a.words.map BitVec.toNat =
        (instructions (Text.lines source)).map fun c => word (Text.lines source) c.item := by
  constructor
  · constructor
    · rintro ⟨a, ha⟩
      exact (Assembly.holds_of_assembleLines ha).wellFormed
    · exact exists_assembleLines
  · intro a ha
    exact (Assembly.holds_of_assembleLines ha).words_eq

/-! ## The table at the end -/

namespace Source

theorem length_before_map {α β : Type} (item? : Nat → Option α) (f : Nat → α → β) (n : Nat) :
    (before (fun i => (item? i).map (f i)) n).length = (before item? n).length := by
  induction n with
  | zero => rfl
  | succ n ih =>
    rw [before_succ, before_succ, List.length_append, List.length_append, ih]
    cases item? n <;> rfl

/-- The address of a label parts the instructions into those in front of it and those behind it. -/
theorem instructions_around_label {lines : List String} {l : Located String}
    (hl : l ∈ labels lines) :
    position lines l.line ≤ (instructions lines).length ∧
    ∀ (i : Nat) c, (instructions lines)[i]? = some c →
      (i < position lines l.line → c.line < l.line) ∧
      (position lines l.line ≤ i → l.line < c.line) := by
  have hlabel : label? lines l.line = some l.item := mem_labels.mp hl
  obtain ⟨rest, hsplit, hrest⟩ :=
    before_append (fun i => (instruction? lines i).map (Located.mk i))
      (Nat.le_of_lt (lt_length_of_label? hlabel))
  have hlength := length_before_map (instruction? lines) Located.mk l.line
  unfold instructions position
  rw [hsplit, ← hlength]
  refine ⟨by simp, ?_⟩
  intro i c hc
  constructor
  · intro hlt
    rw [List.getElem?_append_left hlt] at hc
    obtain ⟨j, hj, hitem⟩ := mem_before.mp (List.mem_of_getElem? hc)
    obtain ⟨code, -, rfl⟩ := Option.map_eq_some_iff.mp hitem
    exact hj
  · intro hle
    rw [List.getElem?_append_right hle] at hc
    obtain ⟨j, hj, hitem⟩ := hrest c (List.mem_of_getElem? hc)
    obtain ⟨code, hcode, rfl⟩ := Option.map_eq_some_iff.mp hitem
    apply Nat.lt_of_le_of_ne hj
    intro heq
    -- a line that holds a label holds no instruction
    subst heq
    have hother := instruction?_eq_some_iff.mp hcode
    rw [label?_eq_some_iff.mp hlabel] at hother
    cases hother

end Source

/-- The names of a table with their addresses and kinds, in the order of their definition. -/
def SymbolTable.bindings (t : SymbolTable) : List (String × Nat × SymbolKind) :=
  t.entries.map fun (name, symbol) => (name, symbol.address.toNat, symbol.kind)

namespace Assembly.Holds

variable {lines : List String} {a : Assembly}

theorem bindings_eq (h : a.Holds lines) :
    a.symbols.bindings =
      (Memory.predefined.map fun (name, address) => (name, address.toNat, .predefined)) ++
      ((labels lines).map fun l => (l.item, position lines l.line, .label l.line)) ++
      (variableNames lines).mapIdx fun i name => (name, 16 + i, .var) := by
  unfold SymbolTable.bindings
  rw [h.entries_eq, List.map_append, List.map_append, SymbolTable.entries_initial, List.map_map,
    List.map_map]
  congr 1
  · congr 1
    apply List.map_congr_left
    intro l hl
    have hposition := h.wellFormed.label_fits l.line l.item (mem_labels.mp hl)
    simp only [Function.comp_apply, labelEntry, Memory.toNat_ofNat hposition]
  · apply List.ext_getElem
    · simp
    · intro i hi _
      -- no variable is so far up that its address is cut off
      have hfit := h.wellFormed.variables_fit
      rw [List.length_map, List.length_mapIdx] at hi
      have haddress : 16 + i ≤ 32767 := by omega
      simp only [List.getElem_map, List.getElem_mapIdx, variableEntry, Memory.toNat_ofNat haddress]

theorem size_eq (h : a.Holds lines) :
    a.symbols.size = 23 + (labels lines).length + (variableNames lines).length := by
  rw [SymbolTable.size_eq_length, h.entries_eq]
  simp only [List.length_append, List.length_map, List.length_mapIdx]
  rfl

end Assembly.Holds

/-- The table of an assembly lists the predefined names, then the labels with the lines and places
of their definitions, then the variables from word 16 on in the order of their first references. -/
theorem bindings_of_assemble {source : String} {a : Assembly} (ha : assemble source = .ok a) :
    let lines := Text.lines source
    a.symbols.bindings =
      (Memory.predefined.map fun (name, address) => (name, address.toNat, .predefined)) ++
      ((labels lines).map fun l => (l.item, position lines l.line, .label l.line)) ++
      ((variableNames lines).mapIdx fun i name => (name, 16 + i, .var)) ∧
    (∀ l ∈ labels lines,
      position lines l.line ≤ a.code.length ∧
      ∀ (i : Nat) c, a.code[i]? = some c →
        (i < position lines l.line → c.line < l.line) ∧
        (position lines l.line ≤ i → l.line < c.line)) ∧
    a.symbols.names.Nodup ∧
    a.symbols.size = 23 + (labels lines).length + (variableNames lines).length := by
  intro lines
  have h : a.Holds lines := Assembly.holds_of_assembleLines ha
  refine ⟨h.bindings_eq, ?_, h.invariant.nodup_names, h.size_eq⟩
  rw [h.code_eq]
  exact fun l => instructions_around_label

/-- Here a label is referenced in front of its definition, two labels share an address, and one stands
behind the last instruction. -/
theorem bindings_of_assemble_loop :
    ∃ a, assemble "@END\n@i\n(LOOP)\n(AGAIN)\nM=M+1\n@LOOP\n0;JMP\n@i\n(END)" = .ok a ∧
      a.symbols.bindings.drop 23 =
        [("LOOP", 2, .label 2), ("AGAIN", 2, .label 3), ("END", 6, .label 8), ("i", 16, .var)] ∧
      a.symbols.size = 27 := by
  refine (exists_of_isOk (by decide +kernel)).imp fun a ha => ⟨ha, ?_, ?_⟩
  · rw [(bindings_of_assemble ha).1]
    decide +kernel
  · rw [(bindings_of_assemble ha).2.2.2]
    decide +kernel

end HackAssembler
