-- SUMMARY: What names stand for: the table that both passes leave behind, against the meaning of a source.
import HackAssembler.Proofs.Assembly.Labels
import HackAssembler.Proofs.Assembly.Variables

/-!
# Names and their addresses

Both passes together bind the predefined names, then the labels, then the variables. The
table at the end is compared here with what a source means: each name that is referenced
is bound to the address that it stands for, as long as there is a word for every variable.
-/

/-! ## First occurrences -/

namespace List

variable {α : Type} [DecidableEq α] {pre post : List α} {a : α}

theorem takeWhile_ne_append_cons (h : a ∉ pre) :
    (pre ++ a :: post).takeWhile (fun b => b ≠ a) = pre := by
  have hne : ∀ b ∈ pre, decide (b ≠ a) = true := fun b hb =>
    decide_eq_true fun heq => h (heq ▸ hb)
  rw [List.takeWhile_append_of_pos hne, List.takeWhile_cons_of_neg (by simp), List.append_nil]

/-- An element that is new keeps its place behind those in front of it. -/
theorem eraseDups_append_cons_prefix (h : a ∉ pre) :
    pre.eraseDups ++ [a] <+: (pre ++ a :: post).eraseDups := by
  have hsplit : pre ++ a :: post = (pre ++ [a]) ++ post := by simp
  rw [hsplit, List.eraseDups_append, List.eraseDups_concat_of_not_mem h]
  exact List.prefix_append _ _

end List

namespace HackAssembler

/-! ## Predefined names -/

namespace Memory

variable {name : String}

theorem mem_predefined_of_lookup {a : Word} (h : predefined.lookup name = some a) :
    (name, a) ∈ predefined := by
  obtain ⟨before, after, heq, -⟩ := List.lookup_eq_some_iff.mp h
  rw [heq]
  exact List.mem_append_right _ (List.mem_cons_self ..)

theorem not_mem_of_lookup_eq_none (h : predefined.lookup name = none) :
    name ∉ predefined.map Prod.fst := by
  intro hmem
  obtain ⟨e, he, rfl⟩ := List.mem_map.mp hmem
  simpa using List.lookup_eq_none_iff.mp h e he

theorem le_maxAddress_of_mem_predefined {e : String × Word} (h : e ∈ predefined) :
    e.2 ≤ maxAddress := by
  have hall : ∀ e ∈ predefined, e.2 ≤ maxAddress := by decide
  exact hall e h

end Memory

namespace Source

/-! ## The variables of a source -/

theorem mem_labels {lines : List String} {l : Located String} :
    l ∈ labels lines ↔ label? lines l.line = some l.item := by
  unfold labels
  rw [mem_before]
  constructor
  · rintro ⟨i, -, hi⟩
    obtain ⟨name, hlabel, rfl⟩ := Option.map_eq_some_iff.mp hi
    exact hlabel
  · intro hlabel
    exact ⟨l.line, lt_length_of_label? hlabel, by rw [hlabel]; rfl⟩

theorem mem_variableNames {lines : List String} {name : String} :
    name ∈ variableNames lines ↔ name ∈ references lines ∧ IsVariable lines name := by
  simp [variableNames]

theorem nodup_variableNames (lines : List String) : (variableNames lines).Nodup :=
  List.nodup_eraseDups _

/-- A variable comes right behind those whose first references come before its own. -/
theorem getElem?_variableNames {lines : List String} {name : String} (h : name ∈ variableNames lines) :
    (variableNames lines)[(variablesBefore lines name).length]? = some name := by
  obtain ⟨href, hvar⟩ := mem_variableNames.mp h
  obtain ⟨pre, post, hsplit, hpre⟩ := List.eq_append_cons_of_mem href
  have hbefore : variablesBefore lines name =
      (pre.filter fun other => IsVariable lines other).eraseDups := by
    rw [variablesBefore, hsplit, List.takeWhile_ne_append_cons hpre]
  -- its first reference is new, so it comes next, and what is referenced later goes behind it
  have hprefix : variablesBefore lines name ++ [name] <+: variableNames lines := by
    rw [hbefore, variableNames, hsplit, List.filter_append,
      List.filter_cons_of_pos (p := fun other => IsVariable lines other) (decide_eq_true hvar)]
    exact List.eraseDups_append_cons_prefix (mt List.mem_of_mem_filter hpre)
  obtain ⟨rest, hrest⟩ := hprefix
  rw [← hrest, List.append_assoc, List.getElem?_append_right (Nat.le_refl _)]
  simp

/-- The entry of a variable, told from its number. -/
def variableEntry (i : Nat) (name : String) : String × Symbol :=
  (name, ⟨BitVec.ofNat 16 (16 + i), .var⟩)

end Source

/-! ## The table of the first pass -/

namespace Program.Holds

open Source

variable {lines : List String} {p : Program} {name : String}

theorem find?_of_predefined (h : p.Holds lines) {a : Word}
    (hname : Memory.predefined.lookup name = some a) :
    p.symbols.find? name = some ⟨a, .predefined⟩ := by
  rw [SymbolTable.find?_eq_some_iff h.invariant.nodup_names, h.entries_eq]
  apply List.mem_append_left
  rw [SymbolTable.entries_initial]
  exact List.mem_map_of_mem (Memory.mem_predefined_of_lookup hname)

theorem find?_of_label (h : p.Holds lines) {i : Nat} (hlabel : label? lines i = some name) :
    p.symbols.find? name = some ⟨BitVec.ofNat 16 (position lines i), .label i⟩ := by
  rw [SymbolTable.find?_eq_some_iff h.invariant.nodup_names, h.entries_eq]
  apply List.mem_append_right
  exact List.mem_map_of_mem (f := labelEntry lines) (mem_labels (l := ⟨i, name⟩).mpr hlabel)

theorem find?_eq_none_iff (h : p.Holds lines) :
    p.symbols.find? name = none ↔ IsVariable lines name := by
  have hnames : p.symbols.names =
      Memory.predefined.map Prod.fst ++ (labels lines).map Located.item := by
    rw [SymbolTable.names, h.entries_eq, List.map_append, List.map_map, ← SymbolTable.names_initial]
    rfl
  rw [SymbolTable.find?_eq_none_iff, hnames, List.mem_append, not_or]
  refine and_congr_right fun _ => ?_
  rw [definition?_eq_none_iff, List.mem_map]
  constructor
  · intro hfree i _ hlabel
    exact hfree ⟨⟨i, name⟩, mem_labels.mpr hlabel, rfl⟩
  · rintro hfree ⟨l, hl, rfl⟩
    have hlabel := mem_labels.mp hl
    exact hfree l.line (lt_length_of_label? hlabel) hlabel

theorem newNames_eq (h : p.Holds lines) : p.symbols.newNames p.code = variableNames lines := by
  unfold SymbolTable.newNames variableNames references
  rw [h.code_eq]
  congr 1
  apply List.filter_congr
  intro name _
  rw [decide_eq_decide]
  exact h.find?_eq_none_iff

theorem room_eq (h : p.Holds lines) : p.symbols.room = 32752 := by
  rw [SymbolTable.room, h.nextVariable_eq]
  rfl

theorem allocated_eq (h : p.Holds lines) :
    p.symbols.allocated p.code = (variableNames lines).take 32752 := by
  rw [SymbolTable.allocated, h.newNames_eq, h.room_eq]

/-! ## The table at the end -/

theorem entries_linked (h : p.Holds lines) :
    (p.symbols.linked p.code).entries =
      SymbolTable.initial.entries ++ (labels lines).map (labelEntry lines) ++
        ((variableNames lines).take 32752).mapIdx variableEntry := by
  rw [SymbolTable.linked, SymbolTable.entries_allocateAll, h.entries_eq, h.allocated_eq,
    h.nextVariable_eq]
  congr 2
  funext i name
  rw [variableEntry, BitVec.ofNat_add]
  rfl

theorem find?_linked_of_variable (h : p.Holds lines) {i : Nat}
    (hi : (variableNames lines)[i]? = some name) (hlt : i < 32752) :
    (p.symbols.linked p.code).find? name = some ⟨BitVec.ofNat 16 (16 + i), .var⟩ := by
  have hnodup := (h.invariant.linked p.code).nodup_names
  rw [SymbolTable.find?_eq_some_iff hnodup, h.entries_linked]
  refine List.mem_append_right _ (List.mem_mapIdx.mpr ?_)
  obtain ⟨hlength, rfl⟩ := List.getElem?_eq_some_iff.mp hi
  exact ⟨i, by rw [List.length_take]; omega, by rw [List.getElem_take]; rfl⟩

/-- Each name that is referenced is bound to the address that it stands for, if all variables fit. -/
theorem exists_find?_linked (h : p.Holds lines) (hfit : (variableNames lines).length ≤ 32752)
    (href : name ∈ references lines) :
    ∃ symbol, (p.symbols.linked p.code).find? name = some symbol ∧
      symbol.address.toNat = address lines name ∧ symbol.address ≤ Memory.maxAddress := by
  cases hpredefined : Memory.predefined.lookup name with
  | some a =>
    refine ⟨_, SymbolTable.find?_linked_of_bound (h.find?_of_predefined hpredefined), ?_, ?_⟩
    · simp only [address, hpredefined]
    · exact Memory.le_maxAddress_of_mem_predefined (Memory.mem_predefined_of_lookup hpredefined)
  | none =>
    have hname := Memory.not_mem_of_lookup_eq_none hpredefined
    cases hdefined : definition? lines lines.length name with
    | some i =>
      have hlabel := (definition?_eq_some_iff.mp hdefined).2.1
      have hposition := h.wellLabelled.label_fits i name hlabel
      have hnat := Memory.toNat_ofNat hposition
      -- the second pass leaves the label where the first one has put it
      refine ⟨_, SymbolTable.find?_linked_of_bound (h.find?_of_label hlabel), ?_, ?_⟩
      · simp only [address, hpredefined, hdefined, hnat]
      · rw [Memory.le_maxAddress_iff, hnat]
        exact hposition
    | none =>
      have hi := getElem?_variableNames (mem_variableNames.mpr ⟨href, hname, hdefined⟩)
      have hlt := (List.getElem?_eq_some_iff.mp hi).1
      have haddress : 16 + (variablesBefore lines name).length ≤ 32767 := by omega
      have hnat := Memory.toNat_ofNat haddress
      refine ⟨_, h.find?_linked_of_variable hi (by omega), ?_, ?_⟩
      · simp only [address, hpredefined, hdefined, hnat]
      · rw [Memory.le_maxAddress_iff, hnat]
        exact haddress

/-- If the variables do not fit, the first of them for which no word is left stays without one. -/
theorem exists_find?_linked_eq_none (h : p.Holds lines)
    (hlong : 32752 < (variableNames lines).length) :
    ∃ name ∈ references lines, (p.symbols.linked p.code).find? name = none := by
  have hmem : (variableNames lines)[32752] ∈ (variableNames lines).drop 32752 :=
    List.mem_drop_iff_getElem.mpr ⟨0, hlong, rfl⟩
  obtain ⟨href, hvar⟩ := mem_variableNames.mp (List.mem_of_mem_drop hmem)
  refine ⟨_, href, ?_⟩
  have hnew : (variableNames lines)[32752] ∉ p.symbols.allocated p.code := by
    rw [h.allocated_eq]
    intro htake
    exact List.disjoint_take_drop (nodup_variableNames lines) (Nat.le_refl _) htake hmem
  rw [SymbolTable.find?_linked_of_not_mem hnew]
  exact h.find?_eq_none_iff.mpr hvar

end Program.Holds

end HackAssembler
