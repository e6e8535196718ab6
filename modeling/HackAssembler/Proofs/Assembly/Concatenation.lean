-- SUMMARY: Sources put together from parts: the lines, instructions and labels of each part.
import HackAssembler.Proofs.Assembly.Specification

/-!
# Concatenation

A source may be read in two parts. The lines of the second part are counted from the end of
the first one, and its instructions follow those of the first one.
-/

namespace HackAssembler

/-- The same thing some lines further down. -/
def Located.shift {α : Type} (lines : Nat) (x : Located α) : Located α :=
  ⟨lines + x.line, x.item⟩

namespace Source

/-! ## Places -/

section Before

variable {α : Type} {item? other? : Nat → Option α}

theorem before_add (item? : Nat → Option α) (m n : Nat) :
    before item? (m + n) = before item? m ++ before (fun i => item? (m + i)) n := by
  induction n with
  | zero => exact (List.append_nil _).symm
  | succ n ih => rw [← Nat.add_assoc, before_succ, before_succ, ih, List.append_assoc]

theorem before_congr {n : Nat} (h : ∀ i < n, item? i = other? i) :
    before item? n = before other? n :=
  List.filterMap_congr fun i hi => h i (List.mem_range.mp hi)

theorem map_before {β : Type} (f : α → β) (n : Nat) :
    (before item? n).map f = before (fun i => (item? i).map f) n :=
  List.map_filterMap

end Before

/-! ## Lines of two parts -/

section Append

variable {p q : List String} {i : Nat}

theorem statement?_append_left (h : i < p.length) : statement? (p ++ q) i = statement? p i := by
  simp only [statement?, List.getElem?_append_left h]

theorem statement?_append_right (p q : List String) (i : Nat) :
    statement? (p ++ q) (p.length + i) = statement? q i := by
  simp only [statement?, List.getElem?_append_right (Nat.le_add_right _ _), Nat.add_sub_cancel_left]

theorem instruction?_append_left (h : i < p.length) :
    instruction? (p ++ q) i = instruction? p i := by
  simp only [instruction?, statement?_append_left h]

theorem instruction?_append_right (p q : List String) (i : Nat) :
    instruction? (p ++ q) (p.length + i) = instruction? q i := by
  simp only [instruction?, statement?_append_right]

theorem label?_append_left (h : i < p.length) : label? (p ++ q) i = label? p i := by
  simp only [label?, statement?_append_left h]

theorem label?_append_right (p q : List String) (i : Nat) :
    label? (p ++ q) (p.length + i) = label? q i := by
  simp only [label?, statement?_append_right]

/-- What is found line by line in two parts is what is found in the one and then in the other. -/
theorem located_append {α : Type} {item? : List String → Nat → Option α}
    (hleft : ∀ i < p.length, item? (p ++ q) i = item? p i)
    (hright : ∀ i, item? (p ++ q) (p.length + i) = item? q i) :
    before (fun i => (item? (p ++ q) i).map (Located.mk i)) (p ++ q).length =
      before (fun i => (item? p i).map (Located.mk i)) p.length ++
        (before (fun i => (item? q i).map (Located.mk i)) q.length).map
          (Located.shift p.length) := by
  rw [List.length_append, before_add, map_before]
  congr 1
  · exact before_congr fun i hi => by rw [hleft i hi]
  · refine before_congr fun i _ => ?_
    rw [hright, Option.map_map]
    rfl

theorem instructions_append (p q : List String) :
    instructions (p ++ q) =
      instructions p ++ (instructions q).map (Located.shift p.length) :=
  located_append (fun _ => instruction?_append_left) (instruction?_append_right p q)

theorem labels_append (p q : List String) :
    labels (p ++ q) = labels p ++ (labels q).map (Located.shift p.length) :=
  located_append (fun _ => label?_append_left) (label?_append_right p q)

theorem references_append (p q : List String) :
    references (p ++ q) = references p ++ references q := by
  unfold references
  rw [instructions_append, List.filterMap_append, List.filterMap_map]
  rfl

theorem length_instructions (lines : List String) :
    (instructions lines).length = position lines lines.length :=
  length_before_map _ _ _

theorem position_append_left (h : i ≤ p.length) : position (p ++ q) i = position p i :=
  congrArg List.length <| before_congr fun _ hj =>
    instruction?_append_left (Nat.lt_of_lt_of_le hj h)

theorem position_append_right (p q : List String) (i : Nat) :
    position (p ++ q) (p.length + i) = (instructions p).length + position q i := by
  have hleft : position (p ++ q) p.length = position p p.length :=
    position_append_left (Nat.le_refl _)
  unfold position at hleft ⊢
  rw [before_add, List.length_append, hleft, length_instructions, position]
  simp only [instruction?_append_right]

end Append

/-! ## Names of labels -/

/-- The names that a part of a source defines as labels. -/
def labelNames (lines : List String) : List String :=
  (labels lines).map Located.item

section Names

variable {p q lines : List String} {name : String}

theorem mem_labelNames : name ∈ labelNames lines ↔ ∃ i, label? lines i = some name := by
  simp only [labelNames, List.mem_map, mem_labels]
  constructor
  · rintro ⟨l, hl, rfl⟩
    exact ⟨l.line, hl⟩
  · rintro ⟨i, hi⟩
    exact ⟨⟨i, name⟩, hi, rfl⟩

theorem labelNames_append (p q : List String) :
    labelNames (p ++ q) = labelNames p ++ labelNames q := by
  unfold labelNames
  rw [labels_append, List.map_append, List.map_map]
  rfl

theorem isVariable_iff :
    IsVariable lines name ↔
      name ∉ Memory.predefined.map Prod.fst ∧ name ∉ labelNames lines := by
  refine and_congr_right fun _ => ?_
  rw [definition?_eq_none_iff, mem_labelNames, not_exists]
  constructor
  · intro h i hi
    exact h i (lt_length_of_label? hi) hi
  · exact fun h i _ => h i

/-! ## Addresses -/

theorem lookup_predefined_eq_none (h : name ∉ Memory.predefined.map Prod.fst) :
    Memory.predefined.lookup name = none := by
  cases hlookup : Memory.predefined.lookup name with
  | none => rfl
  | some a => exact absurd (List.mem_map_of_mem (Memory.mem_predefined_of_lookup hlookup)) h

theorem address_of_predefined {a : Word} (h : Memory.predefined.lookup name = some a) :
    address lines name = a.toNat := by
  simp only [address, h]

theorem WellLabelled.address_of_label (h : WellLabelled lines) {i : Nat}
    (hi : label? lines i = some name) : address lines name = position lines i := by
  have hlookup := lookup_predefined_eq_none (h.label_free i name hi)
  have hdefinition : definition? lines lines.length name = some i := by
    refine definition?_eq_some_iff.mpr ⟨lt_length_of_label? hi, hi, fun j hlt hj => ?_⟩
    exact Nat.ne_of_lt hlt (h.label_once j i name hj hi)
  simp only [address, hlookup, hdefinition]

theorem address_of_variable (h : IsVariable lines name) :
    address lines name = 16 + (variablesBefore lines name).length := by
  simp only [address, lookup_predefined_eq_none h.1, h.2]

/-- A name is predefined, a label or a variable. -/
theorem exists_lookup_or_label_or_isVariable (lines : List String) (name : String) :
    (∃ a, Memory.predefined.lookup name = some a) ∨ (∃ i, label? lines i = some name) ∨
      IsVariable lines name := by
  cases hlookup : Memory.predefined.lookup name with
  | some a => exact .inl ⟨a, rfl⟩
  | none =>
    by_cases hlabel : name ∈ labelNames lines
    · exact .inr (.inl (mem_labelNames.mp hlabel))
    · exact .inr (.inr (isVariable_iff.mpr ⟨Memory.not_mem_of_lookup_eq_none hlookup, hlabel⟩))

end Names

end Source

end HackAssembler
