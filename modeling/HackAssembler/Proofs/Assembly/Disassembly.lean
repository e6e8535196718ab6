-- SUMMARY: Words printed as instructions and assembled again: when they come back, and what is reported otherwise.
import HackAssembler.Proofs.Assembly.Specification
import HackAssembler.Proofs.Source.Printing

/-!
# Disassembly

Words that decode can be printed as a source, with an instruction on each line. The source
has no names in it, so nothing can go wrong with its labels and variables: it assembles to
the same words unless one of them decodes to a bare instruction. Then just the lines of the
bare instructions are reported.
-/

namespace HackAssembler

namespace Source

/-! ## What is found on each of a list of lines -/

/-- What is found at each place tells of the element there and of its number. -/
theorem before_eq_filterMap_zipIdx {α β : Type} {l : List α} {item? : Nat → Option β}
    {f : α × Nat → Option β} (h : ∀ n, item? n = l[n]?.bind fun a => f (a, n)) :
    before item? l.length = l.zipIdx.filterMap f := by
  obtain rfl : item? = fun n => l[n]?.bind fun a => f (a, n) := funext h
  clear h
  -- from the back: the last element has the length of the rest as its number
  induction l using List.reverseRecOn with
  | nil => rfl
  | append_singleton l a ih =>
    have hinit : before (fun n => (l ++ [a])[n]?.bind fun a => f (a, n)) l.length =
        before (fun n => l[n]?.bind fun a => f (a, n)) l.length := by
      apply List.filterMap_congr
      intro n hn
      rw [List.getElem?_append_left (List.mem_range.mp hn)]
    rw [List.length_append, List.length_singleton, before_succ, hinit, ih, List.zipIdx_append,
      List.filterMap_append]
    cases hf : f (a, l.length) <;> simp [hf]

/-! ## Printed sources -/

/-- The lines of printed instructions. -/
def printed (instructions : List Instruction) : List String :=
  instructions.map Instruction.text

theorem length_printed (instructions : List Instruction) :
    (printed instructions).length = instructions.length :=
  List.length_map _

section Printed

variable {is : List Instruction} (h : ∀ i ∈ is, i.Encodable)

include h

theorem lines_printed : Text.lines (Text.ofRows (printed is)) = printed is := by
  refine Text.lines_ofRows fun row hrow => ?_
  obtain ⟨i, hi, rfl⟩ := List.mem_map.mp hrow
  exact (Instruction.plain_text (h i hi)).row

theorem statement?_printed (n : Nat) :
    statement? (printed is) n = is[n]?.map fun i =>
      if i.IsBare then .error (.malformedCompute i.text) else .ok (.code i.code) := by
  unfold statement? printed
  rw [List.getElem?_map]
  cases hi : is[n]? with
  | none => rfl
  | some i =>
    have hencodable := h i (List.mem_of_getElem? hi)
    simp [Line.normalize_of_plain (Instruction.plain_text hencodable),
      Instruction.text_ne_empty, Instruction.parse_text hencodable]

theorem label?_printed (n : Nat) : label? (printed is) n = none := by
  unfold label?
  rw [statement?_printed h]
  cases is[n]? with
  | none => rfl
  | some i => by_cases hbare : i.IsBare <;> simp [hbare]

theorem instruction?_printed (n : Nat) :
    instruction? (printed is) n =
      is[n]?.bind fun i => if i.IsBare then none else some i.code := by
  unfold instruction?
  rw [statement?_printed h]
  cases is[n]? with
  | none => rfl
  | some i => by_cases hbare : i.IsBare <;> simp [hbare]

theorem fault?_printed (n : Nat) :
    fault? (printed is) n =
      is[n]?.bind fun i => if i.IsBare then some (.malformedCompute i.text) else none := by
  unfold fault?
  rw [statement?_printed h]
  cases is[n]? with
  | none => rfl
  | some i => by_cases hbare : i.IsBare <;> simp [hbare]

/-- The report on a printed source: the lines of its bare instructions, with their texts. -/
theorem faults_printed :
    faults (printed is) = is.zipIdx.filterMap fun (i, n) =>
      if i.IsBare then some ⟨n, .malformedCompute i.text⟩ else none := by
  rw [faults, length_printed]
  refine before_eq_filterMap_zipIdx fun n => ?_
  rw [fault?_printed h]
  cases is[n]? with
  | none => rfl
  | some i => by_cases hbare : i.IsBare <;> simp [hbare]

theorem instructions_printed :
    instructions (printed is) = is.zipIdx.filterMap fun (i, n) =>
      if i.IsBare then none else some ⟨n, i.code⟩ := by
  rw [instructions, length_printed]
  refine before_eq_filterMap_zipIdx fun n => ?_
  rw [instruction?_printed h]
  cases is[n]? with
  | none => rfl
  | some i => by_cases hbare : i.IsBare <;> simp [hbare]

theorem references_printed : references (printed is) = [] := by
  rw [references, instructions_printed h, List.filterMap_filterMap, List.filterMap_eq_nil_iff]
  rintro ⟨i, n⟩ -
  by_cases hbare : i.IsBare <;> simp [hbare, Instruction.symbol?_code]

theorem faults_printed_eq_nil_iff : faults (printed is) = [] ↔ ∀ i ∈ is, ¬ i.IsBare := by
  rw [faults_printed h, List.filterMap_eq_nil_iff]
  constructor
  · intro hall i hi
    obtain ⟨n, hn⟩ := List.mem_iff_getElem?.mp hi
    simpa using hall (i, n) (List.mem_zipIdx_iff_getElem?.mpr hn)
  · rintro hall ⟨i, n⟩ hi
    exact if_neg (hall i (List.mem_of_getElem? (List.mem_zipIdx_iff_getElem?.mp hi)))

end Printed

end Source

/-! ## Assembling -/

/-- An instruction without names means its own word in any source. -/
theorem Source.word_code (lines : List String) {i : Instruction} (h : i.Encodable) :
    word lines i.code = i.encode.toNat := by
  cases i with
  | address value => rfl
  | compute dest comp jump => exact (Instruction.spells_encode h comp jump).value_eq

section Assemble

open Source

variable {is : List Instruction} (h : ∀ i ∈ is, i.Encodable)

include h

theorem Assembly.Holds.words_printed {a : Assembly} (ha : a.Holds (printed is))
    (hbare : ∀ i ∈ is, ¬ i.IsBare) : a.words = is.map Instruction.encode := by
  have hmeaning : (Source.instructions (printed is)).map (fun c => word (printed is) c.item) =
      is.zipIdx.map fun e => e.1.encode.toNat := by
    rw [instructions_printed h, List.map_filterMap, ← List.filterMap_eq_map]
    refine List.filterMap_congr fun e he => ?_
    have hi : e.1 ∈ is := List.mem_of_getElem? (List.mem_zipIdx_iff_getElem?.mp he)
    simp [hbare e.1 hi, word_code _ (h e.1 hi)]
  have hfirst : (is.zipIdx.map Prod.fst).map (BitVec.toNat ∘ Instruction.encode) =
      is.map (BitVec.toNat ∘ Instruction.encode) := by
    rw [List.zipIdx_map_fst]
  -- the meaning tells the words as numbers, so the two lists are compared as such
  have hnumbers : a.words.map BitVec.toNat = (is.map Instruction.encode).map BitVec.toNat := by
    rw [ha.words_eq, hmeaning, List.map_map, ← hfirst, List.map_map]
    rfl
  exact List.map_injective_iff.mpr (fun _ _ => BitVec.eq_of_toNat_eq) hnumbers

theorem Assembly.Holds.symbols_printed {a : Assembly} (ha : a.Holds (printed is)) :
    a.symbols = .initial := by
  refine ha.invariant.eq_of_entries_eq SymbolTable.invariant_initial ?_
  have hlabels : labels (printed is) = [] := by
    simp [labels, before, label?_printed h]
  have hvariables : variableNames (printed is) = [] := by
    simp [variableNames, references_printed h]
  rw [ha.entries_eq, hlabels, hvariables]
  simp

theorem exists_assembleLines_printed (hbare : ∀ i ∈ is, ¬ i.IsBare) :
    ∃ a, assembleLines (printed is) = .ok a ∧ a.words = is.map Instruction.encode ∧
      a.symbols = .initial := by
  have hlabelled : WellLabelled (printed is) :=
    faults_eq_nil_iff.mp ((faults_printed_eq_nil_iff h).mpr hbare)
  have hfit : (variableNames (printed is)).length ≤ 32752 := by
    simp [variableNames, references_printed h]
  obtain ⟨a, ha⟩ := exists_assembleLines ⟨hlabelled, hfit⟩
  have hholds : a.Holds (printed is) := Assembly.holds_of_assembleLines ha
  exact ⟨a, ha, hholds.words_printed h hbare, hholds.symbols_printed h⟩

theorem assembleLines_printed_of_bare (hbare : ∃ i ∈ is, i.IsBare) :
    assembleLines (printed is) = .error (is.zipIdx.filterMap fun (i, n) =>
      if i.IsBare then some ⟨n, .malformedCompute i.text⟩ else none) := by
  have hfaults : faults (printed is) ≠ [] := by
    rw [Ne, faults_printed_eq_nil_iff h]
    simpa using hbare
  rw [assembleLines_eq, Program.ofLines_eq, if_neg hfaults, faults_printed h]
  rfl

end Assemble

/-- Words that decode are printed as a source that assembles to them, without any name of its own,
unless an instruction among them is bare. If there are bare ones, they are what is reported. -/
theorem assemble_disassembly {words : List Word} {instructions : List Instruction}
    (h : words.map Instruction.decode? = instructions.map some) :
    let source := Text.ofRows (instructions.map Instruction.text)
    ((∀ i ∈ instructions, ¬ i.IsBare) →
      ∃ a, assemble source = .ok a ∧ a.words = words ∧ a.symbols = .initial) ∧
    ((∃ i ∈ instructions, i.IsBare) →
      assemble source = .error (instructions.zipIdx.filterMap fun (i, line) =>
        if i.IsBare then some ⟨line, .malformedCompute i.text⟩ else none)) := by
  obtain ⟨hencodable, rfl⟩ := Instruction.map_decode?_eq_iff.mp h
  intro source
  have hlines : Text.lines source = Source.printed instructions := Source.lines_printed hencodable
  unfold assemble
  rw [hlines]
  exact ⟨exists_assembleLines_printed hencodable, assembleLines_printed_of_bare hencodable⟩

/-- Three words that come back, and three of which the second computes zero and does nothing with it. It
is printed as `0`, which is refused, although `0;null` would be read as the same instruction. -/
theorem assemble_disassembly_zero :
    (∃ a, assemble "@7\nD=A\n0;JMP\n" = .ok a ∧ a.words = [0x0007, 0xEC10, 0xEA87] ∧
      a.symbols = .initial) ∧
    assemble "@7\n0\n0;JMP\n" = .error [⟨1, .malformedCompute "0"⟩] := by
  have hsound : [0x0007, 0xEC10, 0xEA87].map Instruction.decode? =
      [.address 7, .compute { d := true } (.y .a) .never, .compute .empty .zero .always].map
        some := by
    decide
  have hbare : [0x0007, 0xEA80, 0xEA87].map Instruction.decode? =
      [.address 7, .compute .empty .zero .never, .compute .empty .zero .always].map some := by
    decide
  exact ⟨(assemble_disassembly hsound).1 (by decide), (assemble_disassembly hbare).2 (by decide)⟩

end HackAssembler
