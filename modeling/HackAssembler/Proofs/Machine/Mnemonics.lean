-- SUMMARY: Which texts are mnemonics of the three fields, what they stand for, and their characters.
import Mathlib.Data.List.Induction
import Mathlib.Data.List.Nodup
import HackAssembler.Machine.Computation
import HackAssembler.Machine.Destination
import HackAssembler.Machine.Jump

/-!
# Mnemonics and what they stand for

A computation and a jump condition have one mnemonic each. A destination has as many as its
letters can be ordered, and the empty one is written out. Each reader takes exactly these
texts. All of them are made of a few characters, none of which stands between the fields of
an instruction or starts another kind of statement.
-/

namespace HackAssembler

/-! ## Computations -/

namespace Computation

theorem parse_text (c : Computation) : parse c.text = .ok c := by
  have hall : ∀ c ∈ all, parse c.text = .ok c := by decide +kernel
  exact hall c c.mem_all

theorem parse_eq_ok_iff {s : String} {c : Computation} : parse s = .ok c ↔ s = c.text := by
  constructor
  · intro h
    unfold parse at h
    split at h
    · rename_i found hfound
      obtain rfl := Except.ok.inj h
      obtain ⟨before, after, heq, -⟩ := List.lookup_eq_some_iff.mp hfound
      have hmem : (s, found) ∈ mnemonics := by simp [heq]
      obtain ⟨other, -, hother⟩ := List.mem_map.mp hmem
      obtain ⟨rfl, rfl⟩ := Prod.mk.inj hother
      rfl
    · cases h
  · rintro rfl
    exact parse_text c

example : Computation.all.map text =
    ["0", "1", "-1", "D", "!D", "-D", "D+1", "D-1",
     "A", "!A", "-A", "A+1", "A-1", "D+A", "D-A", "A-D", "D&A", "D|A",
     "M", "!M", "-M", "M+1", "M-1", "D+M", "D-M", "M-D", "D&M", "D|M"] := by decide

end Computation

/-! ## Jumps -/

namespace Jump

theorem parse_text (j : Jump) : parse j.text = .ok j := by
  cases j <;> decide

theorem parse_eq_ok_iff {s : String} {j : Jump} : parse s = .ok j ↔ s = j.text := by
  constructor
  · intro h
    unfold parse at h
    split at h
    · rename_i found hfound
      obtain rfl := Except.ok.inj h
      simpa [eq_comm] using List.find?_some hfound
    · cases h
  · rintro rfl
    exact parse_text j

theorem text_injective {i j : Jump} (h : i.text = j.text) : i = j :=
  Except.ok.inj ((parse_text i).symm.trans (parse_eq_ok_iff.mpr h))

end Jump

/-! ## Destinations -/

namespace Destination

/-- The registers with letters in a list. -/
def ofLetters (s : List Char) : Destination :=
  { a := 'A' ∈ s, d := 'D' ∈ s, m := 'M' ∈ s }

/-- Letters of registers, none of them twice. -/
structure Distinct (s : List Char) : Prop where
  nodup : s.Nodup
  letter : ∀ c ∈ s, c ∈ ['A', 'D', 'M']

/-- How a destination may be written. -/
inductive Written : Destination → String → Prop where
  | null : Written empty "null"
  | letters {s : List Char} (hne : s ≠ []) (hs : Distinct s) :
      Written (ofLetters s) (String.ofList s)

/-- One more letter is taken in exactly if it is one and has not been read before. -/
theorem add?_ofLetters_eq_some_iff {s : List Char} {c : Char} {r : Destination} :
    (ofLetters s).add? c = some r ↔
      (c ∈ ['A', 'D', 'M'] ∧ c ∉ s) ∧ r = ofLetters (s ++ [c]) := by
  unfold add?
  split
  · by_cases h : 'A' ∈ s <;> simp [ofLetters, h, eq_comm]
  · by_cases h : 'D' ∈ s <;> simp [ofLetters, h, eq_comm]
  · by_cases h : 'M' ∈ s <;> simp [ofLetters, h, eq_comm]
  · rename_i hA hD hM
    have hletter : c ∉ ['A', 'D', 'M'] := by simpa using ⟨hA, hD, hM⟩
    simp only [reduceCtorEq, hletter, false_and]

theorem distinct_concat_iff {s : List Char} {c : Char} :
    Distinct (s ++ [c]) ↔ Distinct s ∧ c ∈ ['A', 'D', 'M'] ∧ c ∉ s := by
  constructor
  · rintro ⟨hnodup, hletter⟩
    rw [← List.concat_eq_append, List.nodup_concat] at hnodup
    exact ⟨⟨hnodup.2, fun d hd => hletter d (by simp [hd])⟩, hletter c (by simp), hnodup.1⟩
  · rintro ⟨⟨hnodup, hletter⟩, hc, hnew⟩
    refine ⟨?_, ?_⟩
    · rw [← List.concat_eq_append]
      exact hnodup.concat hnew
    · intro d hd
      rcases List.mem_append.mp hd with hd | hd
      · exact hletter d hd
      · exact List.mem_singleton.mp hd ▸ hc

/-- After any number of letters, the reader holds the set of those that it has read. -/
theorem foldlM_add?_eq_some_iff {s : List Char} {r : Destination} :
    s.foldlM add? empty = some r ↔ Distinct s ∧ r = ofLetters s := by
  induction s using List.reverseRecOn generalizing r with
  | nil =>
    have hnil : Distinct [] := ⟨List.nodup_nil, by simp⟩
    simp [hnil, empty, ofLetters, eq_comm]
  | append_singleton s c ih =>
    have hstep : (s ++ [c]).foldlM add? empty = (s.foldlM add? empty).bind (add? · c) := by
      simp [List.foldlM_append, bind]
    rw [hstep, Option.bind_eq_some_iff, distinct_concat_iff]
    constructor
    · rintro ⟨q, hq, hr⟩
      obtain ⟨hs, rfl⟩ := ih.mp hq
      obtain ⟨hc, rfl⟩ := add?_ofLetters_eq_some_iff.mp hr
      exact ⟨⟨hs, hc⟩, rfl⟩
    · rintro ⟨⟨hs, hc⟩, rfl⟩
      exact ⟨ofLetters s, ih.mpr ⟨hs, rfl⟩, add?_ofLetters_eq_some_iff.mpr ⟨hc, rfl⟩⟩

theorem Distinct.ofList_ne_null {s : List Char} (h : Distinct s) : String.ofList s ≠ "null" := by
  intro heq
  have hn : 'n' ∈ (String.ofList s).toList := heq ▸ by decide
  rw [String.toList_ofList] at hn
  exact absurd (h.letter 'n' hn) (by decide)

theorem Written.of_letters {s : String} (hne : s ≠ "") (hs : Distinct s.toList) :
    Written (ofLetters s.toList) s := by
  have hletters : Written (ofLetters s.toList) (String.ofList s.toList) :=
    .letters (mt String.toList_eq_nil_iff.mp hne) hs
  rwa [String.ofList_toList] at hletters

theorem parse_eq_ok_iff {s : String} {r : Destination} : parse s = .ok r ↔ Written r s := by
  constructor
  · intro h
    unfold parse at h
    split at h
    · rename_i hnull
      obtain rfl := Except.ok.inj h
      exact hnull ▸ .null
    · split at h
      · cases h
      · rename_i hne
        split at h
        · rename_i found hfound
          obtain rfl := Except.ok.inj h
          obtain ⟨hs, rfl⟩ := foldlM_add?_eq_some_iff.mp hfound
          exact .of_letters hne hs
        · cases h
  · intro h
    cases h with
    | null => rfl
    | @letters s hne hs =>
      have hread : s.foldlM add? empty = some (ofLetters s) :=
        foldlM_add?_eq_some_iff.mpr ⟨hs, rfl⟩
      have hempty : String.ofList s ≠ "" := by simpa using hne
      simp only [parse, if_neg hs.ofList_ne_null, if_neg hempty, String.toList_ofList, hread]

theorem Written.unique {s : String} {r q : Destination} (hr : Written r s) (hq : Written q s) :
    r = q :=
  Except.ok.inj ((parse_eq_ok_iff.mpr hr).symm.trans (parse_eq_ok_iff.mpr hq))

end Destination

/-! ## Characters -/

namespace Mnemonic

/-- The characters that mnemonics are made of. -/
def alphabet : List Char :=
  ['0', '1', 'A', 'D', 'M', '!', '-', '+', '&', '|', 'J', 'G', 'T', 'E', 'Q', 'L', 'N', 'P',
    'n', 'u', 'l']

/-- A text that could be a mnemonic, as far as its characters tell. -/
structure Formed (s : String) : Prop where
  ne_empty : s ≠ ""
  mem_alphabet : ∀ c ∈ s.toList, c ∈ alphabet

theorem formed_iff {s : String} : Formed s ↔ s ≠ "" ∧ s.toList.all (· ∈ alphabet) = true := by
  simp only [List.all_eq_true, decide_eq_true_eq]
  exact ⟨fun h => ⟨h.ne_empty, h.mem_alphabet⟩, fun h => ⟨h.1, h.2⟩⟩

instance (s : String) : Decidable (Formed s) :=
  decidable_of_iff _ formed_iff.symm

theorem Formed.not_mem {s : String} (h : Formed s) {c : Char} (hc : c ∉ alphabet) :
    c ∉ s.toList :=
  mt (h.mem_alphabet c) hc

theorem formed_computation (c : Computation) : Formed c.text := by
  have hall : ∀ c ∈ Computation.all, Formed c.text := by decide +kernel
  exact hall c c.mem_all

theorem formed_jump (j : Jump) : Formed j.text := by
  have hall : ∀ j ∈ Jump.all, Formed j.text := by decide +kernel
  exact hall j j.mem_all

theorem formed_destination {r : Destination} {s : String} (h : r.Written s) : Formed s := by
  cases h with
  | null => decide +kernel
  | @letters s hne hs =>
    refine ⟨by simpa using hne, ?_⟩
    intro c hc
    rw [String.toList_ofList] at hc
    have hsub : ['A', 'D', 'M'] ⊆ alphabet := by decide
    exact hsub (hs.letter c hc)

end Mnemonic

end HackAssembler
