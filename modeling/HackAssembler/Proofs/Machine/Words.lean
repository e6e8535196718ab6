-- SUMMARY: Words and instructions: which instructions words decode to, and words written in binary.
import HackAssembler.Machine.Instruction
import HackAssembler.Text.Numeral

/-!
# Words and instructions

Not every instruction of the type has a word of its own: the word of an address instruction
must be an address, and a destination must have registers only. These are the instructions
that words decode to, and on them encoding and decoding undo each other. A word is written
in binary with the digits of its number, so nothing is lost there either.
-/

namespace HackAssembler

/-! ## Fields of a word -/

namespace Word

section Fields

variable (top : BitVec 3) (comp : BitVec 7) (dest jump : BitVec 3)

theorem extract_top : (top ++ comp ++ dest ++ jump).extractLsb' 13 3 = top := by
  rw [BitVec.extractLsb'_append_eq_of_le (by omega), BitVec.extractLsb'_append_eq_of_le (by omega),
    BitVec.extractLsb'_append_eq_left]

theorem extract_comp : (top ++ comp ++ dest ++ jump).extractLsb' 6 7 = comp := by
  rw [BitVec.extractLsb'_append_eq_of_le (by omega), BitVec.extractLsb'_append_eq_of_le (by omega),
    BitVec.extractLsb'_append_eq_right]

theorem extract_dest : (top ++ comp ++ dest ++ jump).extractLsb' 3 3 = dest := by
  rw [BitVec.extractLsb'_append_eq_of_le (by omega), BitVec.extractLsb'_append_eq_right]

theorem extract_jump : (top ++ comp ++ dest ++ jump).extractLsb' 0 3 = jump :=
  BitVec.extractLsb'_append_eq_right

theorem getMsbD_top {i : Nat} (hi : i < 3) :
    (top ++ comp ++ dest ++ jump).getMsbD i = top.getMsbD i := by
  rw [BitVec.getMsbD_append, if_neg (by omega), BitVec.getMsbD_append, if_neg (by omega),
    BitVec.getMsbD_append, if_neg (by omega)]

end Fields

theorem append_extracts (w : Word) :
    w.extractLsb' 13 3 ++ w.extractLsb' 6 7 ++ w.extractLsb' 3 3 ++ w.extractLsb' 0 3 = w := by
  rw [BitVec.extractLsb'_append_extractLsb'_eq_extractLsb' (by rfl),
    BitVec.extractLsb'_append_extractLsb'_eq_extractLsb' (by rfl),
    BitVec.extractLsb'_append_extractLsb'_eq_extractLsb' (by rfl)]
  exact BitVec.extractLsb'_eq_self

theorem msb_eq_false_iff {w : Word} : w.msb = false ↔ w ≤ Memory.maxAddress := by
  rw [BitVec.msb_eq_decide, decide_eq_false_iff_not, Memory.le_maxAddress_iff]
  omega

end Word

/-! ## Encoding and decoding -/

namespace Instruction

/-- An instruction that keeps to its own bits of a word. -/
def Encodable : Instruction → Prop
  | address value => value ≤ Memory.maxAddress
  | compute dest _ _ => dest.other = 0

theorem encode_compute {dest : Destination} (h : dest.other = 0) (comp : Computation) (jump : Jump) :
    (compute dest comp jump).encode = 0b111#3 ++ comp.bits ++ dest.bits ++ jump.bits := by
  simp [encode, h]

theorem getMsbD_encode_compute {dest : Destination} (h : dest.other = 0) (comp : Computation)
    (jump : Jump) {i : Nat} (hi : i < 3) : (compute dest comp jump).encode.getMsbD i = true := by
  have hones : ∀ i < 3, (0b111#3).getMsbD i = true := by decide
  rw [encode_compute h]
  exact (Word.getMsbD_top _ _ _ _ hi).trans (hones i hi)

theorem decode?_encode {i : Instruction} (h : i.Encodable) : decode? i.encode = some i := by
  cases i with
  | address value =>
    have hmsb : value.msb = false := Word.msb_eq_false_iff.mpr h
    simp [decode?, encode, hmsb]
  | compute dest comp jump =>
    have hother : dest.other = 0 := h
    have hmsb : (compute dest comp jump).encode.msb = true :=
      getMsbD_encode_compute hother comp jump (by omega)
    unfold decode?
    rw [hmsb, encode_compute hother, Word.extract_top, Word.extract_comp, Word.extract_dest,
      Word.extract_jump]
    simp [Destination.ofBits_bits hother]

theorem encodable_of_decode? {w : Word} {i : Instruction} (h : decode? w = some i) :
    i.Encodable ∧ i.encode = w := by
  unfold decode? at h
  split at h
  · rename_i hmsb
    obtain rfl := Option.some.inj h
    exact ⟨Word.msb_eq_false_iff.mp (by simpa using hmsb), rfl⟩
  · split at h
    · rename_i htop
      obtain ⟨comp, hcomp, rfl⟩ := Option.map_eq_some_iff.mp h
      have hbits : comp.bits = w.extractLsb' 6 7 := Computation.bits_of_ofBits? hcomp
      have hother : (Destination.ofBits (w.extractLsb' 3 3)).other = 0 := rfl
      refine ⟨hother, ?_⟩
      rw [encode_compute hother, hbits, Destination.bits_ofBits, Jump.bits_ofBits, ← htop]
      exact Word.append_extracts w
    · cases h

theorem decode?_eq_some_iff {w : Word} {i : Instruction} :
    decode? w = some i ↔ i.Encodable ∧ i.encode = w := by
  constructor
  · exact encodable_of_decode?
  · rintro ⟨hencodable, rfl⟩
    exact decode?_encode hencodable

/-- The lists of words that decode are those of the instructions that keep to their own bits. -/
theorem map_decode?_eq_iff {words : List Word} {instructions : List Instruction} :
    words.map decode? = instructions.map some ↔
      (∀ i ∈ instructions, i.Encodable) ∧ instructions.map encode = words := by
  induction words generalizing instructions with
  | nil =>
    cases instructions with
    | nil => simp
    | cons i instructions => simp
  | cons w words ih =>
    cases instructions with
    | nil => simp
    | cons i instructions =>
      simp only [List.map_cons, List.cons.injEq, decode?_eq_some_iff, ih, List.forall_mem_cons]
      exact and_and_and_comm

end Instruction

/-! ## Binary digits -/

namespace Word

theorem getMsbD_eq_testBit {w : Word} {i : Nat} (hi : i < 16) :
    w.getMsbD i = w.toNat.testBit (15 - i) := by
  rw [BitVec.testBit_toNat, BitVec.getMsbD, decide_eq_true hi, Bool.true_and]

/-- The binary digit of a bit. -/
def digit (b : Bool) : Char :=
  if b then '1' else '0'

theorem digit?_digit (b : Bool) : Text.Numeral.digit? 2 (digit b) = some b.toNat := by
  cases b <;> decide

theorem toList_binary (w : Word) :
    w.binary.toList = (List.range 16).map fun i => digit (w.getMsbD i) := by
  rw [binary, String.toList_ofList]
  apply List.ext_getElem
  · simp
  · intro i hi _
    have hlt : i < 16 := by simpa using hi
    have hbit : BitVec.getMsb w ⟨i, hlt⟩ = w.getMsbD i := by
      simp [BitVec.getMsb, BitVec.getMsbD, BitVec.getLsb, BitVec.getLsbD, hlt]
    simp only [List.getElem_ofFn, List.getElem_map, List.getElem_range, digit, hbit]

/-- The first digits of a word are the number that its high bits make. -/
theorem foldlM_digit (w : Word) {n : Nat} (hn : n ≤ 16) :
    ((List.range n).map fun i => digit (w.getMsbD i)).foldlM
      (fun value c => (Text.Numeral.digit? 2 c).map (2 * value + ·)) 0 =
        some (w.toNat >>> (16 - n)) := by
  induction n with
  | zero =>
    have hzero : w.toNat >>> 16 = 0 := by
      rw [Nat.shiftRight_eq_div_pow]
      exact Nat.div_eq_of_lt w.isLt
    simp [hzero]
  | succ n ih =>
    -- the number so far is doubled, and the next bit is what halving lost
    have hold : w.toNat >>> (16 - n) = w.toNat >>> (15 - n) / 2 := by
      rw [← Nat.shiftRight_succ]
      congr 1
      omega
    have hbit : (w.getMsbD n).toNat = w.toNat >>> (15 - n) % 2 := by
      rw [getMsbD_eq_testBit (by omega), Nat.toNat_testBit, Nat.shiftRight_eq_div_pow]
    have hnew : 2 * (w.toNat >>> (16 - n)) + (w.getMsbD n).toNat = w.toNat >>> (15 - n) := by
      rw [hold, hbit, Nat.div_add_mod]
    have hleft : 16 - (n + 1) = 15 - n := by omega
    rw [List.range_succ, List.map_append, List.foldlM_append, ih (by omega), hleft]
    simp [digit?_digit, hnew]

theorem ofText?_binary (w : Word) : Text.Numeral.ofText? 2 w.binary.toList = some w.toNat := by
  have hne : w.binary.toList ≠ [] := by simp [toList_binary]
  rw [Text.Numeral.ofText?, if_neg hne, toList_binary, foldlM_digit w (Nat.le_refl 16)]
  rfl

end Word

end HackAssembler
