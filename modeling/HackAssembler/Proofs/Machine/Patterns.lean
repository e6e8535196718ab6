-- SUMMARY: The words of compute instructions, spelled out digit by digit.
import HackAssembler.Proofs.Machine.Words

/-!
# Patterns of compute instructions

In binary, a compute instruction is laid out as `111 a c1 c2 c3 c4 c5 c6 d1 d2 d3 j1 j2 j3`. Here
each group of digits is spelled out by itself: those of the computation from a table, one digit for
each register that is written, and one for each sign of the result on which the jump is taken. The
encoder joins fields of bits instead. Both come to the same word, as long as the destination has
registers only.
-/

namespace HackAssembler

/-! ## Digits -/

/-- The digit that selects the second input of the arithmetic unit. -/
def Input.selector : Input → String
  | .a => "0"
  | .m => "1"

/-- The digits `a c1 c2 c3 c4 c5 c6` of a computation. -/
def Computation.pattern : Computation → String
  | zero => "0101010"
  | one => "0111111"
  | minusOne => "0111010"
  | d => "0001100"
  | notD => "0001101"
  | negD => "0001111"
  | dPlusOne => "0011111"
  | dMinusOne => "0001110"
  | y i => i.selector ++ "110000"
  | notY i => i.selector ++ "110001"
  | negY i => i.selector ++ "110011"
  | yPlusOne i => i.selector ++ "110111"
  | yMinusOne i => i.selector ++ "110010"
  | dPlusY i => i.selector ++ "000010"
  | dMinusY i => i.selector ++ "010011"
  | yMinusD i => i.selector ++ "000111"
  | dAndY i => i.selector ++ "000000"
  | dOrY i => i.selector ++ "010101"

/-- The digits `d1 d2 d3` of a destination: whether `A`, `D` and `M` are written. -/
def Destination.pattern (r : Destination) : List Char :=
  [r.a, r.d, r.m].map Word.digit

/-- Whether a jump is taken on a given result. -/
def Jump.taken : Jump → Int → Bool
  | never, _ => false
  | gt, result => 0 < result
  | eq, result => result = 0
  | ge, result => 0 ≤ result
  | lt, result => result < 0
  | ne, result => result ≠ 0
  | le, result => result ≤ 0
  | always, _ => true

/-- Only the sign of the result counts, so three results tell all about a jump. -/
theorem Jump.taken_sign (j : Jump) (result : Int) : j.taken result.sign = j.taken result := by
  cases j <;> simp [taken]

/-- The digits `j1 j2 j3` of a jump: whether it is taken on results below zero, on zero, and above. -/
def Jump.pattern (j : Jump) : List Char :=
  [-1, 0, 1].map fun result => Word.digit (j.taken result)

/-- The digits of a compute instruction. -/
def Instruction.pattern (dest : Destination) (comp : Computation) (jump : Jump) : List Char :=
  ['1', '1', '1'] ++ comp.pattern.toList ++ dest.pattern ++ jump.pattern

/-! ## Spelling -/

/-- A row of digits spells bits: there are as many of both, and they make the same number. -/
structure Spells {n : Nat} (digits : List Char) (b : BitVec n) : Prop where
  length_eq : digits.length = n
  value_eq : Nat.ofDigitChars 2 digits 0 = b.toNat

/-- A number in front of some digits is shifted by their count. -/
theorem ofDigitChars_two_eq (digits : List Char) (start : Nat) :
    Nat.ofDigitChars 2 digits start =
      start <<< digits.length + Nat.ofDigitChars 2 digits 0 := by
  induction digits generalizing start with
  | nil => simp
  | cons c digits ih =>
    rw [Nat.ofDigitChars_cons, Nat.ofDigitChars_cons, ih, ih (2 * 0 + _), List.length_cons,
      Nat.shiftLeft_eq, Nat.shiftLeft_eq, Nat.shiftLeft_eq, Nat.pow_succ', Nat.mul_zero,
      Nat.zero_add, Nat.add_mul, Nat.mul_comm 2 start, Nat.mul_assoc, Nat.add_assoc]

theorem Spells.append {m n : Nat} {high low : List Char} {a : BitVec m} {b : BitVec n}
    (ha : Spells high a) (hb : Spells low b) : Spells (high ++ low) (a ++ b) where
  length_eq := by rw [List.length_append, ha.length_eq, hb.length_eq]
  value_eq := by
    rw [Nat.ofDigitChars_append, ofDigitChars_two_eq, ha.value_eq, hb.value_eq, hb.length_eq,
      BitVec.toNat_append, Nat.shiftLeft_add_eq_or_of_lt b.isLt]

theorem Computation.spells_pattern (c : Computation) : Spells c.pattern.toList c.bits := by
  cases c <;> try cases ‹Input›
  all_goals exact ⟨by decide, by decide⟩

theorem spells_digit (b : Bool) : Spells [Word.digit b] (BitVec.ofBool b) := by
  cases b <;> exact ⟨by decide, by decide⟩

theorem Destination.spells_pattern (r : Destination) : Spells r.pattern r.bits :=
  ((spells_digit r.a).append (spells_digit r.d)).append (spells_digit r.m)

theorem Jump.spells_pattern (j : Jump) : Spells j.pattern j.bits := by
  cases j <;> exact ⟨by decide, by decide⟩

/-- The word of a compute instruction is the one that its digits spell. -/
theorem Instruction.spells_encode {dest : Destination} (h : dest.other = 0) (comp : Computation)
    (jump : Jump) : Spells (pattern dest comp jump) (compute dest comp jump).encode := by
  have hones : Spells ['1', '1', '1'] 0b111#3 := ⟨by decide, by decide⟩
  rw [encode_compute h]
  exact ((hones.append comp.spells_pattern).append dest.spells_pattern).append jump.spells_pattern

example : Instruction.pattern { d := true, m := true } (.yMinusOne .a) .never =
    "1110110010011000".toList := by
  decide

end HackAssembler
