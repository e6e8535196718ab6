-- SUMMARY: The jump conditions of a compute instruction: mnemonics, bits and the way back from each.
import HackAssembler.Machine.Mnemonic

/-!
# Jumps

A compute instruction may jump, depending on the sign of its result. The three
bits of a condition stand for less than zero, zero, and greater than zero, so each
of the eight patterns is a condition.
-/

namespace HackAssembler

/-- When a compute instruction jumps. -/
inductive Jump where
  | never
  | gt
  | eq
  | ge
  | lt
  | ne
  | le
  | always
  deriving DecidableEq, Repr

namespace Jump

/-- Every condition, in the order of its bits. -/
def all : List Jump :=
  [never, gt, eq, ge, lt, ne, le, always]

theorem mem_all (j : Jump) : j ∈ all := by
  cases j <;> decide

/-! ## Text -/

/-- The mnemonic of a condition. -/
def text : Jump → String
  | never => "null"
  | gt => "JGT"
  | eq => "JEQ"
  | ge => "JGE"
  | lt => "JLT"
  | ne => "JNE"
  | le => "JLE"
  | always => "JMP"

/-- The name of a condition in structured data. -/
def name : Jump → String
  | never => "Null"
  | j => j.text

/-- Read a mnemonic. -/
def parse (s : String) : Except MnemonicError Jump :=
  match all.find? (·.text = s) with
  | some j => .ok j
  | none => .error (.unknown .jump s)

/-- The condition of a given name in structured data. -/
def ofName? (s : String) : Option Jump :=
  all.find? (·.name = s)

/-! ## Bits -/

/-- The three bits of a condition: jump if less than, equal to, greater than zero. -/
def bits : Jump → BitVec 3
  | never => 0b000
  | gt => 0b001
  | eq => 0b010
  | ge => 0b011
  | lt => 0b100
  | ne => 0b101
  | le => 0b110
  | always => 0b111

/-- The condition with the given bits. Every pattern is one. -/
def ofBits (b : BitVec 3) : Jump :=
  if b.getLsbD 2 then
    if b.getLsbD 1 then (if b.getLsbD 0 then always else le)
    else (if b.getLsbD 0 then ne else lt)
  else
    if b.getLsbD 1 then (if b.getLsbD 0 then ge else eq)
    else (if b.getLsbD 0 then gt else never)

/-- The condition whose bits read as the number `n`. -/
def ofNat? (n : Nat) : Option Jump :=
  all[n]?

@[simp] theorem ofBits_bits (j : Jump) : ofBits j.bits = j := by
  cases j <;> decide

@[simp] theorem bits_ofBits (b : BitVec 3) : (ofBits b).bits = b := by
  revert b
  decide

end Jump

end HackAssembler
