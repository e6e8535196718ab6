-- SUMMARY: The registers that a compute instruction writes: letters, bits and the way back from each.
import HackAssembler.Machine.Mnemonic

/-!
# Destinations

The result of a computation goes to any set of the registers `A` and `D` and the
memory cell `M`. The letters of a set may be written in any order, each at most
once. They are printed in the order `A`, `D`, `M`, which is also the order of the
bits from the highest down. The empty set is written `null`.

Structured data may set further bits, which stand for no register. They have no letter,
and no mnemonic sets them, but a destination that has one is not empty.
-/

namespace HackAssembler

/-- A set of registers that take the result of a computation. -/
structure Destination where
  a : Bool := false
  d : Bool := false
  m : Bool := false
  /-- The bits above those of the registers. -/
  other : BitVec 5 := 0
  deriving DecidableEq, Repr

namespace Destination

/-- The destination of a result that is thrown away. -/
def empty : Destination := {}

def isEmpty (r : Destination) : Bool :=
  r = empty

/-! ## Text -/

/-- The letters of a destination, in printing order. -/
def letters (r : Destination) : List Char :=
  (if r.a then ['A'] else []) ++ (if r.d then ['D'] else []) ++ (if r.m then ['M'] else [])

/-- The mnemonic of a destination. -/
def text (r : Destination) : String :=
  if r.isEmpty then "null" else String.ofList r.letters

/-- Add the register that a letter stands for. A register that is there already is refused. -/
def add? (r : Destination) : Char → Option Destination
  | 'A' => if r.a then none else some { r with a := true }
  | 'D' => if r.d then none else some { r with d := true }
  | 'M' => if r.m then none else some { r with m := true }
  | _ => none

/-- Read a mnemonic. -/
def parse (s : String) : Except MnemonicError Destination :=
  if s = "null" then .ok empty
  else if s = "" then .error (.empty .dest)
  else match s.toList.foldlM add? empty with
    | some r => .ok r
    | none => .error (.unknown .dest s)

/-! ## Bits -/

/-- The three bits of the registers of a destination. -/
def bits (r : Destination) : BitVec 3 :=
  BitVec.ofBool r.a ++ BitVec.ofBool r.d ++ BitVec.ofBool r.m

/-- The destination with the given bits. Every pattern is one. -/
def ofBits (b : BitVec 3) : Destination :=
  { a := b.getLsbD 2, d := b.getLsbD 1, m := b.getLsbD 0 }

/-- The destination whose bits read as the number `n`. -/
def ofNat? (n : Nat) : Option Destination :=
  if n < 8 then some (ofBits (BitVec.ofNat 3 n)) else none

/-- The destination in the low three bits of the number `n`. -/
def ofNatTruncated (n : Nat) : Destination :=
  ofBits (BitVec.ofNat 3 n)

@[simp] theorem ofBits_bits {r : Destination} (h : r.other = 0) : ofBits r.bits = r := by
  obtain ⟨a, d, m, other⟩ := r
  subst h
  cases a <;> cases d <;> cases m <;> decide

@[simp] theorem bits_ofBits (b : BitVec 3) : (ofBits b).bits = b := by
  revert b
  decide

end Destination

end HackAssembler
