-- SUMMARY: The computations of the arithmetic unit: mnemonics, control bits and the way back from each.
import HackAssembler.Machine.Mnemonic

/-!
# Computations

The arithmetic unit has two inputs. The first is the register `D`. The second,
called `y` here, is the register `A` or the memory cell that `A` points to. Six
control bits select what is computed, and a seventh bit in front of them selects
the second input. Computations that do not use `y` exist with that bit clear only,
which leaves twenty-eight.
-/

namespace HackAssembler

/-- What the second input of the arithmetic unit is connected to. -/
inductive Input where
  | a
  | m
  deriving DecidableEq, Repr

def Input.letter : Input → String
  | .a => "A"
  | .m => "M"

/-- What a compute instruction computes. -/
inductive Computation where
  | zero
  | one
  | minusOne
  | d
  | notD
  | negD
  | dPlusOne
  | dMinusOne
  | y (y : Input)
  | notY (y : Input)
  | negY (y : Input)
  | yPlusOne (y : Input)
  | yMinusOne (y : Input)
  | dPlusY (y : Input)
  | dMinusY (y : Input)
  | yMinusD (y : Input)
  | dAndY (y : Input)
  | dOrY (y : Input)
  deriving DecidableEq, Repr

namespace Computation

/-- Every computation, once. -/
def all : List Computation :=
  [zero, one, minusOne, d, notD, negD, dPlusOne, dMinusOne]
    ++ [Input.a, Input.m].flatMap fun i =>
      [y i, notY i, negY i, yPlusOne i, yMinusOne i, dPlusY i, dMinusY i, yMinusD i, dAndY i, dOrY i]

theorem mem_all (c : Computation) : c ∈ all := by
  cases c <;> try cases ‹Input›
  all_goals decide

/-! ## Text -/

/-- The mnemonic of a computation. -/
def text : Computation → String
  | zero => "0"
  | one => "1"
  | minusOne => "-1"
  | d => "D"
  | notD => "!D"
  | negD => "-D"
  | dPlusOne => "D+1"
  | dMinusOne => "D-1"
  | y i => i.letter
  | notY i => "!" ++ i.letter
  | negY i => "-" ++ i.letter
  | yPlusOne i => i.letter ++ "+1"
  | yMinusOne i => i.letter ++ "-1"
  | dPlusY i => "D+" ++ i.letter
  | dMinusY i => "D-" ++ i.letter
  | yMinusD i => i.letter ++ "-D"
  | dAndY i => "D&" ++ i.letter
  | dOrY i => "D|" ++ i.letter

/-- The name of a computation in structured data. -/
def name : Computation → String
  | zero => "Zero"
  | one => "One"
  | minusOne => "MinusOne"
  | d => "D"
  | notD => "NotD"
  | negD => "NegD"
  | dPlusOne => "DPlusOne"
  | dMinusOne => "DMinusOne"
  | y i => i.letter
  | notY i => "Not" ++ i.letter
  | negY i => "Neg" ++ i.letter
  | yPlusOne i => i.letter ++ "PlusOne"
  | yMinusOne i => i.letter ++ "MinusOne"
  | dPlusY i => "DPlus" ++ i.letter
  | dMinusY i => "DMinus" ++ i.letter
  | yMinusD i => i.letter ++ "MinusD"
  | dAndY i => "DAnd" ++ i.letter
  | dOrY i => "DOr" ++ i.letter

/-- The computations by mnemonic. -/
def mnemonics : List (String × Computation) :=
  all.map fun c => (c.text, c)

/-- Read a mnemonic. -/
def parse (s : String) : Except MnemonicError Computation :=
  match mnemonics.lookup s with
  | some c => .ok c
  | none => .error (.unknown .comp s)

/-- The computation of a given name in structured data. -/
def ofName? (s : String) : Option Computation :=
  all.find? (·.name = s)

/-! ## Bits -/

/-- Whether the second input is connected to memory. -/
def readsMemory : Computation → Bool
  | y i | notY i | negY i | yPlusOne i | yMinusOne i | dPlusY i | dMinusY i | yMinusD i
  | dAndY i | dOrY i => i = .m
  | _ => false

/-- The control bits of the arithmetic unit, which do not depend on its second input. -/
def control : Computation → BitVec 6
  | zero => 0b101010
  | one => 0b111111
  | minusOne => 0b111010
  | d => 0b001100
  | notD => 0b001101
  | negD => 0b001111
  | dPlusOne => 0b011111
  | dMinusOne => 0b001110
  | y _ => 0b110000
  | notY _ => 0b110001
  | negY _ => 0b110011
  | yPlusOne _ => 0b110111
  | yMinusOne _ => 0b110010
  | dPlusY _ => 0b000010
  | dMinusY _ => 0b010011
  | yMinusD _ => 0b000111
  | dAndY _ => 0b000000
  | dOrY _ => 0b010101

/-- The seven bits of a computation: the selector of the second input, then the control bits. -/
def bits (c : Computation) : BitVec 7 :=
  BitVec.ofBool c.readsMemory ++ c.control

/-- The computation with the given bits. Most patterns select none. -/
def ofBits? (b : BitVec 7) : Option Computation :=
  all.find? (·.bits = b)

/-- The computation whose bits read as the number `n`. -/
def ofNat? (n : Nat) : Option Computation :=
  all.find? (·.bits.toNat = n)

@[simp] theorem ofBits?_bits (c : Computation) : ofBits? c.bits = some c := by
  cases c <;> try cases ‹Input›
  all_goals decide

theorem bits_of_ofBits? {b : BitVec 7} {c : Computation} (h : ofBits? b = some c) : c.bits = b := by
  simpa using List.find?_some h

end Computation

end HackAssembler
