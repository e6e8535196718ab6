-- SUMMARY: Instructions: encoding to words, decoding, and their plain and coloured text.
import HackAssembler.Machine.Memory
import HackAssembler.Machine.Computation
import HackAssembler.Machine.Destination
import HackAssembler.Machine.Jump
import HackAssembler.Text.Terminal

/-!
# Instructions

An address instruction is the word that it loads, so its top bit is clear as long
as the word is an address. A compute instruction has its top three bits set and
carries the bits of its three fields below them. The type does not restrict the
word of an address instruction: `address?` of `Memory` is the test for that. Nor does
it restrict the further bits of a destination, which lie over those of the computation.
-/

namespace HackAssembler

/-- An instruction of the machine. -/
inductive Instruction where
  /-- Load a word into `A`. -/
  | address (value : Word)
  /-- Compute, store the result, and jump if it meets a condition. -/
  | compute (dest : Destination) (comp : Computation) (jump : Jump)
  deriving DecidableEq, Repr

namespace Instruction

/-! ## Words -/

/-- The word of an instruction. -/
def encode : Instruction → Word
  | address value => value
  | compute dest comp jump =>
    0b111#3 ++ (comp.bits ||| dest.other.setWidth 7) ++ dest.bits ++ jump.bits

/-- The instruction of a word. A word with its top bit set must have the next two set as well, and
its computation must be known. -/
def decode? (w : Word) : Option Instruction :=
  if !w.msb then some (address w)
  else if w.extractLsb' 13 3 = 0b111#3 then
    (Computation.ofBits? (w.extractLsb' 6 7)).map fun comp =>
      compute (.ofBits (w.extractLsb' 3 3)) comp (.ofBits (w.extractLsb' 0 3))
  else none

/-- The binary text of an address instruction, if the word is an address. -/
def addressBinary? (value : Word) : Option String :=
  (Memory.address? value).map fun a => (address a).encode.binary

/-! ## Text -/

/-- The text of an instruction. An empty destination and a jump that is never taken are left out. -/
def text : Instruction → String
  | address value => s!"@{value.toNat}"
  | compute dest comp jump =>
    (if dest.isEmpty then "" else dest.text ++ "=")
      ++ comp.text
      ++ (if jump = .never then "" else ";" ++ jump.text)

/-- The text of an instruction with each part in its colour. -/
def coloured : Instruction → String
  | address value => Style.red.on ++ "@" ++ Style.yellow.paint (toString value.toNat)
  | compute dest comp jump =>
    (if dest.isEmpty then "" else Style.blue.paint dest.text ++ "=")
      ++ Style.green.paint comp.text
      ++ (if jump = .never then "" else ";" ++ Style.red.paint jump.text)

end Instruction

end HackAssembler
