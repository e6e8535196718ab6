-- SUMMARY: Instructions as structured data: writing them, and reading them back from any value.
import HackAssembler.Machine.Instruction
import HackAssembler.Text.Blank
import HackAssembler.Text.Numeral

/-!
# Instructions as structured data

An instruction is exchanged as a record with one field. The field `A` holds the
number that an address instruction loads, and the field `C` holds a record of the
three fields of a compute instruction: the flags of its destination, the name of
its computation and the name of its jump. Reading takes any word for an address
instruction, so what it accepts need not be an address, and any eight bits for a
destination, so what it accepts need not be a set of registers.

Data are read here as they are held in memory, where the fields of a record have different
names. A reader that works on a text may come across more: a name that is given twice, or
the three fields of a compute instruction as a sequence without names. The one cannot be
held in memory, and the other is refused when it is.
-/

namespace HackAssembler

/-- A value of structured data, as far as instructions are concerned. -/
inductive Datum where
  | null
  | integer (n : Int)
  | text (s : String)
  /-- Fields with different names. -/
  | record (fields : List (String × Datum))
  /-- A truth value, a fraction or a sequence, none of which is part of an instruction. -/
  | foreign
  deriving Inhabited

namespace Destination

/-! ## Flags -/

/-- The flags of a destination: the letters of its registers and the value of its other bits, with
bars between them. -/
def flags (r : Destination) : String :=
  let rest := if r.other = 0 then [] else ["0x" ++ Text.Numeral.text 16 (r.other ++ 0#3).toNat]
  " | ".intercalate (r.letters.map Char.toString ++ rest)

/-- What either of two destinations has. -/
def union (r s : Destination) : Destination :=
  { a := r.a || s.a, d := r.d || s.d, m := r.m || s.m, other := r.other ||| s.other }

/-- The destination with the given bits, the three lowest of which stand for the registers. -/
def ofByte (b : BitVec 8) : Destination :=
  { ofBits (b.extractLsb' 0 3) with other := b.extractLsb' 3 5 }

/-- Eight bits in hexadecimal. A plus sign may stand in front of the digits. -/
def hexByte? (s : List Char) : Option (BitVec 8) :=
  (Text.Numeral.ofText? 16 (if s.head? = some '+' then s.tail else s)).bind fun n =>
    if n < 256 then some (BitVec.ofNat 8 n) else none

/-- One flag: the letter of a register, or the bits of a destination in hexadecimal. -/
def ofFlag? : List Char → Option Destination
  | ['A'] => some { a := true }
  | ['D'] => some { d := true }
  | ['M'] => some { m := true }
  | '0' :: 'x' :: digits => (hexByte? digits).map ofByte
  | _ => none

/-- Read flags. Blanks around a flag do not count, and a flag may be given more than once. -/
def ofFlags? (s : String) : Option Destination :=
  if (Text.trim s.toList).isEmpty then some empty
  else (s.toList.splitOn '|').foldlM (fun r flag => (ofFlag? (Text.trim flag)).map r.union) empty

end Destination

namespace Datum

/-! ## Parts -/

/-- The word that a number stands for. -/
def word? : Datum → Option Word
  | integer (.ofNat n) => if n < 65536 then some (BitVec.ofNat 16 n) else none
  | _ => none

/-- A name, given as a text or as a record whose only field has that name and no value. -/
def name? : Datum → Option String
  | text s => some s
  | record [(s, null)] => some s
  | _ => none

def text? : Datum → Option String
  | text s => some s
  | _ => none

/-- A field of a record. -/
def field? (fields : List (String × Datum)) (key : String) : Option Datum :=
  fields.lookup key

end Datum

namespace Instruction

/-! ## Instructions -/

/-- An instruction as structured data. -/
def toDatum : Instruction → Datum
  | address value => .record [("A", .integer value.toNat)]
  | compute dest comp jump =>
    .record [("C", .record
      [("dest", .text dest.flags), ("comp", .text comp.name), ("jump", .text jump.name)])]

/-- The compute instruction with the given fields. Other fields are ignored. -/
def ofFields? (fields : List (String × Datum)) : Option Instruction := do
  let dest ← (← (← Datum.field? fields "dest").text?) |> Destination.ofFlags?
  let comp ← (← (← Datum.field? fields "comp").name?) |> Computation.ofName?
  let jump ← (← (← Datum.field? fields "jump").name?) |> Jump.ofName?
  return compute dest comp jump

/-- Read an instruction from structured data. A compute instruction has to be a record: the sequence of
its fields, which can be read from a text, is refused. -/
def ofDatum? : Datum → Option Instruction
  | .record [("A", value)] => value.word?.map address
  | .record [("C", .record fields)] => ofFields? fields
  | _ => none

end Instruction

end HackAssembler
