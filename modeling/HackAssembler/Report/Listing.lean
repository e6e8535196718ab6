-- SUMMARY: The listing of an assembly beside its source, and the list of its symbols.
import HackAssembler.Assembly.Assembly
import HackAssembler.Text.Column
import HackAssembler.Text.Terminal

/-!
# Listings

A listing shows the lines of a source from top to bottom. Beside each instruction stand
its address and its word, with names replaced by what they stand for. All other lines
keep their labels and comments only.

The instructions of an assembly come in the order of their lines. So the lines are gone
through once, and the next instruction is placed as soon as its line is reached.
-/

namespace HackAssembler

/-! ## Instructions with names -/

/-- An operand in colour: numbers as they are, names with their address in front, unknown names
underlined. -/
def Operand.coloured (symbols : SymbolTable) : Operand → String
  | .literal value => Style.yellow.paint (toString value.toNat)
  | .symbol name =>
    match symbols.address? name with
    | some address => Style.green.paint s!"{address.toNat}({name})"
    | none => Style.paintBoth .red .underline name

/-- An instruction as it is written, with each part in its colour. -/
def Code.coloured (symbols : SymbolTable) : Code → String
  | .address operand => Style.red.paint "@" ++ operand.coloured symbols
  | .compute dest comp jump => (Instruction.compute dest comp jump).coloured

/-! ## Rows -/

/-- An instruction of an assembly with its address. -/
structure Item where
  counter : Nat
  code : Located Code
  instruction : Instruction

/-- The instructions of an assembly in order. -/
def Assembly.items (a : Assembly) : List Item :=
  (a.code.zip a.instructions).zipIdx.map fun ((code, instruction), counter) =>
    { counter, code, instruction }

/-- A row of a listing: a line of source, and the instruction on it if there is one. -/
structure Row where
  line : Nat
  raw : String
  item : Option Item

namespace Row

/-- The comment of a row, dimmed and without blanks at its end. -/
def comment (r : Row) : String :=
  match Line.comment? r.raw.toList with
  | some comment => Style.dim.paint (String.ofList (Text.trimEnd comment))
  | none => ""

/-- The label of a row with its address. A label that is not defined is underlined. -/
def label (symbols : SymbolTable) (r : Row) : String :=
  match enclosed? (Line.normalize r.raw) with
  | none => ""
  | some name =>
    match symbols.address? name with
    | some address =>
      Style.green.paint s!"({name})" ++ " " ++ Style.dim.paint s!"= {address.toNat}" ++ " "
    | none => Style.paintBoth .red .underline s!"({name})" ++ " "

/-- The text of a row. -/
def text (symbols : SymbolTable) (r : Row) : String :=
  let number := Text.alignRight 4 (toString (r.line + 1))
  match r.item with
  | some item =>
    s!"[{Text.hexadecimal 4 item.counter}] {item.instruction.encode.binary} | {number}:   "
      ++ item.code.item.coloured symbols ++ " " ++ r.comment
  | none => Text.repeated 25 " " ++ s!"| {number}: " ++ r.label symbols ++ r.comment

end Row

/-! ## Listings -/

/-- The rows so far, and the instructions that are still to be placed. -/
structure Listing where
  rows : Array Row := #[]
  pending : List Item

namespace Listing

/-- Add a line of source, with the next instruction if it is on that line. -/
def step (l : Listing) (source : String × Nat) : Listing :=
  let (raw, line) := source
  match l.pending with
  | item :: rest =>
    if item.code.line = line then
      { rows := l.rows.push { line, raw, item := some item }, pending := rest }
    else { l with rows := l.rows.push { line, raw, item := none } }
  | [] => { l with rows := l.rows.push { line, raw, item := none } }

/-- The rows of a listing. -/
def rowsOf (lines : List String) (a : Assembly) : List Row :=
  (lines.zipIdx.foldl step { pending := a.items }).rows.toList

def dashes (n : Nat) : String :=
  Text.repeated n "-"

/-- The line above the rows, with the path of the source in it. The dashes end at the same place for all
paths that leave room for them. -/
def header (path : String) : String :=
  s!"{dashes 25}+{dashes 6}[{path}]{dashes (45 - path.utf8ByteSize)}"

/-- The line below the rows. -/
def footer : String :=
  s!"{dashes 25}+{dashes 53}"

/-- The listing of an assembly beside the given lines. -/
def render (path : String) (lines : List String) (a : Assembly) : String :=
  Text.unlines (header path :: (rowsOf lines a).map (Row.text a.symbols) ++ [footer])

end Listing

/-! ## Symbols -/

/-- A kind of symbol in colour. Labels tell their line. -/
def SymbolKind.coloured : SymbolKind → String
  | .predefined => Style.dim.paint "predefined"
  | .label line => Style.green.paint "label" ++ s!" (line {line + 1})"
  | .var => Style.cyan.paint "variable"

/-- The list of all symbols: address in two bases, name and kind. -/
def SymbolTable.listing (t : SymbolTable) : String :=
  Text.unlines <| t.entries.map fun (name, symbol) =>
    let address := symbol.address.toNat
    s!"  {Text.alignRight 5 (toString address)} 0x{Text.hexadecimal 4 address}  "
      ++ s!"{Text.alignLeft 24 name} {symbol.kind.coloured}"

end HackAssembler
