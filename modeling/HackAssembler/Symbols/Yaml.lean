-- SUMMARY: The symbol table as a YAML document.
import HackAssembler.Symbols.Table
import HackAssembler.Text.Column
import HackAssembler.Text.Decimal
import HackAssembler.Text.Numeral

/-!
# Symbol tables in YAML

A table is written as a mapping from names to mappings with an address and a kind, in the
order of the entries. Names stand as they are unless a reader would take them for
something else: a null, a truth value, a number, or a part of the document's own marks.
Such names are quoted. The rules are complete for names of letters, digits, underscores,
points, dollar signs, colons and hyphens; other characters are written as they are. A name that is too long for a key on the line of its value is
introduced by a question mark.
-/

namespace HackAssembler.Yaml

/-! ## Numbers -/

/-- The base that a letter behind a zero marks. -/
def markedBase? : Char → Option Nat
  | 'x' => some 16
  | 'o' => some 8
  | 'b' => some 2
  | _ => none

/-- Whether a text is an integer with a mark for its base, below the given limit. -/
def isMarkedInteger (limit : Nat) : List Char → Bool
  | '0' :: mark :: digits =>
    ((markedBase? mark).bind fun base => Text.Numeral.ofText? base digits).any (· < limit)
  | _ => false

/-- Whether a text is a decimal number. It has to be finite in double precision, unless it consists
of digits with a zero in front of them, which is quoted for its looks. -/
def isDecimal (s : List Char) : Bool :=
  (s.head? = some '0' && s.all Char.isDigit) || (Text.Decimal.ofText? s).any (·.isFinite)

/-- The names of infinity. -/
def infinities : List String := [".inf", ".Inf", ".INF"]

/-- Whether a reader takes a text without sign for a number. -/
def isNumber (limit : Nat) (s : List Char) : Bool :=
  isMarkedInteger limit s || isDecimal s || infinities.contains (String.ofList s)

/-- Whether a reader takes the text for a number. Integers have 128 bits, with a sign only if they
are negative. -/
def readsAsNumber : List Char → Bool
  | '-' :: s => isNumber (Nat.pow 2 127 + 1) s
  | '+' :: s => isNumber (Nat.pow 2 128) s
  | s => isNumber (Nat.pow 2 128) s

/-! ## Names -/

/-- The texts that stand for nulls, truth values and what is not a number. -/
def reserved : List String :=
  ["", "~", "null", "Null", "NULL", "true", "True", "TRUE", "false", "False", "FALSE",
   ".nan", ".NaN", ".NAN"]

/-- Whether a text has a meaning in the document: a colon at its end makes a key of it, a single
hyphen starts an item, and three points or hyphens at its start end or begin a document. -/
def isMark (s : List Char) : Bool :=
  s.getLast? = some ':' || s = ['-']
    || ['.', '.', '.'].isPrefixOf s || ['-', '-', '-'].isPrefixOf s

/-- Whether a name is quoted. -/
def needsQuotes (name : String) : Bool :=
  reserved.contains name || readsAsNumber name.toList || isMark name.toList

/-- A name as it is written. -/
def scalar (name : String) : String :=
  if needsQuotes name then "'" ++ name ++ "'" else name

/-! ## Entries -/

/-- The longest name, in bytes, that is written on the line of its value. -/
def simpleKeyLimit : Nat := 128

def kind : SymbolKind → String
  | .predefined => "predefined"
  | .label line => s!"!label {line}"
  | .var => "variable"

/-- The lines of an entry. -/
def entry (name : String) (symbol : Symbol) : List String :=
  let address := s!"addr: {symbol.address.toNat}"
  let kind := s!"    kind: {kind symbol.kind}"
  if name.utf8ByteSize ≤ simpleKeyLimit then
    [s!"  {scalar name}:", s!"    {address}", kind]
  else [s!"  ? {scalar name}", s!"  : {address}", kind]

/-- The document of a symbol table. -/
def render (t : SymbolTable) : String :=
  Text.unlines ("symbols:" :: t.entries.flatMap fun (name, symbol) => entry name symbol)

end HackAssembler.Yaml
