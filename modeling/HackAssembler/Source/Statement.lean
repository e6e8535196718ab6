-- SUMMARY: Statements of a source: names, operands, compute instructions and labels, and how they are read.
import HackAssembler.Machine.Instruction
import HackAssembler.Source.Error

/-!
# Statements

The first character of a token tells what it is: an address instruction starts with
`@`, a label with an opening parenthesis, and all else is a compute instruction.
Reading a statement either succeeds or gives the one error that describes it best.
-/

namespace HackAssembler

/-! ## Names -/

/-- The characters of names: letters, digits and four signs. -/
def isSymbolChar (c : Char) : Bool :=
  c.isAlphanum || c = '_' || c = '.' || c = '$' || c = ':'

/-- Whether a text is a name: it has a character, all of them may stand in names, and the first one
is not a digit. -/
def isSymbol (s : String) : Bool :=
  match s.toList with
  | [] => false
  | c :: cs => !c.isDigit && (c :: cs).all isSymbolChar

/-! ## Syntax -/

/-- What an address instruction loads. -/
inductive Operand where
  | literal (value : Word)
  | symbol (name : String)
  deriving DecidableEq, Repr

/-- An instruction as it is written, with names still in it. -/
inductive Code where
  | address (operand : Operand)
  | compute (dest : Destination) (comp : Computation) (jump : Jump)
  deriving DecidableEq, Repr

/-- The name in the operand of an instruction. -/
def Code.symbol? : Code → Option String
  | .address (.symbol name) => some name
  | _ => none

theorem Code.symbol?_eq_some_iff {code : Code} {name : String} :
    code.symbol? = some name ↔ code = .address (.symbol name) := by
  unfold symbol?
  split
  · simp
  · simp_all

/-- What a line of source says. -/
inductive Statement where
  | code (code : Code)
  | label (name : String)
  deriving DecidableEq, Repr

/-- The classes of tokens. -/
inductive TokenKind where
  | address
  | compute
  | label
  deriving DecidableEq, Repr

/-- The class of a token. -/
def TokenKind.of (token : String) : TokenKind :=
  match token.toList.head? with
  | some '@' => .address
  | some '(' => .label
  | _ => .compute

/-! ## Address instructions -/

/-- Read what follows the `@` of an address instruction. A text of digits is a number, however
long it is. -/
def Operand.parse (s : String) : Except SourceError Operand :=
  if s = "" then .error (.malformedAddress "@")
  else if s.toList.all Char.isDigit then
    let n := Nat.ofDigitChars 10 s.toList 0
    if n ≤ Memory.maxAddress.toNat then .ok (.literal (BitVec.ofNat 16 n))
    else .error (.addressOutOfRange s)
  else if isSymbol s then .ok (.symbol s)
  else .error (.invalidSymbol s)

/-! ## Compute instructions -/

/-- The texts of the fields of a compute instruction. A field that is not written reads `null`. -/
structure ComputeText where
  dest : String := "null"
  comp : String
  jump : String := "null"
  deriving DecidableEq, Repr

/-- Cut a token into the texts of its fields. An equals sign ends the destination and a semicolon
starts the jump; at least one of the two fields is written, and no written field is empty. -/
def ComputeText.split (token : String) : Except SourceError ComputeText :=
  let pieces := (token.toList.splitOn '=').map fun piece => (piece.splitOn ';').map String.ofList
  if pieces.any (·.contains "") then .error (.malformedCompute token)
  else match pieces with
    | [[dest], [comp, jump]] => .ok { dest, comp, jump }
    | [[dest], [comp]] => .ok { dest, comp }
    | [[comp, jump]] => .ok { comp, jump }
    | _ => .error (.malformedCompute token)

/-- The error of a field that is not a mnemonic. -/
def Field.check {α : Type} (field : Field) (text : String) :
    Except MnemonicError α → Except SourceError α
  | .ok a => .ok a
  | .error _ => .error (.unknownMnemonic field text)

/-- Read a compute instruction. The first field that is not a mnemonic is reported. -/
def Code.parseCompute (token : String) : Except SourceError Code := do
  let text ← ComputeText.split token
  let dest ← Field.dest.check text.dest (Destination.parse text.dest)
  let comp ← Field.comp.check text.comp (Computation.parse text.comp)
  let jump ← Field.jump.check text.jump (Jump.parse text.jump)
  return .compute dest comp jump

/-! ## Labels -/

/-- What stands between the parentheses of a token. -/
def enclosed? (token : String) : Option String :=
  match token.toList with
  | '(' :: rest => if rest.getLast? = some ')' then some (String.ofList rest.dropLast) else none
  | _ => none

/-- Read a label. -/
def parseLabel (token : String) : Except SourceError String :=
  match enclosed? token with
  | none | some "" => .error (.malformedLabel token)
  | some name => if isSymbol name then .ok name else .error (.invalidSymbol name)

/-! ## Statements -/

/-- Read a statement. -/
def Statement.parse (token : String) : Except SourceError Statement :=
  match TokenKind.of token with
  | .address => do return .code (.address (← Operand.parse (String.ofList token.toList.tail)))
  | .label => do return .label (← parseLabel token)
  | .compute => do return .code (← Code.parseCompute token)

end HackAssembler
