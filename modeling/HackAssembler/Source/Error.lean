-- SUMMARY: What can be wrong with a source, and where.
import HackAssembler.Machine.Mnemonic

/-!
# Errors in a source

Each error keeps the text that it is about. Lines are counted from zero and shown
from one.
-/

namespace HackAssembler

/-- A thing together with the source line that it comes from, counted from zero. -/
structure Located (α : Type) where
  line : Nat
  item : α
  deriving DecidableEq, Repr

/-- What can be wrong with a line of source. -/
inductive SourceError where
  /-- A compute instruction does not have the shape of one. -/
  | malformedCompute (token : String)
  /-- An address instruction has no operand. -/
  | malformedAddress (token : String)
  /-- A label is not closed, or has no name. -/
  | malformedLabel (token : String)
  /-- A field of a compute instruction is not a mnemonic. -/
  | unknownMnemonic (field : Field) (text : String)
  /-- A number, or the address of a name, is too large for an address instruction. -/
  | addressOutOfRange (text : String)
  /-- A name has a character that names do not have, or starts with a digit. -/
  | invalidSymbol (text : String)
  /-- A label has the name of an earlier label, whose line is given, or some other known name. -/
  | duplicateLabel (name : String) (first : Option Nat)
  deriving DecidableEq, Repr

/-- A text between the quotation marks of messages. -/
def quoted (s : String) : String :=
  "`" ++ s ++ "`"

def SourceError.message : SourceError → String
  | .malformedCompute token => "Malformed compute instruction: " ++ quoted token
  | .malformedAddress token => "Malformed address instruction: " ++ quoted token
  | .malformedLabel token => "Malformed label: " ++ quoted token
  | .unknownMnemonic field text => s!"Unknown {field.name} mnemonic: {quoted text}"
  | .addressOutOfRange text => s!"Address out of range: {quoted text} (0..=32767)"
  | .invalidSymbol text => "Invalid symbol: " ++ quoted text
  | .duplicateLabel name _ => "Re-defined label: " ++ quoted name

/-- The message of an error with the number of its line. -/
def SourceError.display (e : Located SourceError) : String :=
  s!"line {e.line + 1}: {e.item.message}"

/-- The errors of a source, in the order in which they were found. -/
abbrev SourceErrors := List (Located SourceError)

def SourceErrors.message (errors : SourceErrors) : String :=
  s!"{errors.length} error(s) in source"

end HackAssembler
