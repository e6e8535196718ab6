-- SUMMARY: Diagnostics: errors shown with the lines that they are about.
import HackAssembler.Source.Error
import HackAssembler.Text.Column
import HackAssembler.Text.Terminal

/-!
# Diagnostics

A diagnostic gives the message of an error and shows the line it is about. A label that
is defined twice is followed by a note, which shows the first definition if there is
one in the source.
-/

namespace HackAssembler.Diagnostic

/-- A line of source with its place. A line that does not exist is shown empty. -/
def snippet (file : String) (lines : Array String) (line : Nat) : List String :=
  let bar := "      " ++ Style.blue.paint "|"
  let number := Text.alignRight 4 (toString (line + 1))
  [ "     " ++ Style.blue.paint "-->" ++ " " ++ Style.underline.paint s!"{file}:{line + 1}",
    bar,
    " " ++ Style.blue.paint s!"{number} |" ++ " " ++ lines.getD line "",
    bar ]

/-- The first line of a diagnostic or note. -/
def heading (colour : Style) (title message : String) : String :=
  Style.paintBoth colour .bold title ++ ": " ++ message

/-- The heading of an error. -/
def error (message : String) : String :=
  heading .red "error" message

/-- What is said beyond the error itself. -/
def note (file : String) (lines : Array String) : SourceError → List String
  | .duplicateLabel _ (some first) =>
    heading .green "note" "Already defined here" :: snippet file lines first
  | .duplicateLabel _ none => [heading .green "note" "Predefined symbols cannot be used as labels"]
  | _ => []

/-- The lines of a diagnostic. -/
def rows (file : String) (lines : Array String) (e : Located SourceError) : List String :=
  error e.item.message :: snippet file lines e.line ++ note file lines e.item

/-- The diagnostics of all errors of a source. -/
def render (file : String) (lines : List String) (errors : SourceErrors) : String :=
  Text.unlines (errors.flatMap (rows file lines.toArray))

end HackAssembler.Diagnostic
