-- SUMMARY: What a line of source says: its text without comments and blanks, and its comment.
import HackAssembler.Text.Blank

/-!
# Source lines

A comment starts at the first two slashes in a row and runs to the end of the line.
Blanks have no meaning anywhere, not even inside a word, so a line says what is left
of it without comment and blanks. Two slashes that only a blank keeps apart do not
start a comment, although they meet once the blank is gone.
-/

namespace HackAssembler.Line

/-! ## Comments -/

/-- Where the comment of a line starts: the first place with two slashes in a row. -/
def commentStart? (line : List Char) : Option Nat :=
  (line.zip line.tail).idxOf? ('/', '/')

/-- The part of a line in front of its comment. -/
def code (line : List Char) : List Char :=
  match commentStart? line with
  | some i => line.take i
  | none => line

/-- The comment of a line, slashes included. -/
def comment? (line : List Char) : Option (List Char) :=
  (commentStart? line).map line.drop

@[simp] theorem code_nil : code [] = [] := rfl

@[simp] theorem code_singleton (c : Char) : code [c] = [c] := rfl

@[simp] theorem code_slash_slash (rest : List Char) : code ('/' :: '/' :: rest) = [] := by
  simp [code, commentStart?, List.idxOf?, List.findIdx?_cons]

theorem code_cons_cons {c d : Char} (rest : List Char) (h : ¬(c = '/' ∧ d = '/')) :
    code (c :: d :: rest) = c :: code (d :: rest) := by
  have hcd : ((c, d) == ('/', '/')) = false := by simpa using h
  simp only [code, commentStart?, List.idxOf?, List.tail_cons, List.zip_cons_cons,
    List.findIdx?_cons, hcd]
  cases List.findIdx? (fun x => x == ('/', '/')) ((d :: rest).zip rest) <;> rfl

/-! ## Tokens -/

/-- What a line says: its code without blanks. Lines that say nothing come out empty. -/
def normalize (line : String) : String :=
  String.ofList ((code line.toList).filter (!Text.isBlank ·))

example : normalize "\tD = M + 1 // next" = "D=M+1" := by decide

example : normalize (normalize "/ /x") ≠ normalize "/ /x" := by decide

end HackAssembler.Line
