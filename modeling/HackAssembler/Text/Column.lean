-- SUMMARY: Text of a fixed width, and hexadecimal numbers.

/-!
# Columns

Tables align their columns by filling short texts up with spaces. Texts that are too
wide are never cut.
-/

namespace HackAssembler.Text

/-- The text with spaces in front of it, up to the given width. -/
def alignRight (width : Nat) (s : String) : String :=
  String.ofList (s.toList.leftpad width ' ')

/-- The text with spaces behind it, up to the given width. -/
def alignLeft (width : Nat) (s : String) : String :=
  String.ofList (s.toList.rightpad width ' ')

/-- A number in capital hexadecimal digits, with zeros in front of it up to the given width. -/
def hexadecimal (width n : Nat) : String :=
  String.ofList (((Nat.toDigits 16 n).map Char.toUpper).leftpad width '0')

/-- The text `n` times over. -/
def repeated (n : Nat) (s : String) : String :=
  String.join (List.replicate n s)

example : hexadecimal 4 0x6b = "006B" := by decide

/-- The texts with a line feed behind each. -/
def unlines (ls : List String) : String :=
  String.join (ls.map (· ++ "\n"))

end HackAssembler.Text
