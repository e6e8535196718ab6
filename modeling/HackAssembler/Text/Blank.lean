-- SUMMARY: Blank characters, and text without the blanks around it.

/-!
# Blank characters

A character is blank if it has the Unicode property `White_Space`: the control
characters from tab to carriage return, the next-line control, the spaces of all
widths, and the separators of lines and paragraphs.
-/

namespace HackAssembler.Text

/-- The ranges of blank characters, both ends included. -/
def blankRanges : List (Nat × Nat) :=
  [(0x09, 0x0D), (0x20, 0x20), (0x85, 0x85), (0xA0, 0xA0), (0x1680, 0x1680), (0x2000, 0x200A),
   (0x2028, 0x2029), (0x202F, 0x202F), (0x205F, 0x205F), (0x3000, 0x3000)]

def isBlank (c : Char) : Bool :=
  blankRanges.any fun (first, last) => first ≤ c.toNat && c.toNat ≤ last

theorem isBlank_of_isWhitespace {c : Char} (h : c.isWhitespace = true) : isBlank c = true := by
  simp only [Char.isWhitespace, Bool.or_eq_true, decide_eq_true_eq] at h
  rcases h with ((rfl | rfl) | rfl) | rfl <;> decide

example : (blankRanges.map fun (first, last) => last + 1 - first).sum = 25 := by decide

/-- The text without blanks at its end. -/
def trimEnd (s : List Char) : List Char :=
  (s.reverse.dropWhile isBlank).reverse

/-- The text without blanks at either end. -/
def trim (s : List Char) : List Char :=
  trimEnd (s.dropWhile isBlank)

end HackAssembler.Text
