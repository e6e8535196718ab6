-- SUMMARY: Decimal numbers with a point and an exponent, and whether they are finite in double precision.

/-!
# Decimal numbers

A decimal number has digits in front of its point, behind it or on both sides, and
optionally a power of ten. In double precision it is finite if it is less than halfway
between the largest finite number and the next power of two. Large exponents are decided
by the place of the first digit alone, so no large power is ever computed.
-/

namespace HackAssembler.Text

/-- The number with the digits `whole` in front of its point and `fraction` behind it, times ten to
the power `exponent`. -/
structure Decimal where
  whole : List Char
  fraction : List Char := []
  exponent : Int := 0

namespace Decimal

/-! ## Reading -/

/-- The digits of an exponent count until it is as large as this. -/
def exponentBound : Nat := 65536

/-- The size of an exponent. Once it has reached the bound, further digits are skipped, so it never
grows beyond ten times the bound. -/
def magnitude (digits : List Char) : Nat :=
  digits.foldl (fun n c => if n < exponentBound then 10 * n + (c.toNat - '0'.toNat) else n) 0

/-- A sign in front of an exponent: the factor it stands for, and the text behind it. -/
def sign : List Char → Int × List Char
  | '-' :: s => (-1, s)
  | '+' :: s => (1, s)
  | s => (1, s)

/-- The exponent behind the digits of a number. -/
def exponent? : List Char → Option Int
  | [] => some 0
  | e :: s =>
    let (factor, digits) := sign s
    if (e = 'e' ∨ e = 'E') ∧ digits ≠ [] ∧ digits.all Char.isDigit then
      some (factor * magnitude digits)
    else none

/-- The digits behind the point of a number, and the text behind them. -/
def fractionOf : List Char → List Char × List Char
  | '.' :: s => (s.takeWhile Char.isDigit, s.dropWhile Char.isDigit)
  | s => ([], s)

/-- Read a number, which has at least one digit and no sign. -/
def ofText? (s : List Char) : Option Decimal :=
  let whole := s.takeWhile Char.isDigit
  let (fraction, rest) := fractionOf (s.dropWhile Char.isDigit)
  if whole = [] ∧ fraction = [] then none
  else (exponent? rest).map fun exponent => { whole, fraction, exponent }

/-! ## Double precision -/

/-- The least number that is rounded to infinity. -/
def overflow : Nat := Nat.pow 2 1024 - Nat.pow 2 970

/-- Whether a number is finite in double precision. -/
def isFinite (x : Decimal) : Bool :=
  let digits := x.whole ++ x.fraction
  let significant := digits.dropWhile (· = '0')
  -- the number lies between the powers of ten of `place - 1` and `place`
  let place := x.exponent + x.whole.length - (digits.length - significant.length : Nat)
  let shift := place - significant.length
  let mantissa := Nat.ofDigitChars 10 significant 0
  if significant = [] ∨ place ≤ 308 then true
  else if 310 ≤ place then false
  else mantissa * Nat.pow 10 shift.toNat < overflow * Nat.pow 10 (-shift).toNat

example : isFinite ⟨['1'], ['7', '9', '7'], 308⟩ = true := by decide +kernel

example : isFinite ⟨['1'], ['8'], 308⟩ = false := by decide +kernel

example : magnitude ['7', '0', '0', '0', '0', '0'] = 70000 := by decide

end Decimal

end HackAssembler.Text
