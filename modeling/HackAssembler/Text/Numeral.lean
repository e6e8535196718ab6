-- SUMMARY: Numerals: natural numbers written in a base.

/-!
# Numerals

A numeral is a row of digits, the highest first. Beyond the ten decimal digits the
letters from `a` to `f` are digits, in either case.
-/

namespace HackAssembler.Text.Numeral

/-- The value of a digit in a base of at most sixteen. -/
def digit? (base : Nat) (c : Char) : Option Nat :=
  let value :=
    if c.isDigit then c.toNat - '0'.toNat
    else if 'a' ≤ c ∧ c ≤ 'f' then c.toNat - 'a'.toNat + 10
    else if 'A' ≤ c ∧ c ≤ 'F' then c.toNat - 'A'.toNat + 10
    else base
  if value < base then some value else none

/-- Read a numeral, which has at least one digit and no sign. -/
def ofText? (base : Nat) (s : List Char) : Option Nat :=
  if s = [] then none
  else s.foldlM (fun n c => (digit? base c).map (base * n + ·)) 0

/-- A number as a numeral, in a base of at most sixteen. -/
def text (base n : Nat) : String :=
  String.ofList (Nat.toDigits base n)

example : ofText? 16 ['1', 'f'] = some 31 := by decide

example : ofText? 2 ['1', '2'] = none := by decide

end HackAssembler.Text.Numeral
