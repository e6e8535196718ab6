-- SUMMARY: What can be read off a text: its parts, hexadecimal numbers, and which colour it starts with.
import HackAssembler.Text.Column
import HackAssembler.Text.Numeral
import HackAssembler.Text.Terminal

/-!
# Reading a text

A text that is printed shows its parts somewhere, with whatever stands around them. That tells
little as long as nobody can read the parts, so hexadecimal numbers are read back here, and a
text in one colour is told from a text in another one.
-/

namespace HackAssembler

/-! ## Parts -/

namespace Text

/-- A text shows a part if the part stands somewhere in it. -/
def Shows (text part : String) : Prop :=
  part.toList <:+: text.toList

theorem shows_self (s : String) : Shows s s :=
  List.infix_rfl

theorem Shows.append_left {text part : String} (h : Shows text part) (before : String) :
    Shows (before ++ text) part := by
  unfold Shows
  rw [String.toList_append]
  exact List.infix_append_of_infix_right h

theorem Shows.append_right {text part : String} (h : Shows text part) (behind : String) :
    Shows (text ++ behind) part := by
  unfold Shows
  rw [String.toList_append]
  exact List.infix_append_of_infix_left h

end Text

theorem Style.shows_paint (style : Style) (s : String) : Text.Shows (style.paint s) s :=
  ((Text.shows_self s).append_left _).append_right _

/-! ## Hexadecimal numbers -/

namespace Text.Numeral

theorem digit?_toUpper_digitChar {d : Nat} (h : d < 16) :
    digit? 16 d.digitChar.toUpper = some d := by
  have hall : ∀ d < 16, digit? 16 (Nat.digitChar d).toUpper = some d := by decide
  exact hall d h

/-- Take in one more hexadecimal digit. -/
def addDigit? (n : Nat) (c : Char) : Option Nat :=
  (digit? 16 c).map (16 * n + ·)

theorem foldlM_toDigits (n : Nat) :
    ((Nat.toDigits 16 n).map Char.toUpper).foldlM addDigit? 0 = some n := by
  induction n using Nat.strongRecOn with
  | ind n ih =>
    rw [Nat.toDigits_eq_if (by decide)]
    split
    · rename_i hlt
      simp [addDigit?, digit?_toUpper_digitChar hlt]
    · rename_i hge
      have hlast : digit? 16 (n % 16).digitChar.toUpper = some (n % 16) :=
        digit?_toUpper_digitChar (Nat.mod_lt _ (by decide))
      rw [List.map_append, List.foldlM_append, ih (n / 16) (by omega)]
      simp [addDigit?, hlast, Nat.div_add_mod]

theorem foldlM_zeros (count : Nat) : (List.replicate count '0').foldlM addDigit? 0 = some 0 := by
  induction count with
  | zero => rfl
  | succ count ih => exact ih

/-- A number in hexadecimal digits is read back, whatever its width. -/
theorem ofText?_hexadecimal (width n : Nat) : ofText? 16 (hexadecimal width n).toList = some n := by
  have hne : ((Nat.toDigits 16 n).map Char.toUpper).leftpad width '0' ≠ [] := by
    simp [List.leftpad]
  rw [hexadecimal, String.toList_ofList, ofText?, if_neg hne, List.leftpad, List.foldlM_append]
  change ((List.replicate _ '0').foldlM addDigit? 0).bind _ = _
  rw [foldlM_zeros]
  exact foldlM_toDigits n

end Text.Numeral

/-! ## Colours -/

/-- The colours of what is defined and what is not differ from the fourth character on. -/
theorem Style.green_append_ne_red_append (s t : String) : green.on ++ s ≠ red.on ++ t := by
  intro heq
  have hfourth := congrArg (fun text => text.toList[3]?) heq
  simp [on] at hfourth

end HackAssembler
