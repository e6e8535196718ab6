-- SUMMARY: Colours and styles of terminal text.

/-!
# Terminal text

Coloured and emphasised text is written with control sequences: one switches an
attribute on in front of the text, another switches it off behind it. All colours
share the sequence that switches them off, so a colour may also be replaced by the
next one directly.
-/

namespace HackAssembler

/-- An attribute of terminal text. -/
inductive Style where
  | bold
  | dim
  | underline
  | red
  | green
  | yellow
  | blue
  | cyan
  deriving DecidableEq, Repr

namespace Style

/-- The sequence that switches an attribute on. -/
def on : Style → String
  | bold => "\x1b[1m"
  | dim => "\x1b[2m"
  | underline => "\x1b[4m"
  | red => "\x1b[31m"
  | green => "\x1b[32m"
  | yellow => "\x1b[33m"
  | blue => "\x1b[34m"
  | cyan => "\x1b[36m"

/-- The sequence that switches an attribute off. -/
def off : Style → String
  | bold => "\x1b[22m"
  | dim => "\x1b[22m"
  | underline => "\x1b[24m"
  | _ => "\x1b[39m"

/-- The text with an attribute. -/
def paint (style : Style) (s : String) : String :=
  style.on ++ s ++ style.off

/-- The text with two attributes, which are switched on and off in the same order. -/
def paintBoth (first second : Style) (s : String) : String :=
  first.on ++ second.on ++ s ++ first.off ++ second.off

end Style

end HackAssembler
