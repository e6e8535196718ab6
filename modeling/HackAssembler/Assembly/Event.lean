-- SUMMARY: What happens during a run that its log tells.
import HackAssembler.Machine.Memory

/-!
# Events

A run tells of every name that it binds, and of the end of each pass that succeeds.
-/

namespace HackAssembler

/-- Something that happens during a run. -/
inductive Event where
  /-- A label was defined. -/
  | label (name : String) (address : Word)
  /-- A variable was allocated. -/
  | allocation (name : String) (address : Word)
  /-- All instructions are collected and all labels are defined. -/
  | placed (codeCount labelCount : Nat)
  /-- All names are resolved. -/
  | linked (variableCount : Nat)
  deriving DecidableEq, Repr

end HackAssembler
