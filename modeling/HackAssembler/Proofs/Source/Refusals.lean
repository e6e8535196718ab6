-- SUMMARY: What a token is refused with: errors that can be told from the token alone.
import HackAssembler.Proofs.Source.Fields

/-!
# Refusals

A token is read by itself. Whatever is wrong with it can be told without the rest of the source,
so a refusal never speaks of another line. Each reader is looked at in turn: those of the
parts first, and then the one of statements.
-/

namespace HackAssembler

/-- Whether an error can be told from its line alone. A second label needs a first one. -/
def SourceError.IsLocal : SourceError → Prop
  | .duplicateLabel _ _ => False
  | _ => True

/-- A reading that is refused for local reasons only, if it is refused. -/
def RefusesLocally {α : Type} (x : Except SourceError α) : Prop :=
  ∀ e, x = .error e → e.IsLocal

namespace RefusesLocally

variable {α β : Type}

theorem ok (a : α) : RefusesLocally (.ok a) := by
  intro e h
  cases h

theorem error {e : SourceError} (he : e.IsLocal) :
    RefusesLocally (.error e : Except SourceError α) := by
  intro e' h
  obtain rfl := Except.error.inj h
  exact he

theorem bind {x : Except SourceError α} {f : α → Except SourceError β} (hx : RefusesLocally x)
    (hf : ∀ a, RefusesLocally (f a)) : RefusesLocally (x >>= f) := by
  cases x with
  | ok a => exact hf a
  | error e => exact .error (hx e rfl)

end RefusesLocally

theorem Operand.refusesLocally_parse (s : String) : RefusesLocally (parse s) := by
  unfold parse
  split
  · exact .error trivial
  · split
    · simp only
      split
      · exact .ok _
      · exact .error trivial
    · split
      · exact .ok _
      · exact .error trivial

theorem refusesLocally_parseLabel (token : String) : RefusesLocally (parseLabel token) := by
  unfold parseLabel
  split
  · exact .error trivial
  · exact .error trivial
  · split
    · exact .ok _
    · exact .error trivial

theorem ComputeText.refusesLocally_split (token : String) : RefusesLocally (split token) := by
  rw [split_eq]
  split
  · exact .error trivial
  · split
    · exact .ok _
    · exact .ok _
    · exact .ok _
    · exact .error trivial

theorem Field.refusesLocally_check {α : Type} (field : Field) (text : String)
    (result : Except MnemonicError α) : RefusesLocally (field.check text result) := by
  cases result with
  | ok a => exact .ok a
  | error _ => exact .error trivial

theorem Code.refusesLocally_parseCompute (token : String) :
    RefusesLocally (parseCompute token) := by
  refine .bind (ComputeText.refusesLocally_split token) fun text => ?_
  refine .bind (Field.refusesLocally_check _ _ _) fun dest => ?_
  refine .bind (Field.refusesLocally_check _ _ _) fun comp => ?_
  refine .bind (Field.refusesLocally_check _ _ _) fun jump => ?_
  exact .ok _

theorem Statement.refusesLocally_parse (token : String) : RefusesLocally (parse token) := by
  unfold parse
  split
  · exact .bind (Operand.refusesLocally_parse _) fun operand => .ok _
  · exact .bind (refusesLocally_parseLabel _) fun name => .ok _
  · exact .bind (Code.refusesLocally_parseCompute _) fun code => .ok _

end HackAssembler
