-- SUMMARY: The shapes of a compute instruction: the fields put together, and the one way to take them apart again.
import HackAssembler.Proofs.Source.Diagnoses

/-!
# Shapes of a compute instruction

Beside the computation, a destination or a jump or both are written. The fields are put together
with a separator between each two. No field holds a separator, so the two separators of a token
tell its shape, and the shape tells where the fields are: nothing is lost between the fields and
the token.
-/

namespace HackAssembler.ComputeText

/-- Which fields are written beside the computation. -/
inductive Shape where
  | full
  | store
  | branch
  deriving DecidableEq, Repr

namespace Shape

variable {shape : Shape} {text : ComputeText}

/-- Put the written fields together. -/
def join : Shape → ComputeText → String
  | full, text => text.dest ++ "=" ++ text.comp ++ ";" ++ text.jump
  | store, text => text.dest ++ "=" ++ text.comp
  | branch, text => text.comp ++ ";" ++ text.jump

/-- Each written field is a piece of its own, and a field that is left out reads `null`. -/
def Fits : Shape → ComputeText → Prop
  | full, text => Piece text.dest ∧ Piece text.comp ∧ Piece text.jump
  | store, text => Piece text.dest ∧ Piece text.comp ∧ text.jump = "null"
  | branch, text => text.dest = "null" ∧ Piece text.comp ∧ Piece text.jump

/-- The shape that the separators of a token show. -/
def of (token : String) : Shape :=
  if '=' ∈ token.toList then
    if ';' ∈ token.toList then full else store
  else branch

theorem of_join (h : shape.Fits text) : of (shape.join text) = shape := by
  cases shape with
  | full => simp [of, join]
  | store =>
    obtain ⟨hdest, hcomp, -⟩ := h
    simp [of, join, hdest.no_semicolon, hcomp.no_semicolon]
  | branch =>
    obtain ⟨-, hcomp, hjump⟩ := h
    simp [of, join, hcomp.no_equals, hjump.no_equals]

end Shape

variable {text : ComputeText} {token : String}

theorem written_iff_join :
    Written text token ↔ ∃ shape : Shape, shape.Fits text ∧ shape.join text = token := by
  constructor
  · intro h
    cases h with
    | full hdest hcomp hjump => exact ⟨.full, ⟨hdest, hcomp, hjump⟩, rfl⟩
    | store hdest hcomp => exact ⟨.store, ⟨hdest, hcomp, rfl⟩, rfl⟩
    | branch hcomp hjump => exact ⟨.branch, ⟨rfl, hcomp, hjump⟩, rfl⟩
  · rintro ⟨shape, hfits, rfl⟩
    obtain ⟨dest, comp, jump⟩ := text
    cases shape with
    | full =>
      obtain ⟨hdest, hcomp, hjump⟩ := hfits
      exact .full hdest hcomp hjump
    | store =>
      obtain ⟨hdest, hcomp, rfl⟩ := hfits
      exact .store hdest hcomp
    | branch =>
      obtain ⟨rfl, hcomp, hjump⟩ := hfits
      exact .branch hcomp hjump

theorem split_join {shape : Shape} (h : shape.Fits text) : split (shape.join text) = .ok text :=
  split_eq_ok_iff.mpr (written_iff_join.mpr ⟨shape, h, rfl⟩)

/-- A token can be put together in one way at most. -/
theorem Shape.join_injective {shape shape' : Shape} {text' : ComputeText} (h : shape.Fits text)
    (h' : shape'.Fits text') (heq : shape.join text = shape'.join text') :
    shape = shape' ∧ text = text' := by
  have hshape : shape = shape' := by
    rw [← of_join h, heq, of_join h']
  have htext : Except.ok text = Except.ok (ε := SourceError) text' := by
    rw [← split_join h, heq, split_join h']
  exact ⟨hshape, Except.ok.inj htext⟩

/-- A token is split exactly if it is put together from fields in one of the shapes, and any other token
is refused as a whole. Put together again in the shape that the separators show, the fields make
the token, and no other fields and no other shape do. -/
theorem split_takes_apart (token : String) :
    (∀ text, split token = .ok text ↔ ∃ shape : Shape, shape.Fits text ∧ shape.join text = token) ∧
    (∀ error, split token = .error error ↔
      error = .malformedCompute token ∧
        ∀ (shape : Shape) text, shape.Fits text → shape.join text ≠ token) ∧
    (∀ text, split token = .ok text → (Shape.of token).join text = token) ∧
    ∀ (shape shape' : Shape) text text', shape.Fits text → shape'.Fits text' →
      shape.join text = token → shape'.join text' = token → shape = shape' ∧ text = text' := by
  refine ⟨fun text => ?_, fun error => ?_, fun text h => ?_, ?_⟩
  · rw [split_eq_ok_iff, written_iff_join]
  · simp only [split_eq_error_iff, written_iff_join, not_exists, not_and]
    rw [and_comm, forall_comm]
  · obtain ⟨shape, hfits, rfl⟩ := written_iff_join.mp (split_eq_ok_iff.mp h)
    rw [Shape.of_join hfits]
  · intro shape shape' text text' h h' hjoin hjoin'
    exact Shape.join_injective h h' (hjoin.trans hjoin'.symm)

theorem split_takes_apart_decrement :
    let text : ComputeText := { dest := "AM", comp := "M-1", jump := "JNE" }
    split "AM=M-1;JNE" = .ok text ∧ Shape.join (.of "AM=M-1;JNE") text = "AM=M-1;JNE" ∧
      ∀ (shape : Shape) other, shape.Fits other → shape.join other = "AM=M-1;JNE" →
        shape = .full ∧ other = text := by
  intro text
  obtain ⟨hsplit, -, hjoin, hunique⟩ := split_takes_apart "AM=M-1;JNE"
  have hfits : Shape.full.Fits text :=
    ⟨⟨⟨by decide, by decide⟩, by decide⟩, ⟨⟨by decide, by decide⟩, by decide⟩,
      ⟨⟨by decide, by decide⟩, by decide⟩⟩
  have htoken : Shape.full.join text = "AM=M-1;JNE" := by decide
  have hok : split "AM=M-1;JNE" = .ok text := (hsplit text).mpr ⟨.full, hfits, htoken⟩
  exact ⟨hok, hjoin text hok, fun shape other h h' => hunique shape .full other text h hfits h' htoken⟩

end HackAssembler.ComputeText
