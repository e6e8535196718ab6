-- SUMMARY: Consistent renaming: the words of a source do not depend on how its names are spelled.
import Mathlib.Data.List.Forall2
import Mathlib.Logic.Equiv.Basic
import HackAssembler.Proofs.Assembly.Relabelling
import HackAssembler.Proofs.Assembly.Specification

/-!
# Renaming

A renaming takes names to other names, keeps different names different and leaves the
predefined ones alone. If each line of a source is written again with the names replaced, the
new source assembles to the same words. Its table is the old one under the new names, and if
the source has errors, they are the old ones under the new names.
-/

/-! ## Lists -/

namespace List

/-- Lists whose elements are related one by one have related things at the same places. -/
theorem filterMap_zipIdx_of_forall₂ {α β : Type} {R : α → α → Prop} {f : α × Nat → Option β}
    {g : β → β} (hf : ∀ a b n, R a b → f (b, n) = (f (a, n)).map g) {xs ys : List α}
    (h : List.Forall₂ R xs ys) (n : Nat) :
    (ys.zipIdx n).filterMap f = ((xs.zipIdx n).filterMap f).map g := by
  induction h generalizing n with
  | nil => rfl
  | @cons a b xs ys hab _ ih =>
    rw [List.zipIdx_cons, List.zipIdx_cons, List.filterMap_cons, List.filterMap_cons,
      hf a b n hab, ih]
    cases f (a, n) <;> rfl

end List

namespace HackAssembler

/-- A map of names that keeps different names different and the predefined ones as they are. -/
structure IsRenaming (r : String → String) : Prop where
  injOn : Set.InjOn r {name | IsName name}
  predefined_eq : ∀ name ∈ Memory.predefined.map Prod.fst, r name = name

/-- The second line says what the first one says with its name replaced. Neither is refused. -/
inductive Line.Renamed (r : String → String) (line other : String) : Prop where
  | blank (hline : normalize line = "") (hother : normalize other = "")
  | statement {s : Statement} (hline : normalize line ≠ "") (hother : normalize other ≠ "")
      (hparse : Statement.parse (normalize line) = .ok s)
      (hrenamed : Statement.parse (normalize other) =
        .ok (Relabelling.statement { name := r } s))

/-! ## Names -/

theorem IsRenaming.faithful {r : String → String} (hr : IsRenaming r) :
    Relabelling.Faithful { name := r } {name | IsName name} where
  injOn := hr.injOn
  predefined_mem _ := isName_of_mem_predefined
  predefined_eq := hr.predefined_eq

theorem Statement.Written.isName {s : Statement} {token name : String} (h : Written s token)
    (hname : s.name? = some name) : IsName name := by
  cases h with
  | label h =>
    obtain rfl := Option.some.inj hname
    exact h
  | address hoperand =>
    cases hoperand with
    | literal => cases hname
    | symbol h =>
      obtain rfl := Option.some.inj hname
      exact h
  | compute => cases hname
  | store => cases hname
  | branch => cases hname

theorem isName_of_mem_readings {lines : List String} {r : Reading} (hr : r ∈ readings lines) :
    r.Within {name | IsName name} := by
  intro s name hs hname
  obtain ⟨⟨raw, line⟩, -, hreading⟩ := List.mem_filterMap.mp hr
  simp only [Option.ite_none_left_eq_some, Option.some.injEq] at hreading
  obtain ⟨-, rfl⟩ := hreading
  exact (Statement.written_of_parse hs).isName hname

/-! ## Lines -/

theorem readings_of_renamed {r : String → String} {lines others : List String}
    (h : List.Forall₂ (Line.Renamed r) lines others) :
    readings others = (readings lines).map (Relabelling.reading { name := r }) := by
  refine List.filterMap_zipIdx_of_forall₂ ?_ h 0
  intro line other n hline
  cases hline with
  | blank hline hother => simp [hline, hother]
  | statement hline hother hparse hrenamed =>
    simp only [hline, hother, if_false, hparse, hrenamed, Option.map_some]
    rfl

/-- A source and its renamed twin both assemble or both fail. They have the same words, and the
table or the errors of the second are those of the first with the names replaced. -/
theorem assembleLines_of_renamed {r : String → String} (hr : IsRenaming r)
    {lines others : List String} (h : List.Forall₂ (Line.Renamed r) lines others) :
    Relabelling.Matches { name := r } (Assembly.Relabelled { name := r })
      (assembleLines lines) (assembleLines others) :=
  assembleLines_relabelled hr.faithful (fun _ => isName_of_mem_readings) (readings_of_renamed h)

/-- A loop whose label and variable have changed their names with each other. The table lists them
in the same order as before, the label in front of the variable. -/
theorem assembleLines_of_renamed_swap :
    let r := Equiv.swap "i" "LOOP"
    let lines := ["(LOOP)", "@i", "M=M+1", "// again", "@LOOP", "0;JMP"]
    let others := ["(i)", "@LOOP", "M=M+1", "", "@i", "0;JMP"]
    IsRenaming r ∧ List.Forall₂ (Line.Renamed r) lines others ∧
    ∃ a b, assembleLines lines = .ok a ∧ assembleLines others = .ok b ∧ b.words = a.words ∧
      a.symbols.entries.drop 23 = [("LOOP", ⟨0, .label 0⟩), ("i", ⟨16, .var⟩)] ∧
      b.symbols.entries.drop 23 = [("i", ⟨0, .label 0⟩), ("LOOP", ⟨16, .var⟩)] := by
  intro r lines others
  have hr : IsRenaming r := ⟨r.injective.injOn, by decide⟩
  have hlines : List.Forall₂ (Line.Renamed r) lines others := by
    refine .cons ?_ (.cons ?_ (.cons ?_ (.cons ?_ (.cons ?_ (.cons ?_ .nil)))))
    · exact .statement (s := .label "LOOP") (by decide) (by decide) (by decide) (by decide)
    · exact .statement (s := .code (.address (.symbol "i"))) (by decide) (by decide) (by decide)
        (by decide)
    · exact .statement (s := .code (.compute { m := true } (.yPlusOne .m) .never)) (by decide)
        (by decide) (by decide) (by decide)
    · exact .blank (by decide) (by decide)
    · exact .statement (s := .code (.address (.symbol "LOOP"))) (by decide) (by decide) (by decide)
        (by decide)
    · exact .statement (s := .code (.compute .empty .zero .always)) (by decide) (by decide)
        (by decide) (by decide)
  have hmatches := assembleLines_of_renamed hr hlines
  obtain ⟨a, ha, hentries⟩ := exists_of_map_toOption
    (show (assembleLines lines).toOption.map (·.symbols.entries.drop 23) =
      some [("LOOP", ⟨0, .label 0⟩), ("i", ⟨16, .var⟩)] by decide +kernel)
  rw [ha] at hmatches
  generalize hothers : assembleLines others = result at hmatches
  cases hmatches with
  | @ok a b h =>
    refine ⟨hr, hlines, a, b, ha, rfl, h.words_eq, hentries, ?_⟩
    rw [h.entries_eq, ← List.map_drop, hentries]
    decide

end HackAssembler
