-- SUMMARY: The layout of a source: only the numbers of its lines depend on it.
import HackAssembler.Proofs.Assembly.Relabelling
import HackAssembler.Proofs.Assembly.Specification
import HackAssembler.Proofs.Source.Refusals

/-!
# Layout

Blank lines, comments and blanks within a line are layout. What is left of a source without
them is its tokens in order, and the passes see nothing else. So two sources with the same
tokens are the same source under other line numbers, and they assemble alike: to the same
words, or to the same report with each line number replaced by that of the same token.
-/

/-! ## Lists -/

namespace List

/-- A list without repetitions is mapped to any list of its length. -/
theorem exists_map_eq_of_nodup {α β : Type} [DecidableEq α] [Inhabited β] {xs : List α}
    {ys : List β} (hxs : xs.Nodup) (hlength : xs.length = ys.length) :
    ∃ f : α → β, xs.map f = ys := by
  refine ⟨fun a => ys.getD (xs.idxOf a) default, ?_⟩
  apply List.ext_getElem
  · rw [List.length_map, hlength]
  · intro i hi hi'
    rw [List.length_map] at hi
    simp [hxs.idxOf_getElem i hi, hi']

end List

namespace HackAssembler

/-! ## Tokens -/

/-- What the lines of a source say. Lines that say nothing are left out. -/
def tokens (lines : List String) : List (Located String) :=
  lines.zipIdx.filterMap fun (raw, line) =>
    let token := Line.normalize raw
    if token = "" then none else some ⟨line, token⟩

example : tokens ["// start", " @i ", "", "M = M + 1 // next"] = [⟨1, "@i"⟩, ⟨3, "M=M+1"⟩] := by
  decide

/-- The first pass reads the tokens of a source and nothing else. -/
theorem readings_eq_map_tokens (lines : List String) :
    readings lines = (tokens lines).map fun t => ⟨t.line, Statement.parse t.item⟩ := by
  unfold readings tokens
  rw [List.map_filterMap]
  apply List.filterMap_congr
  rintro ⟨raw, line⟩ -
  by_cases htoken : Line.normalize raw = "" <;> simp [htoken]

theorem nodup_lines_tokens (lines : List String) : ((tokens lines).map Located.line).Nodup := by
  have hnumbers : lines.zipIdx.Pairwise fun a b => a.2 < b.2 := by
    rw [← List.pairwise_map, List.zipIdx_map_snd]
    exact List.pairwise_lt_range'
  have htokens : (tokens lines).Pairwise fun a b => a.line < b.line := by
    refine hnumbers.filterMap _ ?_
    rintro ⟨raw, i⟩ ⟨raw', j⟩ hlt t ht t' ht'
    simp only [Option.ite_none_left_eq_some, Option.some.injEq] at ht ht'
    obtain ⟨-, rfl⟩ := ht
    obtain ⟨-, rfl⟩ := ht'
    exact hlt
  exact (List.pairwise_map.mpr htokens).imp Nat.ne_of_lt

/-! ## Renumbering -/

theorem Relabelling.code_line (ρ : Nat → Nat) (c : Code) : code { line := ρ } c = c := by
  match c with
  | .address (.literal value) => rfl
  | .address (.symbol name) => rfl
  | .compute dest comp jump => rfl

/-- What a token is read as does not depend on its line. -/
theorem Relabelling.result_parse (ρ : Nat → Nat) (token : String) :
    result { line := ρ } (statement { line := ρ }) (Statement.parse token) =
      Statement.parse token := by
  cases hparse : Statement.parse token with
  | ok s =>
    match s with
    | .label name => rfl
    | .code c => exact congrArg (fun c => Except.ok (Statement.code c)) (code_line ρ c)
  | error e =>
    have hlocal := Statement.refusesLocally_parse token e hparse
    cases e with
    | duplicateLabel name first => exact hlocal.elim
    | _ => rfl

theorem Relabelling.faithful_line (ρ : Nat → Nat) : Faithful { line := ρ } Set.univ where
  injOn := Set.injOn_id _
  predefined_mem _ _ := Set.mem_univ _
  predefined_eq _ _ := rfl

theorem readings_eq_map_reading {lines others : List String} {ρ : Nat → Nat}
    (htokens : (tokens lines).map Located.item = (tokens others).map Located.item)
    (hlines : ((tokens lines).map Located.line).map ρ = (tokens others).map Located.line) :
    readings others = (readings lines).map (Relabelling.reading { line := ρ }) := by
  have hothers : tokens others = (tokens lines).map fun t => ⟨ρ t.line, t.item⟩ := by
    apply List.ext_getElem?
    intro i
    have hitem := congrArg (·[i]?) htokens
    have hline := congrArg (·[i]?) hlines
    simp only [List.getElem?_map] at hitem hline ⊢
    cases hs : (tokens lines)[i]? with
    | none => simpa [hs, eq_comm (a := none)] using hitem
    | some s =>
      cases ht : (tokens others)[i]? with
      | none => simp [hs, ht] at hitem
      | some t =>
        simp only [hs, ht, Option.map_some, Option.some.injEq] at hitem hline
        simp [hitem, hline]
  rw [readings_eq_map_tokens, readings_eq_map_tokens, hothers, List.map_map, List.map_map]
  refine List.map_congr_left fun t _ => ?_
  exact congrArg (Located.mk (ρ t.line)) (Relabelling.result_parse ρ t.item).symm

/-- Sources with the same tokens assemble alike. There is a renumbering that takes the line of each
token to the line of the same token in the other source, and every such renumbering takes the
outcome of the one run to the outcome of the other: the same words, and the same code, table or
errors but for the lines in them. -/
theorem assembleLines_of_same_tokens {lines others : List String}
    (h : (tokens lines).map Located.item = (tokens others).map Located.item) :
    (∃ ρ : Nat → Nat,
      ((tokens lines).map Located.line).map ρ = (tokens others).map Located.line) ∧
    ∀ ρ : Nat → Nat, ((tokens lines).map Located.line).map ρ = (tokens others).map Located.line →
      Relabelling.Matches { line := ρ } (Assembly.Relabelled { line := ρ })
        (assembleLines lines) (assembleLines others) := by
  constructor
  · refine List.exists_map_eq_of_nodup (nodup_lines_tokens lines) ?_
    simpa using congrArg List.length h
  · intro ρ hlines
    refine assembleLines_relabelled (Relabelling.faithful_line ρ) ?_
      (readings_eq_map_reading h hlines)
    exact fun _ _ _ name _ _ => Set.mem_univ name

/-- The second label `L` is reported in both sources of the first pair, each time with the lines of that
source. Those of the second pair assemble to the same words and the same addresses, and only the lines
of their code and of the label differ. -/
theorem assembleLines_of_same_tokens_spaced :
    (let lines := ["@L", "(L)", "(L)", "0;JMP"]
    let others := ["// twice", "@ L // to the first", "\t(L)\r", "", "( L )", "0; JMP"]
    let ρ := fun line => [1, 2, 4, 5].getD line 0
    (tokens lines).map Located.item = (tokens others).map Located.item ∧
    ((tokens lines).map Located.line).map ρ = (tokens others).map Located.line ∧
    Relabelling.Matches { line := ρ } (Assembly.Relabelled { line := ρ })
      (assembleLines lines) (assembleLines others) ∧
    assembleLines lines = .error [⟨2, .duplicateLabel "L" (some 1)⟩] ∧
    assembleLines others = .error [⟨4, .duplicateLabel "L" (some 2)⟩]) ∧
    let lines := ["@L", "(L)", "@x", "0;JMP"]
    let others := ["// once", "@ L // ahead", "\t(L)\r", "", "@x", "0; JMP"]
    let ρ := fun line => [1, 2, 4, 5].getD line 0
    (tokens lines).map Located.item = (tokens others).map Located.item ∧
    ((tokens lines).map Located.line).map ρ = (tokens others).map Located.line ∧
    ∃ a b, assembleLines lines = .ok a ∧ assembleLines others = .ok b ∧
      a.words = [1, 16, 0xEA87] ∧ b.words = [1, 16, 0xEA87] ∧
      a.code.map Located.line = [0, 2, 3] ∧ b.code.map Located.line = [1, 4, 5] ∧
      b.code.map Located.item = a.code.map Located.item ∧
      a.symbols.entries.drop 23 = [("L", ⟨1, .label 1⟩), ("x", ⟨16, .var⟩)] ∧
      b.symbols.entries.drop 23 = [("L", ⟨1, .label 2⟩), ("x", ⟨16, .var⟩)] := by
  constructor
  · intro lines others ρ
    have htokens : (tokens lines).map Located.item = (tokens others).map Located.item := by decide
    have hlines : ((tokens lines).map Located.line).map ρ = (tokens others).map Located.line := by
      decide
    have hmatches := (assembleLines_of_same_tokens htokens).2 ρ hlines
    have hprogram : Program.ofLines lines = .error [⟨2, .duplicateLabel "L" (some 1)⟩] := by
      rw [Program.ofLines_eq, if_neg (by decide +kernel)]
      exact congrArg Except.error (by decide +kernel)
    have herror : assembleLines lines = .error [⟨2, .duplicateLabel "L" (some 1)⟩] := by
      rw [assembleLines_eq, hprogram]
      rfl
    refine ⟨htokens, hlines, hmatches, herror, ?_⟩
    rw [herror] at hmatches
    generalize assembleLines others = result at hmatches ⊢
    cases hmatches
    rfl
  · intro lines others ρ
    have htokens : (tokens lines).map Located.item = (tokens others).map Located.item := by decide
    have hlines : ((tokens lines).map Located.line).map ρ = (tokens others).map Located.line := by
      decide
    have hmatches := (assembleLines_of_same_tokens htokens).2 ρ hlines
    obtain ⟨a, ha, hshown⟩ := exists_of_map_toOption
      (show (assembleLines lines).toOption.map (fun a =>
          (a.words, a.code.map Located.line, a.symbols.entries.drop 23)) =
        some ([1, 16, 0xEA87], [0, 2, 3], [("L", ⟨1, .label 1⟩), ("x", ⟨16, .var⟩)]) by
          decide +kernel)
    simp only [Prod.mk.injEq] at hshown
    obtain ⟨hwords, hcode, hentries⟩ := hshown
    rw [ha] at hmatches
    generalize hothers : assembleLines others = result at hmatches
    cases hmatches with
    | @ok a b h =>
      -- nothing is computed for the second source: all of it is told from the first one
      refine ⟨htokens, hlines, a, b, ha, rfl, hwords, h.words_eq.trans hwords, hcode, ?_, ?_,
        hentries, ?_⟩
      · have hrenumbered : b.code.map Located.line = (a.code.map Located.line).map ρ := by
          simp [h.code_eq, Relabelling.located]
        rw [hrenumbered, hcode]
        decide
      · simp [h.code_eq, Relabelling.located, Relabelling.code_line]
      · rw [h.entries_eq, ← List.map_drop, hentries]
        decide

end HackAssembler
