-- SUMMARY: What a line says does not depend on blanks, nor on what stands in its comment.
import HackAssembler.Source.Line

/-!
# Blanks and comments

A line says the same however it is spaced out, and whatever is remarked at its end. The comment
is cut off before the blanks are deleted, so this has one exception each: a blank between the
slashes that open the comment takes them apart, and a single slash at the end of a line opens a
comment together with the first of two that are put behind it.
-/

namespace HackAssembler.Line

/-! ## Comments -/

/-- A text has a comment if two slashes stand in a row somewhere in it. -/
def HasComment (line : List Char) : Prop :=
  ['/', '/'] <:+: line

theorem not_hasComment_nil : ¬ HasComment [] := by
  simp [HasComment]

theorem not_hasComment_singleton (c : Char) : ¬ HasComment [c] := by
  simp [HasComment, List.infix_cons_iff]

theorem hasComment_cons_cons {c d : Char} {rest : List Char} :
    HasComment (c :: d :: rest) ↔ (c = '/' ∧ d = '/') ∨ HasComment (d :: rest) := by
  simp only [HasComment, List.infix_cons_iff (a := c), List.cons_prefix_cons, List.nil_prefix,
    and_true, eq_comm (a := '/')]

/-- What is put behind a comment belongs to it, and two slashes start one behind all other text that
does not end in a slash. -/
theorem code_append_comment {line : List Char}
    (h : HasComment line ∨ line.getLast? ≠ some '/') (comment : List Char) :
    code (line ++ '/' :: '/' :: comment) = code line := by
  induction line with
  | nil => exact code_slash_slash comment
  | cons c line ih =>
    cases line with
    | nil =>
      have hc : ¬ (c = '/' ∧ '/' = '/') := by
        simpa [not_hasComment_singleton] using h
      rw [List.singleton_append, code_cons_cons _ hc, code_slash_slash, code_singleton]
    | cons d line =>
      -- either the comment opens here, or it does not matter what the line starts with
      by_cases hcd : c = '/' ∧ d = '/'
      · obtain ⟨rfl, rfl⟩ := hcd
        rw [List.cons_append, List.cons_append, code_slash_slash, code_slash_slash]
      · rw [hasComment_cons_cons, List.getLast?_cons_cons] at h
        rw [List.cons_append, List.cons_append, code_cons_cons _ hcd, code_cons_cons _ hcd]
        exact congrArg (c :: ·) (ih (h.imp_left (Or.resolve_left · hcd)))

/-! ## Blanks -/

/-- The characters of a line that it says. -/
def said (line : List Char) : List Char :=
  (code line).filter (!Text.isBlank ·)

theorem normalize_eq (line : String) : normalize line = String.ofList (said line.toList) := rfl

theorem isBlank_of_mem_said {line : List Char} {c : Char} (h : c ∈ said line) :
    Text.isBlank c = false := by
  simpa using (List.mem_filter.mp h).2

theorem said_slash_slash (rest : List Char) : said ('/' :: '/' :: rest) = [] := by
  rw [said, code_slash_slash, List.filter_nil]

theorem said_cons_cons {c d : Char} (rest : List Char) (h : ¬ (c = '/' ∧ d = '/')) :
    said (c :: d :: rest) = said [c] ++ said (d :: rest) := by
  rw [said, code_cons_cons rest h, ← List.singleton_append, List.filter_append]
  rfl

section Blank

variable {c : Char}

theorem ne_slash_of_isBlank (hc : Text.isBlank c = true) : c ≠ '/' := by
  rintro rfl
  revert hc
  decide

theorem said_cons_of_isBlank (hc : Text.isBlank c = true) (line : List Char) :
    said (c :: line) = said line := by
  have hblank : said [c] = [] := by simp [said, hc]
  cases line with
  | nil => exact hblank
  | cons d line =>
    rw [said_cons_cons line fun h => ne_slash_of_isBlank hc h.1, hblank, List.nil_append]

/-- Whether the place between two parts of a line lies in between the two slashes that open its
comment. -/
structure SplitsOpener (before after : List Char) : Prop where
  first : before.getLast? = some '/'
  second : after.head? = some '/'
  /-- The comment is not open before. -/
  fresh : ¬ HasComment before

theorem SplitsOpener.cons {d : Char} {before after : List Char} (h : SplitsOpener before after)
    (hfresh : ¬ HasComment (d :: before)) : SplitsOpener (d :: before) after where
  first := by
    cases before with
    | nil => cases h.first
    | cons e before => rw [List.getLast?_cons_cons, h.first]
  second := h.second
  fresh := hfresh

theorem said_insert (hc : Text.isBlank c = true) {before after : List Char}
    (h : ¬ SplitsOpener before after) : said (before ++ c :: after) = said (before ++ after) := by
  -- two characters are looked at in each step, so the case of a single one is one of its own
  induction before with
  | nil => exact said_cons_of_isBlank hc after
  | cons d before ih =>
    cases before with
    | nil =>
      have hdc : ¬ (d = '/' ∧ c = '/') := fun heq => ne_slash_of_isBlank hc heq.2
      rw [List.singleton_append, List.singleton_append, said_cons_cons after hdc,
        said_cons_of_isBlank hc]
      cases after with
      | nil => exact List.append_nil _
      | cons e after =>
        have hde : ¬ (d = '/' ∧ e = '/') := by
          -- without the blank these two would open a comment, which is the case left out
          rintro ⟨rfl, rfl⟩
          exact h ⟨rfl, rfl, not_hasComment_singleton '/'⟩
        exact (said_cons_cons after hde).symm
    | cons e before =>
      by_cases hde : d = '/' ∧ e = '/'
      · obtain ⟨rfl, rfl⟩ := hde
        exact (said_slash_slash _).trans (said_slash_slash _).symm
      · have hrest : ¬ SplitsOpener (e :: before) after := fun hsplit =>
          h (hsplit.cons (mt hasComment_cons_cons.mp (not_or.mpr ⟨hde, hsplit.fresh⟩)))
        have hsaid := ih hrest
        simp only [List.cons_append] at hsaid ⊢
        rw [said_cons_cons _ hde, said_cons_cons _ hde, hsaid]

end Blank

/-! ## Lines -/

/-- A blank may stand anywhere in a line but between the slashes that open its comment, a comment
may be put behind every line that has one or does not end in a slash, and no blank is left in what a
line says. -/
theorem normalize_ignores_blanks_and_comments :
    (∀ (before after : String) (c : Char), Text.isBlank c = true →
      ¬ SplitsOpener before.toList after.toList →
      normalize (before ++ String.singleton c ++ after) = normalize (before ++ after)) ∧
    (∀ line comment : String, HasComment line.toList ∨ line.toList.getLast? ≠ some '/' →
      normalize (line ++ "//" ++ comment) = normalize line) ∧
    (∀ line : String, ∀ c ∈ (normalize line).toList, Text.isBlank c = false) := by
  refine ⟨?_, ?_, ?_⟩
  · intro before after c hc h
    have hsaid := said_insert hc h
    simp [normalize_eq, hsaid]
  · intro line comment h
    have hcode := code_append_comment h comment.toList
    simp [normalize, hcode]
  · intro line c hc
    rw [normalize_eq, String.toList_ofList] at hc
    exact isBlank_of_mem_said hc

end HackAssembler.Line
