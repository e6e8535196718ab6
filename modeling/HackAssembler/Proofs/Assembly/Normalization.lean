-- SUMMARY: Lines that are normalized twice: when the second time changes nothing, and that it never matters to a program.
import HackAssembler.Proofs.Assembly.Labels
import HackAssembler.Proofs.Source.Comments
import HackAssembler.Proofs.Source.Printing

/-!
# Normalizing twice

What a line says may be taken for a line itself. It says the same again unless two slashes have
met in it because the blanks between them are gone: these open a comment, and what is behind them
is lost. No statement has a slash in it, so this befalls lines only that are refused anyway, and
the lines of a program may be replaced by what they say.
-/

namespace HackAssembler

namespace Line

/-! ## Comments that are not there -/

theorem code_isPrefix (line : List Char) : code line <+: line := by
  unfold code
  split
  · exact List.take_prefix _ line
  · exact List.prefix_rfl

theorem code_eq_self_iff {line : List Char} : code line = line ↔ ¬ HasComment line := by
  induction line with
  | nil => simp [not_hasComment_nil]
  | cons c line ih =>
    cases line with
    | nil => simp [not_hasComment_singleton]
    | cons d line =>
      rw [hasComment_cons_cons, not_or]
      by_cases hcd : c = '/' ∧ d = '/'
      · obtain ⟨rfl, rfl⟩ := hcd
        simp
      · rw [code_cons_cons _ hcd, List.cons_inj_right, ih]
        simp only [hcd, not_false_eq_true, true_and]

/-! ## Slashes that meet -/

/-- Two slashes with nothing but blanks between them. They meet once the blanks are deleted. -/
def SlashesMeet (line : List Char) : Prop :=
  ∃ blanks, (∀ c ∈ blanks, Text.isBlank c = true) ∧ '/' :: (blanks ++ ['/']) <:+: line

theorem hasComment_filter_iff {line : List Char} :
    HasComment (line.filter (!Text.isBlank ·)) ↔ SlashesMeet line := by
  constructor
  · -- the two slashes are found in the line one after the other, with what lay between them
    rintro ⟨front, rest, heq⟩
    rw [List.append_assoc, eq_comm, List.filter_eq_append_iff] at heq
    obtain ⟨before, opened, rfl, -, hopened⟩ := heq
    obtain ⟨skipped, closed, rfl, -, -, hclosed⟩ := List.filter_eq_cons_iff.mp hopened
    obtain ⟨blanks, after, rfl, hblanks, -, -⟩ := List.filter_eq_cons_iff.mp hclosed
    refine ⟨blanks, ?_, before ++ skipped, after, ?_⟩
    · intro c hc
      simpa using hblanks c hc
    · simp
  · rintro ⟨blanks, hblanks, before, after, rfl⟩
    have hgone : blanks.filter (!Text.isBlank ·) = [] := by simpa using hblanks
    have hslash : Text.isBlank '/' = false := by decide
    refine ⟨before.filter (!Text.isBlank ·), after.filter (!Text.isBlank ·), ?_⟩
    simp [hgone, hslash]

theorem hasComment_said_iff {line : List Char} :
    HasComment (said line) ↔ SlashesMeet (code line) :=
  hasComment_filter_iff

/-- No blanks are left for the second time, so that it can only cut a comment off. -/
theorem said_said (line : List Char) : said (said line) = code (said line) := by
  refine List.filter_eq_self.mpr fun c hc => ?_
  have hsaid : c ∈ said line := (code_isPrefix (said line)).subset hc
  rw [isBlank_of_mem_said hsaid]
  rfl

theorem normalize_normalize_iff {line : String} :
    normalize (normalize line) = normalize line ↔ ¬ HasComment (normalize line).toList := by
  rw [normalize_eq, normalize_eq, String.ofList_inj, String.toList_ofList, said_said,
    code_eq_self_iff]

/-- What a line says is its own text if it is a statement. -/
theorem normalize_normalize_of_parse {line : String} {s : Statement}
    (h : Statement.parse (normalize line) = .ok s) : normalize (normalize line) = normalize line :=
  normalize_of_plain (Statement.written_of_parse h).plain

end Line

/-! ## Programs -/

theorem readings_map_normalize {lines : List String} (h : Source.WellLabelled lines) :
    readings (lines.map Line.normalize) = readings lines := by
  unfold readings
  rw [List.zipIdx_map, List.filterMap_map]
  apply List.filterMap_congr
  rintro ⟨raw, line⟩ hmem
  have hraw : raw ∈ lines := List.fst_mem_of_mem_zipIdx hmem
  have htwice : Line.normalize (Line.normalize raw) = Line.normalize raw := by
    by_cases htoken : Line.normalize raw = ""
    · rw [htoken]
      decide
    · obtain ⟨s, hs⟩ := h.readable raw hraw htoken
      exact Line.normalize_normalize_of_parse hs
  simp only [Function.comp_apply, Prod.map_apply, id_eq, htwice]

theorem Program.ofLines_map_normalize {lines : List String} {p : Program}
    (h : Program.ofLines lines = .ok p) : Program.ofLines (lines.map Line.normalize) = .ok p := by
  have hlabelled := (Program.holds_of_ofLines h).wellLabelled
  rwa [ofLines_eq_program, readings_map_normalize hlabelled]

/-- Normalizing is idempotent on a line exactly if no comment is opened in what the line says, which
is to say that no two slashes in front of its own comment have only blanks between them. It is so on
every line that holds a statement, and a program stays the same, line numbers included, if each of
its lines is normalized beforehand. -/
theorem normalize_twice :
    (∀ line : String,
      (Line.normalize (Line.normalize line) = Line.normalize line ↔
        ¬ Line.HasComment (Line.normalize line).toList) ∧
      (¬ Line.HasComment (Line.normalize line).toList ↔
        ¬ Line.SlashesMeet (Line.code line.toList))) ∧
    (∀ (line : String) (s : Statement), Statement.parse (Line.normalize line) = .ok s →
      Line.normalize (Line.normalize line) = Line.normalize line) ∧
    (∀ (lines : List String) (p : Program), Program.ofLines lines = .ok p →
      Program.ofLines (lines.map Line.normalize) = .ok p) := by
  refine ⟨fun line => ⟨Line.normalize_normalize_iff, ?_⟩, ?_, ?_⟩
  · rw [Line.normalize_eq, String.toList_ofList, Line.hasComment_said_iff]
  · exact fun line s => Line.normalize_normalize_of_parse
  · exact fun lines p => Program.ofLines_map_normalize

/-- The slashes of the one line meet. The others are those of a loop, and they say the same again. -/
theorem normalize_twice_loop :
    let lines := ["( LOOP ) // again", "", "@ i", "M = M + 1", "\t@LOOP\r", "0; JMP"]
    Line.normalize (Line.normalize "@i / // next") = Line.normalize "@i / // next" ∧
    Line.normalize (Line.normalize "@i / /next") ≠ Line.normalize "@i / /next" ∧
    ∃ p, Program.ofLines lines = .ok p ∧
      lines.map Line.normalize = ["(LOOP)", "", "@i", "M=M+1", "@LOOP", "0;JMP"] ∧
      Program.ofLines (lines.map Line.normalize) = .ok p := by
  intro lines
  obtain ⟨hidempotent, -, hprogram⟩ := normalize_twice
  have hapart : ¬ Line.HasComment (Line.normalize "@i / // next").toList := by
    unfold Line.HasComment
    decide
  have hmeet : Line.SlashesMeet (Line.code "@i / /next".toList) :=
    ⟨[' '], List.forall_mem_singleton.mpr (by decide), ['@', 'i', ' '], "next".toList, by decide⟩
  have hok : Program.ofLines lines = .ok ⟨_, _⟩ :=
    (Program.ofLines_eq lines).trans (if_pos (by decide +kernel))
  refine ⟨(hidempotent _).1.mpr hapart, ?_, _, hok, by decide, hprogram lines _ hok⟩
  exact fun htwice => (hidempotent _).2.mp ((hidempotent _).1.mp htwice) hmeet

end HackAssembler
