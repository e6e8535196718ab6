-- SUMMARY: Texts cut at a character: what the pieces are, with or without blanks around them, and the lines of a text read back.
import HackAssembler.Text.Blank
import HackAssembler.Text.Lines
import Mathlib.Data.List.DropRight

/-!
# Pieces of a text

A text is cut at a character into pieces that do not contain it. There is one way only to do
so, and hence to cut a text into lines: rows that are written below each other, each ended by
a line feed, are the lines of the text that they make.
-/

/-! ## Pieces of a list -/

namespace List

variable {α : Type} [BEq α] [LawfulBEq α] {a : α} {l : List α}

theorem not_mem_of_mem_splitOn {piece : List α} (h : piece ∈ l.splitOn a) : a ∉ piece := by
  induction l generalizing piece with
  | nil =>
    obtain rfl : piece = [] := by simpa using h
    exact List.not_mem_nil
  | cons b l ih =>
    rw [splitOn_cons_eq_if_modifyHead] at h
    by_cases hb : b == a
    · rw [if_pos hb, mem_cons] at h
      rcases h with rfl | h
      · exact List.not_mem_nil
      · exact ih h
    · rw [if_neg hb] at h
      obtain ⟨first, rest, hsplit⟩ := exists_cons_of_ne_nil (splitOn_ne_nil a l)
      rw [hsplit, modifyHead_cons, mem_cons] at h
      rcases h with rfl | h
      · rw [mem_cons, not_or]
        have hfirst : a ∉ first := ih (by rw [hsplit]; exact mem_cons_self)
        exact ⟨fun heq => hb (by simp [heq]), hfirst⟩
      · exact ih (by rw [hsplit]; exact mem_cons_of_mem _ h)

/-- The pieces of a list are the only lists without the separator that it joins to the list. -/
theorem splitOn_eq_iff {pieces : List (List α)} :
    l.splitOn a = pieces ↔
      pieces ≠ [] ∧ (∀ piece ∈ pieces, a ∉ piece) ∧ l = [a].intercalate pieces := by
  constructor
  · rintro rfl
    exact ⟨splitOn_ne_nil a l, fun _ => not_mem_of_mem_splitOn, (intercalate_splitOn a).symm⟩
  · rintro ⟨hne, hfree, rfl⟩
    exact splitOn_intercalate a hfree hne

theorem splitOn_eq_singleton_iff {x : List α} : l.splitOn a = [x] ↔ a ∉ x ∧ l = x := by
  simp [splitOn_eq_iff]

theorem splitOn_eq_pair_iff {x y : List α} :
    l.splitOn a = [x, y] ↔ (a ∉ x ∧ a ∉ y) ∧ l = x ++ a :: y := by
  simp [splitOn_eq_iff]

omit [BEq α] [LawfulBEq α] in
theorem intercalate_concat (rows : List (List α)) (last : List α) :
    [a].intercalate (rows ++ [last]) = (rows.flatMap fun row => row ++ [a]) ++ last := by
  induction rows with
  | nil => simp
  | cons row rows ih =>
    rw [cons_append, intercalate_cons_of_ne_nil (by simp), ih, flatMap_cons]
    simp only [append_assoc]

/-- Cut off the last piece: each of the others is followed by the separator. -/
theorem splitOn_eq_concat_iff {rows : List (List α)} {last : List α} :
    l.splitOn a = rows ++ [last] ↔
      ((∀ row ∈ rows, a ∉ row) ∧ a ∉ last) ∧ l = (rows.flatMap fun row => row ++ [a]) ++ last := by
  simp [splitOn_eq_iff, intercalate_concat, or_imp, forall_and]

theorem splitOn_flatMap_concat {rows : List (List α)} (h : ∀ row ∈ rows, a ∉ row) :
    (rows.flatMap fun row => row ++ [a]).splitOn a = rows ++ [[]] :=
  splitOn_eq_concat_iff.mpr ⟨⟨h, List.not_mem_nil⟩, (append_nil _).symm⟩

/-- Each separator at the end of a list cuts off an empty piece more. -/
theorem splitOn_append_replicate (l : List α) (n : Nat) :
    (l ++ replicate n a).splitOn a = l.splitOn a ++ replicate n [] := by
  induction n with
  | zero => simp
  | succ n ih =>
    rw [replicate_succ', ← append_assoc, replicate_succ', ← append_assoc, ← ih]
    generalize l ++ replicate n a = front
    obtain ⟨rows, last, hsplit⟩ : ∃ rows last, front.splitOn a = rows ++ [last] :=
      ⟨_, _, (dropLast_concat_getLast (splitOn_ne_nil a front)).symm⟩
    obtain ⟨-, hfront⟩ := splitOn_eq_concat_iff.mp hsplit
    refine splitOn_eq_concat_iff.mpr ⟨⟨fun _ => not_mem_of_mem_splitOn, not_mem_nil⟩, ?_⟩
    rw [hsplit, flatMap_append, flatMap_singleton, append_nil, ← append_assoc, ← hfront]

end List

/-! ## Lines -/

namespace HackAssembler.Text

/-- Rows of text, one below the other, each ended by a line feed. -/
def ofRows (rows : List String) : String :=
  String.join (rows.map (· ++ "\n"))

theorem toList_ofRows (rows : List String) :
    (ofRows rows).toList = (rows.map String.toList).flatMap fun row => row ++ ['\n'] := by
  simp only [ofRows, String.toList_join, List.flatMap_map, String.toList_append]
  rfl

theorem dropReturn_of_getLast? {row : List Char} (h : row.getLast? ≠ some '\r') :
    dropReturn row = row :=
  if_neg h

/-- Rows without line feeds in them, and without returns at their ends, are read back as they were
written. -/
theorem lines_ofRows {rows : List String}
    (hrows : ∀ row ∈ rows, '\n' ∉ row.toList ∧ row.toList.getLast? ≠ some '\r') :
    lines (ofRows rows) = rows := by
  have hsplit : (ofRows rows).toList.splitOn '\n' = rows.map String.toList ++ [[]] := by
    rw [toList_ofRows]
    refine List.splitOn_flatMap_concat ?_
    intro row hrow
    obtain ⟨s, hs, rfl⟩ := List.mem_map.mp hrow
    exact (hrows s hs).1
  have hreturn : (rows.map String.toList).map dropReturn = rows.map String.toList := by
    refine (List.map_congr_left ?_).trans (List.map_id _)
    intro row hrow
    obtain ⟨s, hs, rfl⟩ := List.mem_map.mp hrow
    exact dropReturn_of_getLast? (hrows s hs).2
  simp [lines, hsplit, hreturn]

/-! ## Blanks around pieces -/

theorem trimEnd_eq_rdropWhile (s : List Char) : trimEnd s = s.rdropWhile isBlank := rfl

theorem trim_eq_nil_iff {s : List Char} : trim s = [] ↔ ∀ c ∈ s, isBlank c = true := by
  rw [trim, trimEnd_eq_rdropWhile, List.rdropWhile_eq_nil_iff, ← List.dropWhile_eq_nil_iff,
    List.dropWhile_idempotent, List.dropWhile_eq_nil_iff]

theorem trim_cons_of_isBlank {c : Char} (hc : isBlank c = true) (s : List Char) :
    trim (c :: s) = trim s := by
  rw [trim, List.dropWhile_cons_of_pos hc, trim]

/-- A text without blanks stays as it is, and a space behind it is cut off. -/
theorem trim_of_solid {s : List Char} (h : ∀ c ∈ s, isBlank c = false) :
    trim s = s ∧ trim (s ++ [' ']) = s := by
  have hend : s.rdropWhile isBlank = s :=
    List.rdropWhile_eq_self_iff.mpr fun hne => by simp [h _ (List.getLast_mem hne)]
  cases s with
  | nil => exact ⟨rfl, rfl⟩
  | cons c s =>
    have hc : ¬ isBlank c = true := by simp [h c]
    rw [trim, trim, List.cons_append, List.dropWhile_cons_of_neg hc, List.dropWhile_cons_of_neg hc,
      trimEnd_eq_rdropWhile, trimEnd_eq_rdropWhile, ← List.cons_append,
      List.rdropWhile_concat_pos _ _ _ (by decide), hend]
    exact ⟨rfl, rfl⟩

/-- Texts without blanks are read back from between separators with spaces around them. -/
theorem map_trim_splitOn_intercalate {a : Char} (ha : a ≠ ' ') {rows : List (List Char)}
    (hne : rows ≠ []) (hrows : ∀ row ∈ rows, a ∉ row ∧ ∀ c ∈ row, isBlank c = false) :
    (([' ', a, ' '].intercalate rows).splitOn a).map trim = rows := by
  induction rows with
  | nil => exact absurd rfl hne
  | cons row rows ih =>
    obtain ⟨⟨hfree, hsolid⟩, hrest⟩ := List.forall_mem_cons.mp hrows
    by_cases hlast : rows = []
    · subst hlast
      simp [List.splitOn_eq_singleton hfree, (trim_of_solid hsolid).1]
    · have hjoin : [' ', a, ' '].intercalate (row :: rows) =
          (row ++ [' ']) ++ a :: ' ' :: [' ', a, ' '].intercalate rows := by
        simp [List.intercalate_cons_of_ne_nil hlast]
      have hfree' : a ∉ row ++ [' '] := by simp [hfree, ha]
      -- the space in front of the other pieces belongs to the first of them
      have hspace : ((' ' :: [' ', a, ' '].intercalate rows).splitOn a).map trim = rows := by
        obtain ⟨first, rest, hsplit⟩ := List.exists_cons_of_ne_nil
          (List.splitOn_ne_nil a ([' ', a, ' '].intercalate rows))
        rw [List.splitOn_cons_eq_if_modifyHead, if_neg (by simp [ha.symm]), hsplit,
          List.modifyHead_cons, List.map_cons, trim_cons_of_isBlank (by decide), ← List.map_cons,
          ← hsplit, ih hlast hrest]
      rw [hjoin, List.splitOn_append_cons_self_of_not_mem hfree', List.map_cons,
        (trim_of_solid hsolid).2, hspace]

end HackAssembler.Text
