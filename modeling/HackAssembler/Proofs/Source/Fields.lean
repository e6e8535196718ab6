-- SUMMARY: The fields of a compute instruction: which tokens are cut into which texts.
import HackAssembler.Source.Statement
import HackAssembler.Proofs.Text.Pieces

/-!
# Fields of a compute instruction

A token is cut at its equals signs, and each piece at its semicolons. What comes out tells
how the token was put together: three shapes are accepted, and a token of any other shape,
or with an empty piece, is refused as a whole.
-/

namespace HackAssembler

namespace ComputeText

/-! ## Pieces -/

/-- A text that holds neither of the two separators. -/
structure Unbroken (s : String) : Prop where
  no_equals : '=' ∉ s.toList
  no_semicolon : ';' ∉ s.toList

/-- The pieces of a token between its equals signs, each cut at its semicolons. -/
def pieces (token : String) : List (List String) :=
  (token.toList.splitOn '=').map fun piece => (piece.splitOn ';').map String.ofList

theorem split_eq (token : String) :
    split token =
      if (pieces token).any (·.contains "") then .error (.malformedCompute token)
      else match pieces token with
        | [[dest], [comp, jump]] => .ok { dest, comp, jump }
        | [[dest], [comp]] => .ok { dest, comp }
        | [[comp, jump]] => .ok { comp, jump }
        | _ => .error (.malformedCompute token) := rfl

theorem map_ofList_eq_iff {l : List (List Char)} {s : List String} :
    l.map String.ofList = s ↔ l = s.map String.toList := by
  constructor
  · rintro rfl
    simp
  · rintro rfl
    simp

theorem map_ofList_splitOn_eq_singleton_iff {l : List Char} {s : String} :
    (l.splitOn ';').map String.ofList = [s] ↔ ';' ∉ s.toList ∧ l = s.toList := by
  rw [map_ofList_eq_iff, List.map_singleton, List.splitOn_eq_singleton_iff]

theorem map_ofList_splitOn_eq_pair_iff {l : List Char} {s u : String} :
    (l.splitOn ';').map String.ofList = [s, u] ↔
      (';' ∉ s.toList ∧ ';' ∉ u.toList) ∧ l = s.toList ++ ';' :: u.toList := by
  rw [map_ofList_eq_iff, List.map_cons, List.map_singleton, List.splitOn_eq_pair_iff]

section Shapes

variable {token : String}

theorem pieces_eq_singleton_iff {p : List String} :
    pieces token = [p] ↔
      '=' ∉ token.toList ∧ (token.toList.splitOn ';').map String.ofList = p := by
  simp only [pieces, List.map_eq_cons_iff, List.map_eq_nil_iff]
  constructor
  · rintro ⟨x, _, hsplit, hx, rfl⟩
    obtain ⟨hfree, rfl⟩ := List.splitOn_eq_singleton_iff.mp hsplit
    exact ⟨hfree, hx⟩
  · rintro ⟨hfree, hx⟩
    exact ⟨token.toList, [], List.splitOn_eq_singleton hfree, hx, rfl⟩

theorem pieces_eq_pair_iff {p q : List String} :
    pieces token = [p, q] ↔
      ∃ x y, (('=' ∉ x ∧ '=' ∉ y) ∧ token.toList = x ++ '=' :: y) ∧
        (x.splitOn ';').map String.ofList = p ∧ (y.splitOn ';').map String.ofList = q := by
  simp only [← List.splitOn_eq_pair_iff, pieces, List.map_eq_cons_iff, List.map_eq_nil_iff]
  constructor
  · rintro ⟨x, _, hsplit, hx, y, _, rfl, hy, rfl⟩
    exact ⟨x, y, hsplit, hx, hy⟩
  · rintro ⟨x, y, hsplit, hx, hy⟩
    exact ⟨x, [y], hsplit, hx, y, [], rfl, hy, rfl⟩

variable {dest comp jump : String}

theorem pieces_eq_full_iff :
    pieces token = [[dest], [comp, jump]] ↔
      (Unbroken dest ∧ Unbroken comp ∧ Unbroken jump) ∧
        token = dest ++ "=" ++ comp ++ ";" ++ jump := by
  rw [pieces_eq_pair_iff]
  constructor
  · rintro ⟨x, y, ⟨⟨hx, hy⟩, htoken⟩, hdest, hrest⟩
    obtain ⟨hd, rfl⟩ := map_ofList_splitOn_eq_singleton_iff.mp hdest
    obtain ⟨⟨hc, hj⟩, rfl⟩ := map_ofList_splitOn_eq_pair_iff.mp hrest
    simp only [List.mem_append, List.mem_cons, not_or] at hy
    refine ⟨⟨⟨hx, hd⟩, ⟨hy.1, hc⟩, ⟨hy.2.2, hj⟩⟩, String.toList_injective ?_⟩
    simp [htoken]
  · rintro ⟨⟨hd, hc, hj⟩, rfl⟩
    refine ⟨dest.toList, comp.toList ++ ';' :: jump.toList, ⟨⟨hd.no_equals, ?_⟩, ?_⟩, ?_, ?_⟩
    · simp [hc.no_equals, hj.no_equals]
    · simp
    · exact map_ofList_splitOn_eq_singleton_iff.mpr ⟨hd.no_semicolon, rfl⟩
    · exact map_ofList_splitOn_eq_pair_iff.mpr ⟨⟨hc.no_semicolon, hj.no_semicolon⟩, rfl⟩

theorem pieces_eq_store_iff :
    pieces token = [[dest], [comp]] ↔
      (Unbroken dest ∧ Unbroken comp) ∧ token = dest ++ "=" ++ comp := by
  rw [pieces_eq_pair_iff]
  constructor
  · rintro ⟨x, y, ⟨⟨hx, hy⟩, htoken⟩, hdest, hcomp⟩
    obtain ⟨hd, rfl⟩ := map_ofList_splitOn_eq_singleton_iff.mp hdest
    obtain ⟨hc, rfl⟩ := map_ofList_splitOn_eq_singleton_iff.mp hcomp
    refine ⟨⟨⟨hx, hd⟩, ⟨hy, hc⟩⟩, String.toList_injective ?_⟩
    simp [htoken]
  · rintro ⟨⟨hd, hc⟩, rfl⟩
    refine ⟨dest.toList, comp.toList, ⟨⟨hd.no_equals, hc.no_equals⟩, by simp⟩, ?_, ?_⟩
    · exact map_ofList_splitOn_eq_singleton_iff.mpr ⟨hd.no_semicolon, rfl⟩
    · exact map_ofList_splitOn_eq_singleton_iff.mpr ⟨hc.no_semicolon, rfl⟩

theorem pieces_eq_branch_iff :
    pieces token = [[comp, jump]] ↔
      (Unbroken comp ∧ Unbroken jump) ∧ token = comp ++ ";" ++ jump := by
  rw [pieces_eq_singleton_iff, map_ofList_splitOn_eq_pair_iff]
  constructor
  · rintro ⟨hequals, ⟨hc, hj⟩, htoken⟩
    simp only [htoken, List.mem_append, List.mem_cons, not_or] at hequals
    refine ⟨⟨⟨hequals.1, hc⟩, ⟨hequals.2.2, hj⟩⟩, String.toList_injective ?_⟩
    simp [htoken]
  · rintro ⟨⟨hc, hj⟩, rfl⟩
    exact ⟨by simp [hc.no_equals, hj.no_equals], ⟨hc.no_semicolon, hj.no_semicolon⟩, by simp⟩

end Shapes

/-! ## Shapes -/

/-- A text between separators. -/
structure Piece (s : String) : Prop extends Unbroken s where
  ne_empty : s ≠ ""

/-- How the texts of the fields are put together in a token. A field that is left out reads `null`. -/
inductive Written : ComputeText → String → Prop where
  | full {dest comp jump : String} (hdest : Piece dest) (hcomp : Piece comp) (hjump : Piece jump) :
      Written { dest, comp, jump } (dest ++ "=" ++ comp ++ ";" ++ jump)
  | store {dest comp : String} (hdest : Piece dest) (hcomp : Piece comp) :
      Written { dest, comp } (dest ++ "=" ++ comp)
  | branch {comp jump : String} (hcomp : Piece comp) (hjump : Piece jump) :
      Written { comp, jump } (comp ++ ";" ++ jump)

theorem written_of_split {token : String} {text : ComputeText} (h : split token = .ok text) :
    Written text token := by
  rw [split_eq] at h
  split at h
  · cases h
  · -- the shapes say nothing about empty pieces, so these are excluded beforehand
    rename_i hne
    split at h
    · rename_i dest comp jump hpieces
      obtain rfl := Except.ok.inj h
      obtain ⟨⟨hd, hc, hj⟩, rfl⟩ := pieces_eq_full_iff.mp hpieces
      have hfilled : dest ≠ "" ∧ comp ≠ "" ∧ jump ≠ "" := by
        simpa [hpieces, eq_comm (a := "")] using hne
      exact .full ⟨hd, hfilled.1⟩ ⟨hc, hfilled.2.1⟩ ⟨hj, hfilled.2.2⟩
    · rename_i dest comp hpieces
      obtain rfl := Except.ok.inj h
      obtain ⟨⟨hd, hc⟩, rfl⟩ := pieces_eq_store_iff.mp hpieces
      have hfilled : dest ≠ "" ∧ comp ≠ "" := by
        simpa [hpieces, eq_comm (a := "")] using hne
      exact .store ⟨hd, hfilled.1⟩ ⟨hc, hfilled.2⟩
    · rename_i comp jump hpieces
      obtain rfl := Except.ok.inj h
      obtain ⟨⟨hc, hj⟩, rfl⟩ := pieces_eq_branch_iff.mp hpieces
      have hfilled : comp ≠ "" ∧ jump ≠ "" := by
        simpa [hpieces, eq_comm (a := "")] using hne
      exact .branch ⟨hc, hfilled.1⟩ ⟨hj, hfilled.2⟩
    · cases h

theorem Written.split_eq_ok {token : String} {text : ComputeText} (h : Written text token) :
    split token = .ok text := by
  cases h with
  | full hdest hcomp hjump =>
    have hpieces := pieces_eq_full_iff.mpr
      ⟨⟨hdest.toUnbroken, hcomp.toUnbroken, hjump.toUnbroken⟩, rfl⟩
    simp [split_eq, hpieces, hdest.ne_empty.symm, hcomp.ne_empty.symm, hjump.ne_empty.symm]
  | store hdest hcomp =>
    have hpieces := pieces_eq_store_iff.mpr ⟨⟨hdest.toUnbroken, hcomp.toUnbroken⟩, rfl⟩
    simp [split_eq, hpieces, hdest.ne_empty.symm, hcomp.ne_empty.symm]
  | branch hcomp hjump =>
    have hpieces := pieces_eq_branch_iff.mpr ⟨⟨hcomp.toUnbroken, hjump.toUnbroken⟩, rfl⟩
    simp [split_eq, hpieces, hcomp.ne_empty.symm, hjump.ne_empty.symm]

theorem split_eq_ok_iff {token : String} {text : ComputeText} :
    split token = .ok text ↔ Written text token :=
  ⟨written_of_split, Written.split_eq_ok⟩

/-- A token without separators writes neither of the two fields of which one is needed. -/
theorem split_of_unbroken {token : String} (h : Unbroken token) :
    split token = .error (.malformedCompute token) := by
  have hpieces : pieces token = [[token]] :=
    pieces_eq_singleton_iff.mpr
      ⟨h.no_equals, map_ofList_splitOn_eq_singleton_iff.mpr ⟨h.no_semicolon, rfl⟩⟩
  simp [split_eq, hpieces]

end ComputeText

end HackAssembler
