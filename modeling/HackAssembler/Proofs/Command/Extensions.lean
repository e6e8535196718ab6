-- SUMMARY: The path with another extension, component by component.
import HackAssembler.Command.Path
import HackAssembler.Proofs.Text.Pieces
import Mathlib.Data.List.TakeWhile

/-!
# Paths with another extension

A path with a file name keeps all components in front of it when it is given another extension, and
loses those behind it, which say nothing. The new last component is the stem of the file name with
the extension.
-/

namespace HackAssembler.Path

variable {rows rest : List (List Char)} {name stem : List Char}

/-- A component by which a file can be named. -/
def IsFileName (component : List Char) : Prop :=
  isVoid component = false ∧ component ≠ ['.', '.']

theorem IsFileName.ne_nil (h : IsFileName name) : name ≠ [] := by
  rintro rfl
  cases h.1

theorem IsFileName.ne_dot (h : IsFileName name) : name ≠ ['.'] := by
  rintro rfl
  cases h.1

/-- The components in front of a file name, each with its slash. -/
def join (rows : List (List Char)) : List Char :=
  rows.flatMap (· ++ ['/'])

/-- A file name with another extension. What is left of a name that starts with two points and has no
third is the parent directory. -/
def rename (name extension : List Char) : List Char :=
  match stem? name with
  | none => name ++ '.' :: extension
  | some stem => if stem = ['.'] then ['.', '.'] else stem ++ '.' :: extension

/-- A path around its file name: the components in front of it, and those behind it, which say
nothing. -/
structure Named (path : List Char) (rows : List (List Char)) (name : List Char)
    (rest : List (List Char)) : Prop where
  split : path.splitOn '/' = rows ++ name :: rest
  isFileName : IsFileName name
  void : ∀ component ∈ rest, isVoid component = true

theorem Named.getLast?_eq_some_iff {path : List Char} (h : Named path rows name rest) :
    (path.splitOn '/').getLast? = some name ↔ rest = [] := by
  rw [h.split, List.getLast?_append_of_ne_nil _ (List.cons_ne_nil _ _)]
  constructor
  · intro hlast
    -- a last component behind the name is void, and the name is not
    by_contra hne
    obtain ⟨first, others, rfl⟩ := List.exists_cons_of_ne_nil hne
    rw [List.getLast?_cons_cons] at hlast
    have hvoid := h.void name (List.mem_of_getLast? hlast)
    rw [h.isFileName.1] at hvoid
    cases hvoid
  · rintro rfl
    rfl

/-- Seen from the end, the last component that says something comes first. -/
theorem dropWhile_reverse_components {path last : List Char}
    (hsplit : path.splitOn '/' = rows ++ last :: rest) (hlast : isVoid last = false)
    (hvoid : ∀ component ∈ rest, isVoid component = true) :
    (path.splitOn '/').reverse.dropWhile isVoid = last :: rows.reverse := by
  rw [hsplit, List.reverse_append, List.reverse_cons, List.append_assoc,
    List.dropWhile_append_of_pos fun component hmem => hvoid component (List.mem_reverse.mp hmem)]
  exact List.dropWhile_cons_of_neg (by simp [hlast])

theorem Named.parts?_eq {path : List Char} (h : Named path rows name rest) :
    parts? path = some { parent := join rows, name, isLast := rest = [] } := by
  have hdrop := dropWhile_reverse_components h.split h.isFileName.1 h.void
  simp [parts?, hdrop, h.isFileName.2, h.getLast?_eq_some_iff, join]

theorem withExtension_parent {path : String}
    (hsplit : path.toList.splitOn '/' = rows ++ ['.', '.'] :: rest)
    (hvoid : ∀ component ∈ rest, isVoid component = true) (extension : String) :
    withExtension path extension = path := by
  have hdrop := dropWhile_reverse_components hsplit (by decide) hvoid
  simp [withExtension, parts?, hdrop]

/-! ## Names -/

theorem ne_dot_of_mem_reverse {l : List Char} (h : '.' ∉ l) :
    ∀ c ∈ l.reverse, decide (c ≠ '.') = true := by
  intro c hc
  have hne : c ≠ '.' := fun heq => h (heq ▸ List.mem_reverse.mp hc)
  exact decide_eq_true hne

theorem dropWhile_reverse_append {stem extension : List Char} (h : '.' ∉ extension) :
    (stem ++ '.' :: extension).reverse.dropWhile (· ≠ '.') = '.' :: stem.reverse := by
  rw [List.reverse_append, List.reverse_cons, List.append_assoc,
    List.dropWhile_append_of_pos (ne_dot_of_mem_reverse h)]
  rfl

theorem stem?_of_not_mem (h : '.' ∉ name) : stem? name = none := by
  have hdrop : name.reverse.dropWhile (· ≠ '.') = [] :=
    List.dropWhile_eq_nil_iff.mpr (ne_dot_of_mem_reverse h)
  rw [stem?, hdrop]

theorem stem?_append {stem extension : List Char} (h : '.' ∉ extension) :
    stem? (stem ++ '.' :: extension) = if stem = [] then none else some stem := by
  rw [stem?, dropWhile_reverse_append h]
  cases hstem : stem.reverse with
  | nil => simp [List.reverse_eq_nil_iff.mp hstem]
  | cons c rest =>
    have hne : stem ≠ [] := by
      rintro rfl
      cases hstem
    simp [hne, ← hstem]

theorem exists_last_point (h : '.' ∈ name) :
    ∃ stem extension, '.' ∉ extension ∧ name = stem ++ '.' :: extension := by
  obtain ⟨extension, stem, hname, hfree⟩ := List.eq_append_cons_of_mem (List.mem_reverse.mpr h)
  refine ⟨stem.reverse, extension.reverse, by simpa using hfree, ?_⟩
  rw [← List.reverse_reverse name, hname]
  simp

theorem stem?_eq_some_iff {stem : List Char} :
    stem? name = some stem ↔
      stem ≠ [] ∧ ∃ extension, '.' ∉ extension ∧ name = stem ++ '.' :: extension := by
  constructor
  · intro h
    by_cases hdot : '.' ∈ name
    · obtain ⟨stem', extension, hfree, rfl⟩ := exists_last_point hdot
      rw [stem?_append hfree] at h
      obtain ⟨hne, hstem⟩ := Option.ite_none_left_eq_some.mp h
      obtain rfl := Option.some.inj hstem
      exact ⟨hne, extension, hfree, rfl⟩
    · rw [stem?_of_not_mem hdot] at h
      cases h
  · rintro ⟨hne, extension, hfree, rfl⟩
    rw [stem?_append hfree, if_neg hne]

/-- The stem of a file name: what stands in front of its last point. A name that has no point behind
its first character is its own stem. -/
inductive IsStem : List Char → List Char → Prop where
  | cut {stem extension : List Char} (hne : stem ≠ []) (hfree : '.' ∉ extension) :
      IsStem stem (stem ++ '.' :: extension)
  | whole {name : List Char} (hfree : '.' ∉ name.tail) : IsStem name name

theorem IsStem.stem?_cases (h : IsStem stem name) :
    stem? name = some stem ∨ stem? name = none ∧ stem = name := by
  cases h with
  | cut hne hfree => exact .inl (by simp [stem?_append hfree, hne])
  | whole hfree =>
    -- a stem is not empty, so the point it ends at would stand behind the first character
    have hnone : stem? name = none := by
      refine Option.eq_none_iff_forall_ne_some.mpr fun front hfront => ?_
      obtain ⟨hne, extension, -, rfl⟩ := stem?_eq_some_iff.mp hfront
      obtain ⟨c, front, rfl⟩ := List.exists_cons_of_ne_nil hne
      simp at hfree
    exact .inr ⟨hnone, rfl⟩

theorem exists_isStem (name : List Char) : ∃ stem, IsStem stem name := by
  by_cases h : '.' ∈ name.tail
  · obtain ⟨front, extension, hfree, htail⟩ := exists_last_point h
    obtain ⟨c, hname⟩ : ∃ c, name = c :: name.tail := by
      cases name with
      | nil => simp at h
      | cons c rest => exact ⟨c, rfl⟩
    rw [hname, htail]
    exact ⟨c :: front, .cut (by simp) hfree⟩
  · exact ⟨name, .whole h⟩

theorem IsStem.ne_nil (h : IsStem stem name) (hname : name ≠ []) : stem ≠ [] := by
  cases h with
  | cut hne _ => exact hne
  | whole _ => exact hname

theorem IsStem.not_mem {c : Char} (h : IsStem stem name) (hc : c ∉ name) : c ∉ stem := by
  cases h with
  | cut _ _ => exact fun hmem => hc (List.mem_append_left _ hmem)
  | whole _ => exact hc

theorem IsStem.rename_eq (h : IsStem stem name) (hname : IsFileName name) (extension : List Char) :
    rename name extension = if stem = ['.'] then ['.', '.'] else stem ++ '.' :: extension := by
  unfold rename
  rcases h.stem?_cases with hcut | ⟨hcut, rfl⟩
  · rw [hcut]
  · rw [hcut, if_neg hname.ne_dot]

theorem isFileName_append {stem : List Char} (hne : stem ≠ []) (hdot : stem ≠ ['.'])
    (extension : List Char) : IsFileName (stem ++ '.' :: extension) := by
  obtain ⟨c, rest, rfl⟩ := List.exists_cons_of_ne_nil hne
  refine ⟨by simp [isVoid], ?_⟩
  cases rest with
  | nil =>
    have hc : c ≠ '.' := fun heq => hdot (by rw [heq])
    simp [hc]
  | cons d rest => simp

theorem rename_ne_nil (name extension : List Char) : rename name extension ≠ [] := by
  unfold rename
  split
  · simp
  · split <;> simp

/-- A file name that has an extension is kept by that extension, and no other name is. -/
theorem rename_eq_self_iff {extension : List Char} (hname : name ≠ ['.', '.'])
    (hextension : '.' ∉ extension) :
    rename name extension = name ↔
      ∃ stem, stem ≠ [] ∧ stem ≠ ['.'] ∧ name = stem ++ '.' :: extension := by
  unfold rename
  cases hstem : stem? name with
  | none =>
    simp only [List.append_right_eq_self, reduceCtorEq, false_iff]
    rintro ⟨stem, hne, -, rfl⟩
    simp [stem?_append hextension, hne] at hstem
  | some stem =>
    obtain ⟨hne, old, hold, rfl⟩ := stem?_eq_some_iff.mp hstem
    -- the name may be cut at one point only, as neither extension has another
    have hunique : ∀ stem', stem' ≠ [] → stem ++ '.' :: old = stem' ++ '.' :: extension →
        stem' = stem := by
      intro stem' hne' heq
      rw [heq, stem?_append hextension, if_neg hne'] at hstem
      exact Option.some.inj hstem
    by_cases hdot : stem = ['.']
    · -- this name is brought to `..`, which is no name that has an extension
      subst hdot
      constructor
      · intro heq
        exact absurd (by simpa using heq.symm) hname
      · rintro ⟨stem', hne', hdot', heq⟩
        exact absurd (hunique stem' hne' heq) hdot'
    · constructor
      · intro heq
        exact ⟨stem, hne, hdot, by simpa [hdot] using heq.symm⟩
      · rintro ⟨stem', hne', -, heq⟩
        obtain rfl := hunique stem' hne' heq
        simpa [hdot] using heq.symm

/-! ## Paths -/

/-- The file name is replaced by its stem with the extension. Nothing but the parent directory is left
of a path that ends with a name whose stem is a single point. -/
theorem Named.withExtension_eq {path : String} (h : Named path.toList rows name rest)
    (hstem : IsStem stem name) (extension : String) :
    withExtension path extension = String.ofList (join rows ++
      if stem = ['.'] ∧ rest = [] then ['.', '.'] else stem ++ '.' :: extension.toList) := by
  rw [withExtension, h.parts?_eq]
  apply String.toList_inj.mp
  rcases hstem.stem?_cases with hcut | ⟨hcut, rfl⟩
  · by_cases hup : stem = ['.'] ∧ rest = []
    · simp [hcut, hup]
    · simp [hcut, hup]
  · simp [hcut, h.isFileName.ne_dot]

theorem Named.splitOn_withExtension {path extension : String} (h : Named path.toList rows name rest)
    (hstem : IsStem stem name) (hextension : '/' ∉ extension.toList) :
    (withExtension path extension).toList.splitOn '/' =
      rows ++ [if stem = ['.'] ∧ rest = [] then ['.', '.'] else stem ++ '.' :: extension.toList] := by
  have hfree : ∀ component ∈ rows ++ name :: rest, '/' ∉ component := fun _ hmem =>
    List.not_mem_of_mem_splitOn (h.split ▸ hmem)
  have hslash : '/' ∉ stem := hstem.not_mem (hfree name (by simp))
  rw [h.withExtension_eq hstem, String.toList_ofList]
  refine List.splitOn_eq_concat_iff.mpr
    ⟨⟨fun row hrow => hfree row (List.mem_append_left _ hrow), ?_⟩, rfl⟩
  split
  · decide
  · simp [hslash, hextension]

theorem named_of_isFileName {path : List Char} (hsplit : path.splitOn '/' = rows ++ [name])
    (hname : IsFileName name) : Named path rows name [] :=
  ⟨hsplit, hname, by simp⟩

theorem withExtension_of_isFileName {path : String} (hsplit : path.toList.splitOn '/' = rows ++ [name])
    (hname : IsFileName name) (extension : String) :
    withExtension path extension = String.ofList (join rows ++ rename name extension.toList) := by
  obtain ⟨stem, hstem⟩ := exists_isStem name
  simp [(named_of_isFileName hsplit hname).withExtension_eq hstem, hstem.rename_eq hname]

theorem splitOn_withExtension {path extension : String}
    (hsplit : path.toList.splitOn '/' = rows ++ [name]) (hname : IsFileName name)
    (hextension : '/' ∉ extension.toList) :
    (withExtension path extension).toList.splitOn '/' = rows ++ [rename name extension.toList] := by
  obtain ⟨stem, hstem⟩ := exists_isStem name
  simp [(named_of_isFileName hsplit hname).splitOn_withExtension hstem hextension,
    hstem.rename_eq hname]

/-- The path ends with a file name that has the given extension. -/
def HasExtension (path extension : String) : Prop :=
  ∃ rows stem, stem ≠ [] ∧ stem ≠ ['.'] ∧
    path.toList.splitOn '/' = rows ++ [stem ++ '.' :: extension.toList]

theorem hasExtension_of_rename {path extension : String}
    (hsplit : path.toList.splitOn '/' = rows ++ [name]) (hname : IsFileName name)
    (hextension : '.' ∉ extension.toList) (h : rename name extension.toList = name) :
    HasExtension path extension := by
  obtain ⟨stem, hne, hdot, rfl⟩ := (rename_eq_self_iff hname.2 hextension).mp h
  exact ⟨rows, stem, hne, hdot, hsplit⟩

theorem HasExtension.withExtension {path extension : String} (h : HasExtension path extension)
    (hextension : '.' ∉ extension.toList) : withExtension path extension = path := by
  obtain ⟨rows, stem, hne, hdot, hsplit⟩ := h
  have hname : IsFileName (stem ++ '.' :: extension.toList) := isFileName_append hne hdot _
  have hsame := (rename_eq_self_iff hname.2 hextension).mpr ⟨stem, hne, hdot, rfl⟩
  obtain ⟨-, hpath⟩ := List.splitOn_eq_concat_iff.mp hsplit
  rw [withExtension_of_isFileName hsplit hname, hsame, join, ← hpath, String.ofList_toList]

end HackAssembler.Path
