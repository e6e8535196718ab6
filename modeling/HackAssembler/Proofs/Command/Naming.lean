-- SUMMARY: The name of a binary that is given none: the steps of its path, told from those of the source.
import HackAssembler.Proofs.Command.Extensions

/-!
# Paths beside a source

A path is a row of steps. Components that say nothing are no steps, but for a single point at the
start. The last step may be a file name, and the path of the binary takes all steps of the source
but this one. In its place stands the stem of the file name with the extension.

There is one exception. A file name of two points and an extension without points has a single
point as its stem. Where such a name ends the path, what is left of it is the parent directory.
Where the path goes on behind it, even by a slash only, the name is made as all others, but it is
then itself of this kind and ends the path, so it does not last.
-/

namespace HackAssembler.Path

/-! ## Steps -/

/-- A step of a path. -/
inductive Step where
  | root
  | here
  | up
  | name (name : List Char)
  deriving DecidableEq, Repr

/-- The step that a component makes, if it says anything. -/
def Step.of? (component : List Char) : Option Step :=
  if isVoid component then none
  else if component = ['.', '.'] then some .up
  else some (.name component)

/-- The step that a path makes in front of its components: to the root if it starts with a slash, and
nowhere if it starts with a single point. -/
def start : List (List Char) → List Step
  | [] :: _ :: _ => [.root]
  | ['.'] :: _ => [.here]
  | _ => []

/-- The steps of a path. -/
def steps (path : String) : List Step :=
  start (path.toList.splitOn '/') ++ (path.toList.splitOn '/').filterMap Step.of?

example : steps "./a//../b.asm/." = [.here, .name "a".toList, .up, .name "b.asm".toList] := by
  decide

variable {rows rest : List (List Char)} {name stem : List Char} {path : String}

theorem start_of_not_void (h : isVoid name = false) : start (name :: rest) = [] := by
  unfold start
  split
  · rename_i heq
    obtain ⟨rfl, -⟩ := List.cons.inj heq
    cases h
  · rename_i heq
    obtain ⟨rfl, -⟩ := List.cons.inj heq
    cases h
  · rfl

theorem start_cons (row : List Char) (hne : rest ≠ []) :
    start (row :: rest) = if row = [] then [.root] else if row = ['.'] then [.here] else [] := by
  obtain ⟨next, others, rfl⟩ := List.exists_cons_of_ne_nil hne
  unfold start
  grind

/-- A component that says something has no part in where a path starts, nor has what follows it. -/
theorem start_congr {name' : List Char} {rest' : List (List Char)} (h : isVoid name = false)
    (h' : isVoid name' = false) : start (rows ++ name :: rest) = start (rows ++ name' :: rest') := by
  cases rows with
  | nil => exact (start_of_not_void h).trans (start_of_not_void h').symm
  | cons row rows =>
    have hcons : ∀ last rest, start (row :: (rows ++ last :: rest)) =
        if row = [] then [.root] else if row = ['.'] then [.here] else [] :=
      fun last rest => start_cons row (by simp)
    exact (hcons name rest).trans (hcons name' rest').symm

theorem name_not_mem_start (components : List (List Char)) (name : List Char) :
    .name name ∉ start components := by
  unfold start
  split <;> simp

theorem Step.of?_of_isFileName (h : IsFileName name) : Step.of? name = some (.name name) := by
  simp [Step.of?, h.1, h.2]

theorem Step.filterMap_of_void (h : ∀ component ∈ rest, isVoid component = true) :
    rest.filterMap Step.of? = [] := by
  refine List.filterMap_eq_nil_iff.mpr fun component hmem => ?_
  simp [Step.of?, h component hmem]

/-- The steps of a path, the last one told from the last component that says something. -/
theorem steps_of_split {last : List Char} {step : Step}
    (hsplit : path.toList.splitOn '/' = rows ++ last :: rest)
    (hvoid : ∀ component ∈ rest, isVoid component = true) (hstep : Step.of? last = some step)
    (hlast : isVoid last = false) (hname : isVoid name = false) :
    steps path = start (rows ++ [name]) ++ rows.filterMap Step.of? ++ [step] := by
  have hstart : start (rows ++ last :: rest) = start (rows ++ [name]) := start_congr hlast hname
  have hsteps : (rows ++ last :: rest).filterMap Step.of? = rows.filterMap Step.of? ++ [step] := by
    simp [hstep, Step.filterMap_of_void hvoid]
  rw [steps, hsplit, hstart, hsteps, List.append_assoc]

theorem Named.steps_eq (h : Named path.toList rows name rest) :
    steps path = start (rows ++ [name]) ++ rows.filterMap Step.of? ++ [.name name] :=
  steps_of_split h.split h.void (Step.of?_of_isFileName h.isFileName) h.isFileName.1
    h.isFileName.1

/-! ## Paths with and without a file name -/

/-- Either no component says anything, or there is a last one that does. -/
theorem exists_last_said (components : List (List Char)) :
    (∀ component ∈ components, isVoid component = true) ∨
      ∃ rows last rest, components = rows ++ last :: rest ∧ isVoid last = false ∧
        ∀ component ∈ rest, isVoid component = true := by
  -- by induction from the end, where a component that says something settles it
  induction components using List.reverseRecOn with
  | nil => exact .inl (by simp)
  | append_singleton components component ih =>
    by_cases hvoid : isVoid component = true
    · rcases ih with hall | ⟨rows, last, rest, rfl, hlast, hrest⟩
      · exact .inl (by simpa [or_imp, forall_and] using ⟨hall, hvoid⟩)
      · refine .inr ⟨rows, last, rest ++ [component], by simp, hlast, ?_⟩
        simpa [or_imp, forall_and] using ⟨hrest, hvoid⟩
    · exact .inr ⟨components, component, [], rfl, by simpa using hvoid, by simp⟩

/-- A path has a file name, or its last step is none and no extension changes it. -/
theorem named_or_unnamed (path : String) :
    (∃ rows name rest, Named path.toList rows name rest) ∨
      (∀ name, (steps path).getLast? ≠ some (.name name)) ∧
        ∀ extension, withExtension path extension = path := by
  rcases exists_last_said (path.toList.splitOn '/') with hall | ⟨rows, last, rest, hsplit, hlast, hvoid⟩
  · -- the steps are those of the start of the path, and none of them is a name
    right
    constructor
    · intro name h
      rw [steps, Step.filterMap_of_void hall, List.append_nil] at h
      exact name_not_mem_start _ _ (List.mem_of_getLast? h)
    · intro extension
      have hdrop : (path.toList.splitOn '/').reverse.dropWhile isVoid = [] := by
        simpa using hall
      simp [withExtension, parts?, hdrop]
  · by_cases hparent : last = ['.', '.']
    · subst hparent
      have hstep : Step.of? ['.', '.'] = some .up := rfl
      right
      constructor
      · intro name h
        rw [steps_of_split hsplit hvoid hstep hlast hlast] at h
        simp at h
      · exact withExtension_parent hsplit hvoid
    · exact .inl ⟨rows, last, rest, hsplit, ⟨hlast, hparent⟩, hvoid⟩

/-! ## Paths with another extension -/

/-- A text that can be put behind a stem: it makes no further component and no further point. -/
structure IsExtension (extension : String) : Prop where
  ne_empty : extension ≠ ""
  no_point : '.' ∉ extension.toList
  no_slash : '/' ∉ extension.toList

theorem isExtension_hack : IsExtension "hack" :=
  ⟨by decide, by decide, by decide⟩

variable {extension : String}

theorem IsExtension.isFileName (h : IsExtension extension) (hne : stem ≠ []) :
    IsFileName (stem ++ '.' :: extension.toList) := by
  obtain ⟨c, stem, rfl⟩ := List.exists_cons_of_ne_nil hne
  obtain ⟨d, rest, hrest⟩ := List.exists_cons_of_ne_nil (mt String.toList_eq_nil_iff.mp h.ne_empty)
  rw [hrest]
  cases stem <;> simp [IsFileName, isVoid]

namespace Named

variable (h : Named path.toList rows name rest) (hstem : IsStem stem name)
include h hstem

theorem steps_withExtension (hext : IsExtension extension) :
    steps (withExtension path extension) =
      start (rows ++ [name]) ++ rows.filterMap Step.of? ++
        [if stem = ['.'] ∧ rest = [] then .up else .name (stem ++ '.' :: extension.toList)] := by
  have hsplit := h.splitOn_withExtension hstem hext.no_slash
  by_cases hup : stem = ['.'] ∧ rest = []
  · rw [if_pos hup] at hsplit ⊢
    exact steps_of_split hsplit (by simp) rfl rfl h.isFileName.1
  · rw [if_neg hup] at hsplit ⊢
    have hnew := hext.isFileName (hstem.ne_nil h.isFileName.ne_nil)
    exact steps_of_split hsplit (by simp) (Step.of?_of_isFileName hnew) hnew.1 h.isFileName.1

/-- A second extension changes nothing, but for a name that the first one has brought to the end. -/
theorem withExtension_twice_iff (hext : IsExtension extension) :
    withExtension (withExtension path extension) extension = withExtension path extension ↔
      (stem = ['.'] → rest = []) := by
  have hne : stem ≠ [] := hstem.ne_nil h.isFileName.ne_nil
  have hsplit := h.splitOn_withExtension hstem hext.no_slash
  by_cases hdot : stem = ['.']
  · by_cases hrest : rest = []
    · rw [if_pos ⟨hdot, hrest⟩] at hsplit
      exact iff_of_true (withExtension_parent hsplit (by simp) extension) fun _ => hrest
    · rw [if_neg fun hup => hrest hup.2] at hsplit
      -- the new name ends the path, so the next extension leaves the parent directory of it
      have hnamed : Named (withExtension path extension).toList rows
          (stem ++ '.' :: extension.toList) [] :=
        ⟨hsplit, hext.isFileName hne, by simp⟩
      have hparent := hnamed.splitOn_withExtension (.cut hne hext.no_point) hext.no_slash
      refine iff_of_false (fun heq => ?_) fun himp => hrest (himp hdot)
      rw [heq, hsplit] at hparent
      simp [hdot, hext.ne_empty] at hparent
  · rw [if_neg fun hup => hdot hup.1] at hsplit
    have hhas : HasExtension (withExtension path extension) extension :=
      ⟨rows, stem, hne, hdot, hsplit⟩
    exact iff_of_true (hhas.withExtension hext.no_point) fun heq => absurd heq hdot

omit hstem in
theorem append_slashes (n : Nat) :
    Named (path ++ String.ofList (List.replicate n '/')).toList rows name
      (rest ++ List.replicate n []) := by
  refine ⟨?_, h.isFileName, ?_⟩
  · rw [String.toList_append, String.toList_ofList, List.splitOn_append_replicate, h.split,
      List.append_assoc, List.cons_append]
  · intro component hmem
    rcases List.mem_append.mp hmem with hrest | hnew
    · exact h.void component hrest
    · rw [List.eq_of_mem_replicate hnew]
      rfl

theorem withExtension_slashes_iff (hext : IsExtension extension) (n : Nat) :
    withExtension (path ++ String.ofList (List.replicate n '/')) extension =
        withExtension path extension ↔
      (stem = ['.'] ∧ rest = [] → n = 0) := by
  rw [(h.append_slashes n).withExtension_eq hstem, h.withExtension_eq hstem, String.ofList_inj,
    List.append_cancel_left_eq]
  by_cases hup : stem = ['.'] ∧ rest = []
  · obtain ⟨hdot, hrest⟩ := hup
    -- a slash makes the name one that does not end the path, and then it is not cut to `..`
    by_cases hn : n = 0
    · simp [hn]
    · simp [hdot, hrest, hn, hext.ne_empty]
  · have hup' : ¬ (stem = ['.'] ∧ rest ++ List.replicate n [] = []) := fun h =>
      hup ⟨h.1, (List.append_eq_nil_iff.mp h.2).1⟩
    rw [if_neg hup, if_neg hup']
    exact iff_of_true rfl fun h => absurd h hup

end Named

/-! ## The path of a binary -/

/-- The path ends with the component, and not even a slash follows it. -/
def EndsWith (path : String) (component : List Char) : Prop :=
  (path.toList.splitOn '/').getLast? = some component

instance (path : String) (component : List Char) : Decidable (EndsWith path component) :=
  inferInstanceAs (Decidable (_ = _))

/-- A path without a file name is also that of its binary. Any other path keeps its steps but the last,
which becomes the stem of the file name with the extension; slashes at the end change nothing, and
the path of a binary is its own path of a binary. A stem of a single point is excepted: where the
name ends the path, the last step leads up instead, and only there do slashes matter; where it
does not end the path, the path of the binary has another one in turn. -/
theorem binary_beside_source (path : String) :
    ((∀ name, (steps path).getLast? ≠ some (.name name)) → withExtension path "hack" = path) ∧
    ∀ above name, steps path = above ++ [.name name] →
      ∃ stem, IsStem stem name ∧
        steps (withExtension path "hack") = above ++
          [if stem = ['.'] ∧ EndsWith path name then .up else .name (stem ++ ".hack".toList)] ∧
        (∀ n, withExtension (path ++ String.ofList (List.replicate n '/')) "hack" =
            withExtension path "hack" ↔ (stem = ['.'] ∧ EndsWith path name → n = 0)) ∧
        (withExtension (withExtension path "hack") "hack" = withExtension path "hack" ↔
          (stem = ['.'] → EndsWith path name)) := by
  rcases named_or_unnamed path with ⟨rows, last, rest, hnamed⟩ | ⟨hunnamed, hsame⟩
  · have hlast : (steps path).getLast? = some (.name last) := by simp [hnamed.steps_eq]
    refine ⟨fun h => absurd hlast (h last), fun above name h => ?_⟩
    -- the steps of the path end with its file name, so `above` is what stands in front of it
    obtain ⟨rfl, heq⟩ := List.append_inj' (hnamed.steps_eq.symm.trans h) rfl
    obtain rfl : last = name := Step.name.inj (List.singleton_inj.mp heq)
    obtain ⟨stem, hstem⟩ := exists_isStem last
    have hends : EndsWith path last ↔ rest = [] := hnamed.getLast?_eq_some_iff
    simp only [hends]
    exact ⟨stem, hstem, hnamed.steps_withExtension hstem isExtension_hack,
      hnamed.withExtension_slashes_iff hstem isExtension_hack,
      hnamed.withExtension_twice_iff hstem isExtension_hack⟩
  · refine ⟨fun _ => hsame "hack", fun above name h => ?_⟩
    exact absurd (by simp [h]) (hunnamed name)

theorem binary_beside_source_points :
    steps "a.b/Pong.L.asm" = [.name "a.b".toList, .name "Pong.L.asm".toList] ∧
      steps (withExtension "a.b/Pong.L.asm" "hack") =
        [.name "a.b".toList, .name "Pong.L.hack".toList] ∧
      withExtension "a.b/.." "hack" = "a.b/.." := by
  have hsteps : steps "a.b/Pong.L.asm" = [.name "a.b".toList, .name "Pong.L.asm".toList] := by
    decide
  have hup : (steps "a.b/..").getLast? = some .up := by decide
  obtain ⟨stem, hstem, hbinary, -⟩ :=
    (binary_beside_source "a.b/Pong.L.asm").2 [.name "a.b".toList] _ hsteps
  have hcut : stem? "Pong.L.asm".toList = some "Pong.L".toList := by decide
  have hpong : stem = "Pong.L".toList := by
    rcases hstem.stem?_cases with h | ⟨h, -⟩
    · exact Option.some.inj (h.symm.trans hcut)
    · cases h.symm.trans hcut
  rw [if_neg fun h => absurd (hpong.symm.trans h.1) (by decide), hpong] at hbinary
  refine ⟨hsteps, hbinary, (binary_beside_source "a.b/..").1 fun name h => ?_⟩
  rw [hup] at h
  cases h

theorem binary_not_always_beside_source :
    (¬ ∀ path above name stem, steps path = above ++ [.name name] → IsStem stem name →
      steps (withExtension path "hack") = above ++ [.name (stem ++ ".hack".toList)]) ∧
    ¬ ∀ path, withExtension (withExtension path "hack") "hack" = withExtension path "hack" := by
  constructor
  · intro h
    have hstem : IsStem ['.'] "..asm".toList := .cut (by decide) (by decide)
    have hbinary := h "..asm" [] "..asm".toList ['.'] (by decide) hstem
    exact absurd hbinary (by decide)
  · intro h
    exact absurd (h "..asm/") (by decide)

end HackAssembler.Path
