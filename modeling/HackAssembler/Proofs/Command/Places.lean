-- SUMMARY: Where paths lead on a file tree: the last component of a path, and the directory it is looked up in.
import HackAssembler.Command.FileTree

/-!
# Places that paths lead to

A path leads through directories to the one that its last component is looked up in. It is the
same directory whether the path is to be found or to be created, so the two differ in the last
step only: what is found has to be there, and what is created needs a new name.
-/

namespace HackAssembler

namespace FileTree

/-- The components that never name something new. -/
def upwards : List String := ["", ".", ".."]

variable {t : FileTree} {path name : String} {directory place : Place}

/-! ## Steps -/

theorem enter_upwards (hdir : t.isDirectory directory) (h : name ∈ upwards) :
    t.enter directory name = some (if name = ".." then directory.dropLast else directory) := by
  simp only [upwards, List.mem_cons, List.not_mem_nil, or_false] at h
  obtain rfl | rfl | rfl := h <;> simp [enter, hdir]

theorem enter_name (hdir : t.isDirectory directory) (h : name ∉ upwards) :
    t.enter directory name =
      (t.find? (directory ++ [name])).map fun _ => directory ++ [name] := by
  simp only [upwards, List.mem_cons, List.not_mem_nil, or_false, not_or] at h
  simp [enter, hdir, h]

theorem enter_of_not_isDirectory (h : t.isDirectory directory = false) (name : String) :
    t.enter directory name = none := by
  simp [enter, h]

theorem isDirectory_of_enter (h : t.enter directory name = some place) :
    t.isDirectory directory := by
  cases hdir : t.isDirectory directory with
  | true => rfl
  | false =>
    rw [enter_of_not_isDirectory hdir] at h
    cases h

theorem walk_cons (t : FileTree) (start : Place) (name : String) (rest : List String) :
    t.walk start (name :: rest) = (t.enter start name).bind fun next => t.walk next rest :=
  List.foldlM_cons

theorem walk_concat (t : FileTree) (start : Place) (above : List String) (name : String) :
    t.walk start (above ++ [name]) =
      (t.walk start above).bind fun directory => t.enter directory name := by
  simp [walk, List.foldlM_append]

/-- From a place that is no directory, no path leads to one. -/
theorem filter_walk_eq_none {start : Place} (h : t.isDirectory start = false)
    (components : List String) : (t.walk start components).filter t.isDirectory = none := by
  cases components with
  | nil => simp [walk, h]
  | cons name rest => simp [walk_cons, enter_of_not_isDirectory h]

/-! ## The last step -/

/-- A path leads to a directory, where its last component is to be looked up. -/
inductive LeadsTo (t : FileTree) (path : String) (directory : Place) (name : String) : Prop where
  | intro (above : List String) (hcomponents : (t.pathFrom path).2 = above ++ [name])
      (hwalk : t.walk (t.pathFrom path).1 above = some directory)
      (hdir : t.isDirectory directory) (hlength : path.utf8ByteSize ≤ maxPathBytes)

theorem LeadsTo.isDirectory (h : t.LeadsTo path directory name) : t.isDirectory directory := by
  obtain ⟨-, -, -, hdir, -⟩ := h
  exact hdir

theorem leadsTo_iff :
    t.LeadsTo path directory name ↔
      ∃ above, (t.pathFrom path).2 = above ++ [name] ∧
        (t.walk (t.pathFrom path).1 above).filter t.isDirectory = some directory ∧
        path.utf8ByteSize ≤ maxPathBytes := by
  simp only [Option.filter_eq_some_iff]
  constructor
  · rintro ⟨above, hcomponents, hwalk, hdir, hlength⟩
    exact ⟨above, hcomponents, ⟨hwalk, hdir⟩, hlength⟩
  · rintro ⟨above, hcomponents, ⟨hwalk, hdir⟩, hlength⟩
    exact ⟨above, hcomponents, hwalk, hdir, hlength⟩

theorem components_ne_nil (t : FileTree) (path : String) : (t.pathFrom path).2 ≠ [] := by
  simp [pathFrom, List.splitOn_ne_nil]

theorem exists_components (t : FileTree) (path : String) :
    ∃ above name, (t.pathFrom path).2 = above ++ [name] :=
  ⟨_, _, (List.dropLast_concat_getLast (t.components_ne_nil path)).symm⟩

theorem target?_eq_some_iff :
    t.target? path = some place ↔
      ∃ directory name, t.LeadsTo path directory name ∧ name ∉ upwards ∧
        name.utf8ByteSize ≤ maxNameBytes ∧ place = directory ++ [name] := by
  obtain ⟨above, name, hcomponents⟩ := t.exists_components path
  have htarget : t.target? path =
      if name ∈ upwards ∨ maxNameBytes < name.utf8ByteSize ∨ maxPathBytes < path.utf8ByteSize then none
      else (t.walk (t.pathFrom path).1 above).bind fun directory =>
        if t.isDirectory directory then some (directory ++ [name]) else none := by
    simp only [target?, hcomponents, List.getLastD_concat, List.dropLast_concat]
    rfl
  rw [htarget]
  constructor
  · intro h
    split at h
    next => cases h
    next hname =>
      simp only [not_or, Nat.not_lt] at hname
      obtain ⟨directory, hwalk, h⟩ := Option.bind_eq_some_iff.mp h
      obtain ⟨hdir, h⟩ := Option.ite_none_right_eq_some.mp h
      exact ⟨directory, name, ⟨above, hcomponents, hwalk, hdir, hname.2.2⟩, hname.1, hname.2.1,
        (Option.some.inj h).symm⟩
  · -- the components are split before the last one in one way only
    rintro ⟨directory, name', ⟨above', hcomponents', hwalk, hdir, hlength⟩, hname, hbytes, rfl⟩
    obtain ⟨rfl, hlast⟩ := List.append_inj' (hcomponents.symm.trans hcomponents') rfl
    obtain rfl := List.singleton_inj.mp hlast
    simp [hname, hbytes, hlength, hwalk, hdir]

theorem locate?_eq_some_iff :
    t.locate? path = some place ↔
      path ≠ "" ∧ ∃ directory name, t.LeadsTo path directory name ∧
        t.enter directory name = some place := by
  obtain ⟨above, name, hcomponents⟩ := t.exists_components path
  have hlocate : t.locate? path =
      if path = "" ∨ maxPathBytes < path.utf8ByteSize then none
      else (t.walk (t.pathFrom path).1 above).bind fun directory => t.enter directory name := by
    simp only [locate?, hcomponents, walk_concat]
  rw [hlocate]
  constructor
  · intro h
    split at h
    next => cases h
    next hpath =>
      simp only [not_or, Nat.not_lt] at hpath
      obtain ⟨directory, hwalk, hlast⟩ := Option.bind_eq_some_iff.mp h
      have hdir := isDirectory_of_enter hlast
      exact ⟨hpath.1, directory, name, ⟨above, hcomponents, hwalk, hdir, hpath.2⟩, hlast⟩
  · rintro ⟨hpath, directory, name', ⟨above', hcomponents', hwalk, hdir, hlength⟩, hlast⟩
    obtain ⟨rfl, hname⟩ := List.append_inj' (hcomponents.symm.trans hcomponents') rfl
    obtain rfl := List.singleton_inj.mp hname
    simp [hpath, hlength, hwalk, hlast]

/-- What is created can be found under the same path. -/
theorem locate?_of_target? (h : t.target? path = some place) (hfind : (t.find? place).isSome) :
    t.locate? path = some place := by
  obtain ⟨directory, name, hleads, hname, -, rfl⟩ := target?_eq_some_iff.mp h
  obtain ⟨node, hnode⟩ := Option.isSome_iff_exists.mp hfind
  refine locate?_eq_some_iff.mpr ⟨?_, directory, name, hleads, ?_⟩
  · -- the empty path has one component, the empty one, and that creates nothing
    rintro rfl
    obtain ⟨above, hcomponents, -, -, -⟩ := hleads
    have hempty : (t.pathFrom "").2 = [] ++ [""] := by simp [pathFrom]
    obtain ⟨-, hlast⟩ := List.append_inj' (hempty.symm.trans hcomponents) rfl
    obtain rfl := List.singleton_inj.mp hlast
    exact hname (by simp [upwards])
  · rw [enter_name hleads.isDirectory hname, hnode, Option.map_some]

end FileTree

end HackAssembler
