-- SUMMARY: What loading and storing do to a file tree, and which paths a new file leaves alone.
import HackAssembler.Proofs.Command.Places
import HackAssembler.Proofs.Text.Bytes

/-!
# Loading and storing

Storing a file either is refused and changes nothing, or ends at one place of the tree. If that
place held a regular file or nothing, it holds the text afterwards. No other place changes, and
neither does the place that any path stands for as a target: a new file opens no way to
anywhere, since a path leads through directories only.
-/

namespace HackAssembler

def Node.isFile : Node → Bool
  | file _ => true
  | _ => false

theorem Node.isFile_iff {node : Node} : node.isFile ↔ ∃ content, node = .file content := by
  cases node <;> simp [isFile]

namespace FileTree

/-- A place that holds a regular file, or nothing yet. -/
def Plain (t : FileTree) (place : Place) : Prop :=
  ∀ node, t.find? place = some node → ∃ content, node = .file content

section Store

variable {t : FileTree} {place : Place} {path text : String} {content : ByteArray}

instance : Decidable (t.Plain place) :=
  decidable_of_iff (∀ node ∈ t.find? place, node.isFile = true) <|
    forall₂_congr fun _ _ => Node.isFile_iff

theorem plain_of_file (h : t.find? place = some (.file content)) : t.Plain place := by
  intro node hnode
  exact ⟨content, Option.some.inj (hnode.symm.trans h)⟩

theorem plain_of_free (h : t.find? place = none) : t.Plain place := by
  intro node hnode
  cases hnode.symm.trans h

/-! ## Storing -/

theorem store_of_target?_eq_none (h : t.target? path = none) :
    t.store path text = (.error .cannotCreate, t) := by
  simp only [store, h]

theorem store_of_plain (htarget : t.target? path = some place) (hplain : t.Plain place) :
    t.store path text = (.ok (), t.put place (.file text.toUTF8)) := by
  cases hnode : t.find? place with
  | none => simp only [store, htarget, hnode]
  | some node =>
    obtain ⟨content, rfl⟩ := hplain node hnode
    simp only [store, htarget, hnode]

/-- Storing a file changes nothing at all, or it puts the file where its path leads. -/
theorem store_cases {answer : Except StoreError Unit} {t' : FileTree}
    (h : t.store path text = (answer, t')) :
    t' = t ∨ ∃ place, t.target? path = some place ∧ t.Plain place ∧
      t' = t.put place (.file text.toUTF8) := by
  cases htarget : t.target? path with
  | none =>
    rw [store_of_target?_eq_none htarget] at h
    cases h
    exact .inl rfl
  | some place =>
    by_cases hplain : t.Plain place
    · rw [store_of_plain htarget hplain] at h
      cases h
      exact .inr ⟨place, rfl, hplain, rfl⟩
    · -- a place that is not plain holds a directory or a device, and these keep no text
      left
      simp only [store, htarget] at h
      split at h
      next hnode => exact (congrArg Prod.snd h).symm
      next hnode => exact (congrArg Prod.snd h).symm
      next hnode => exact (congrArg Prod.snd h).symm
      next hnode => exact absurd (plain_of_file hnode) hplain
      next hnode => exact absurd (plain_of_free hnode) hplain

theorem find?_of_store {answer : Except StoreError Unit} {t' : FileTree}
    (hstore : t.store path text = (answer, t')) (h : t.target? path ≠ some place) :
    t'.find? place = t.find? place := by
  obtain rfl | ⟨target, htarget, -, rfl⟩ := store_cases hstore
  · rfl
  · have hne : place ≠ target := fun heq => h (heq ▸ htarget)
    rw [find?_put, if_neg hne]

/-! ## Loading -/

theorem load_of_file (hplace : t.locate? path = some place)
    (hfile : t.find? place = some (.file content)) :
    t.load path =
      match String.fromUTF8? content with
      | some source => .ok (Text.lines source)
      | none => .error .cannotRead := by
  simp only [load, hplace, Option.bind_some, hfile, Text.readLines?_eq]
  cases String.fromUTF8? content <;> rfl

/-- A path leads to a regular file that holds a text. -/
def HasText (t : FileTree) (path source : String) : Prop :=
  ∃ place, t.locate? path = some place ∧ t.find? place = some (.file source.toUTF8)

theorem HasText.load {source : String} (h : t.HasText path source) :
    t.load path = .ok (Text.lines source) := by
  obtain ⟨place, hplace, hfile⟩ := h
  rw [load_of_file hplace hfile, Text.fromUTF8?_eq_some_iff.mpr rfl]

/-- A path leads to one text at most. -/
theorem HasText.unique {source other : String} (h : t.HasText path source)
    (h' : t.HasText path other) : source = other := by
  obtain ⟨place, hplace, hfile⟩ := h
  obtain ⟨place', hplace', hfile'⟩ := h'
  obtain rfl : place = place' := Option.some.inj (hplace.symm.trans hplace')
  have hbytes : source.toUTF8 = other.toUTF8 :=
    Node.file.inj (Option.some.inj (hfile.symm.trans hfile'))
  have hread : String.fromUTF8? source.toUTF8 = some other := Text.fromUTF8?_eq_some_iff.mpr hbytes
  rw [Text.fromUTF8?_eq_some_iff.mpr rfl] at hread
  exact Option.some.inj hread

theorem exists_hasText_of_load {lines : List String}
    (hplain : ∀ place, t.locate? path = some place → t.Plain place)
    (h : t.load path = .ok lines) : ∃ source, t.HasText path source ∧ lines = Text.lines source := by
  cases hplace : t.locate? path with
  | none => simp [FileTree.load, hplace] at h
  | some place =>
    cases hnode : t.find? place with
    | none => simp [FileTree.load, hplace, hnode] at h
    | some node =>
      obtain ⟨content, rfl⟩ := hplain place hplace node hnode
      rw [load_of_file hplace hnode] at h
      cases hsource : String.fromUTF8? content with
      | none => simp [hsource] at h
      | some source =>
        rw [hsource] at h
        obtain rfl := Text.fromUTF8?_eq_some_iff.mp hsource
        exact ⟨source, ⟨place, hplace, hnode⟩, (Except.ok.inj h).symm⟩

/-- A tree whose working directory holds the given texts. -/
def ofTexts (files : List (String × String)) : FileTree :=
  files.foldl (fun t file => t.plant ["w", file.1] (.file file.2.toUTF8)) (fresh ["w"])

end Store

/-! ## Paths after storing -/

section Walk

variable {t : FileTree} {place : Place} {content : ByteArray}

theorem isDirectory_eq_false (hplain : t.Plain place) : t.isDirectory place = false := by
  unfold isDirectory
  cases hnode : t.find? place with
  | none => rfl
  | some node =>
    obtain ⟨old, rfl⟩ := hplain node hnode
    rfl

theorem isDirectory_put (hplain : t.Plain place) :
    (t.put place (.file content)).isDirectory = t.isDirectory := by
  funext other
  by_cases h : other = place
  · subst h
    rw [isDirectory_eq_false hplain]
    simp [isDirectory, find?_put]
  · simp [isDirectory, find?_put, h]

/-- A step of a path leads where it led before, or to the new file. -/
theorem enter_put (hplain : t.Plain place) (content : ByteArray) (other : Place) (component : String) :
    (t.put place (.file content)).enter other component = t.enter other component ∨
      (t.put place (.file content)).enter other component = some place ∧
        t.enter other component = none := by
  have hput : (t.put place (.file content)).isDirectory other = t.isDirectory other :=
    congrFun (isDirectory_put hplain) other
  cases hdir : t.isDirectory other with
  | false =>
    rw [enter_of_not_isDirectory hdir, enter_of_not_isDirectory (hput.trans hdir)]
    exact .inl rfl
  | true =>
    by_cases hname : component ∈ upwards
    · rw [enter_upwards hdir hname, enter_upwards (hput.trans hdir) hname]
      exact .inl rfl
    · rw [enter_name hdir hname, enter_name (hput.trans hdir) hname, find?_put]
      -- the one answer that can change is the one about the new file
      by_cases hplace : other ++ [component] = place
      · cases hfind : t.find? (other ++ [component]) with
        | none => simp [hplace]
        | some node => simp [hplace]
      · rw [if_neg hplace]
        exact .inl rfl

theorem filter_walk_put (hplain : t.Plain place) (other : Place) (components : List String) :
    ((t.put place (.file content)).walk other components).filter t.isDirectory =
      (t.walk other components).filter t.isDirectory := by
  induction components generalizing other with
  | nil => rfl
  | cons component rest ih =>
    rw [walk_cons, walk_cons]
    obtain heq | ⟨hnew, hold⟩ := enter_put hplain content other component
    · rw [heq]
      cases t.enter other component with
      | none => rfl
      | some next => exact ih next
    · -- The step is new, but it ends at the file, and nothing lies below that.
      have hput : (t.put place (.file content)).isDirectory place = false :=
        (congrFun (isDirectory_put hplain) place).trans (isDirectory_eq_false hplain)
      have hnone := filter_walk_eq_none hput rest
      rw [isDirectory_put hplain] at hnone
      rw [hnew, hold]
      exact hnone

theorem leadsTo_put (hplain : t.Plain place) {path : String} {directory : Place} {name : String} :
    (t.put place (.file content)).LeadsTo path directory name ↔ t.LeadsTo path directory name := by
  have hfrom : (t.put place (.file content)).pathFrom path = t.pathFrom path := rfl
  simp only [leadsTo_iff, hfrom, isDirectory_put hplain, filter_walk_put hplain]

/-- A new file is not on the way to any other. -/
theorem target?_put (hplain : t.Plain place) (path : String) :
    (t.put place (.file content)).target? path = t.target? path :=
  Option.ext fun other => by simp only [target?_eq_some_iff, leadsTo_put hplain]

theorem target?_of_store {stored text : String} {answer : Except StoreError Unit} {t' : FileTree}
    (hstore : t.store stored text = (answer, t')) (path : String) :
    t'.target? path = t.target? path := by
  obtain rfl | ⟨target, -, hplain, rfl⟩ := store_cases hstore
  · rfl
  · exact target?_put hplain path

theorem hasText_of_target? {path text : String} (htarget : t.target? path = some place)
    (hfile : t.find? place = some (.file text.toUTF8)) : t.HasText path text :=
  ⟨place, locate?_of_target? htarget (Option.isSome_of_eq_some hfile), hfile⟩

/-- A file that could be stored holds the text from then on. -/
theorem exists_file_of_store {path text : String} {t' : FileTree}
    (hplain : ∀ place, t.target? path = some place → t.Plain place)
    (h : t.store path text = (.ok (), t')) :
    ∃ place, t'.target? path = some place ∧ t'.find? place = some (.file text.toUTF8) := by
  cases htarget : t.target? path with
  | none =>
    rw [store_of_target?_eq_none htarget] at h
    cases h
  | some place =>
    have hplace := hplain place htarget
    rw [store_of_plain htarget hplace] at h
    cases h
    exact ⟨place, (target?_put hplace path).trans htarget, by rw [find?_put, if_pos rfl]⟩

end Walk

end FileTree

end HackAssembler
