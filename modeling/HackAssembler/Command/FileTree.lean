-- SUMMARY: File trees in memory, and how scripts run on them.
import HackAssembler.Command.Script
import HackAssembler.Text.Lines

/-!
# File trees

A file tree holds directories, files and two devices: one that swallows all text and one
that refuses it. A path is followed from the root or from the working directory, one
component after the other, and everything on the way has to be a directory. Loading a
file changes nothing, and storing a file changes this file only.
-/

namespace HackAssembler

/-- What is found at a place of a file tree. -/
inductive Node where
  | file (content : ByteArray)
  | directory
  /-- A device that swallows text and holds none. -/
  | sink
  /-- A device that has no room for any text. What can be read from it has no end. -/
  | full

/-- A place: the components of its absolute path. -/
abbrev Place := List String

/-- A tree of files. -/
structure FileTree where
  nodes : List (Place × Node)
  workingDirectory : Place

namespace FileTree

/-! ## Places -/

/-- What is at a place. -/
def find? (t : FileTree) (place : Place) : Option Node :=
  t.nodes.lookup place

/-- Whether there is a directory at a place. -/
def isDirectory (t : FileTree) (place : Place) : Bool :=
  match t.find? place with
  | some .directory => true
  | _ => false

/-- Put something at a place. -/
def put (t : FileTree) (place : Place) (node : Node) : FileTree :=
  { t with nodes := (place, node) :: t.nodes.filter (·.1 != place) }

theorem lookup_filter_ne {place other : Place} (h : other ≠ place) (nodes : List (Place × Node)) :
    (nodes.filter (·.1 != place)).lookup other = nodes.lookup other := by
  induction nodes with
  | nil => rfl
  | cons n rest ih =>
    obtain ⟨p, x⟩ := n
    by_cases hp : p = place
    · have hb : (other == p) = false := by simpa [hp] using h
      simp [hp ▸ hb, hp, ih, List.lookup_cons]
    · simp [hp, ih, List.lookup_cons]

theorem find?_put (t : FileTree) (place other : Place) (node : Node) :
    (t.put place node).find? other = if other = place then some node else t.find? other := by
  by_cases h : other = place
  · simp [find?, put, h]
  · have hb : (other == place) = false := by simpa using h
    simp only [find?, put, List.lookup_cons, hb, if_neg h]
    exact lookup_filter_ne h t.nodes

/-! ## Paths -/

/-- The longest name of a file, in bytes. -/
def maxNameBytes : Nat := 255

/-- The longest path, in bytes. -/
def maxPathBytes : Nat := 4095

/-- The components of a path, and the place where it starts. -/
def pathFrom (t : FileTree) (path : String) : Place × List String :=
  let components := (path.toList.splitOn '/').map String.ofList
  (if path.toList.head? = some '/' then [] else t.workingDirectory, components)

/-- Go one component further from a place, which has to be a directory. -/
def enter (t : FileTree) (place : Place) (component : String) : Option Place :=
  if !t.isDirectory place then none
  else if component = "" ∨ component = "." then some place
  else if component = ".." then some place.dropLast
  else
    let there := place ++ [component]
    (t.find? there).map fun _ => there

/-- Follow components from a place. -/
def walk (t : FileTree) (place : Place) (components : List String) : Option Place :=
  components.foldlM t.enter place

/-- The place of an existing file. -/
def locate? (t : FileTree) (path : String) : Option Place :=
  if path = "" ∨ maxPathBytes < path.utf8ByteSize then none
  else
    let (start, components) := t.pathFrom path
    t.walk start components

/-- The place of a file that may be created: its directory has to exist, and it needs a name. -/
def target? (t : FileTree) (path : String) : Option Place :=
  let (start, components) := t.pathFrom path
  let name := components.getLastD ""
  if name ∈ ["", ".", ".."] ∨ maxNameBytes < name.utf8ByteSize ∨ maxPathBytes < path.utf8ByteSize then
    none
  else
    (t.walk start components.dropLast).bind fun directory =>
      if t.isDirectory directory then some (directory ++ [name]) else none

/-! ## Files -/

/-- Load the lines of a file. From a device without room a machine would read on for ever. Here it is
given up, like a directory. -/
def load (t : FileTree) (path : String) : Except LoadError (List String) :=
  match (t.locate? path).bind t.find? with
  | none => .error .cannotOpen
  | some (.file content) =>
    match Text.readLines? content with
    | some lines => .ok lines
    | none => .error .cannotRead
  | some .sink => .ok []
  | some .directory | some .full => .error .cannotRead

/-- Create a file, or replace what it holds. -/
def store (t : FileTree) (path text : String) : Except StoreError Unit × FileTree :=
  match t.target? path with
  | none => (.error .cannotCreate, t)
  | some place =>
    match t.find? place with
    | some .directory => (.error .cannotCreate, t)
    | some .sink => (.ok (), t)
    | some .full => (if text = "" then .ok () else .error .cannotWrite, t)
    | some (.file _) | none => (.ok (), t.put place (.file text.toUTF8))

/-- Make a directory and those above it, from the root down. What is there already stays. -/
def makeDirectories (t : FileTree) (place : Place) : FileTree :=
  let above := (List.range (place.length + 1)).map place.take
  (above.filter fun p => (t.find? p).isNone).foldl (fun t p => t.put p .directory) t

/-- Put something at a place, with the directories above it. -/
def plant (t : FileTree) (place : Place) (node : Node) : FileTree :=
  (t.makeDirectories place.dropLast).put place node

/-- A tree with the usual devices and an empty working directory. -/
def fresh (workingDirectory : Place) : FileTree :=
  let t : FileTree := { nodes := [], workingDirectory }
  ((t.plant ["dev", "null"] .sink).plant ["dev", "full"] .full).makeDirectories workingDirectory

end FileTree

/-! ## Scripts -/

/-- Run a script on a file tree. -/
def Script.runOn {α : Type} : Script α → FileTree → α × FileTree
  | done result, t => (result, t)
  | load path next, t => (next (t.load path)).runOn t
  | store path text next, t =>
    let (answer, t) := t.store path text
    (next answer).runOn t

end HackAssembler
