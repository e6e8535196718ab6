-- SUMMARY: Paths: file names, stems, and the path with another extension.

/-!
# Paths

The components of a path stand between slashes. Empty components and single points say
nothing. The last component that says something is the file name, unless it is the
parent directory `..`. An extension starts at the last point of a file name, but never
at its first character.
-/

namespace HackAssembler.Path

/-- A component that says nothing. -/
def isVoid (component : List Char) : Bool :=
  component = [] || component = ['.']

/-- A path around its file name. -/
structure Parts where
  /-- What stands in front of the file name, up to the last slash. -/
  parent : List Char
  name : List Char
  /-- Whether the path ends with the file name. -/
  isLast : Bool

/-- Find the file name of a path. -/
def parts? (path : List Char) : Option Parts :=
  let components := (path.splitOn '/').reverse
  match components.dropWhile isVoid with
  | [] => none
  | name :: above =>
    if name = ['.', '.'] then none
    else some {
      parent := above.reverse.flatMap (· ++ ['/'])
      name
      isLast := components.head? = some name }

/-- The part of a file name in front of its extension, if it has one. -/
def stem? (name : List Char) : Option (List Char) :=
  match name.reverse.dropWhile (· ≠ '.') with
  | [] | [_] => none
  | _ :: stem => some stem.reverse

/-- The path with an extension in the place of that of its file name, and without what follows the
file name. A path without a file name stays as it is. The old extension goes first: where
that leaves a path that ends with the parent directory, there is no file name any more,
and nothing is added. -/
def withExtension (path extension : String) : String :=
  match parts? path.toList with
  | none => path
  | some parts =>
    match stem? parts.name with
    | none => String.ofList (parts.parent ++ parts.name) ++ "." ++ extension
    | some stem =>
      if stem = ['.'] ∧ parts.isLast then String.ofList (parts.parent ++ ['.', '.'])
      else String.ofList (parts.parent ++ stem) ++ "." ++ extension

example : withExtension "a.b/Pong.L.asm" "hack" = "a.b/Pong.L.hack" := by decide

example : withExtension "dir/.hidden/" "hack" = "dir/.hidden.hack" := by decide

example : withExtension "..asm" "hack" = ".." := by decide

end HackAssembler.Path
