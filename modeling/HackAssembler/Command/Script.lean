-- SUMMARY: Scripts: what a program does with files, as a tree of questions to the file system.

/-!
# Scripts

A script is an interaction tree: it loads or stores a file, goes on with the answer,
and ends with a result. Scripts are plain data. They are performed on the files of the
machine, or run on a file tree in memory.
-/

namespace HackAssembler

/-- Why a file could not be loaded. -/
inductive LoadError where
  | cannotOpen
  /-- The file was opened, but not all of it is text. -/
  | cannotRead
  deriving DecidableEq, Repr

/-- Why a file could not be stored. -/
inductive StoreError where
  | cannotCreate
  /-- The file was opened, but the text was not taken. -/
  | cannotWrite
  deriving DecidableEq, Repr

/-- A program that works with files. -/
inductive Script (α : Type) where
  | done (result : α)
  /-- Load the lines of the file with the given path. -/
  | load (path : String) (next : Except LoadError (List String) → Script α)
  /-- Create a file or replace what it holds. -/
  | store (path text : String) (next : Except StoreError Unit → Script α)

namespace Script

/-- Go on with the result of a script. -/
def bind {α β : Type} : Script α → (α → Script β) → Script β
  | done result, k => k result
  | load path next, k => load path fun r => (next r).bind k
  | store path text next, k => store path text fun r => (next r).bind k

instance : Monad Script where
  pure := done
  bind := bind

/-- Load a file. -/
def loadFile (path : String) : Script (Except LoadError (List String)) :=
  load path done

/-- Store a file. -/
def storeFile (path text : String) : Script (Except StoreError Unit) :=
  store path text done

end Script

end HackAssembler
