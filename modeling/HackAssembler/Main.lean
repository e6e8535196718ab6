-- SUMMARY: The program: the command on the files of the machine.
import HackAssembler.Command.Run
import HackAssembler.Report.Log

/-!
# The program

The command runs as a script. Here its questions are put to the machine, and what it
prints goes to the standard streams.
-/

namespace HackAssembler

/-- The environment variable with the filter of the log. -/
def logVariable : String :=
  "RUST_LOG"

/-- Load a file of the machine. -/
def loadFromDisk (path : String) : IO (Except LoadError (List String)) := do
  match ← (IO.FS.Handle.mk path .read).toBaseIO with
  | .error _ => return .error .cannotOpen
  | .ok handle =>
    match ← handle.readBinToEnd.toBaseIO with
    | .error _ => return .error .cannotRead
    | .ok bytes =>
      match Text.readLines? bytes with
      | some lines => return .ok lines
      | none => return .error .cannotRead

/-- Store a file of the machine. -/
def storeOnDisk (path text : String) : IO (Except StoreError Unit) := do
  match ← (IO.FS.Handle.mk path .write).toBaseIO with
  | .error _ => return .error .cannotCreate
  | .ok handle =>
    match ← (do handle.putStr text; handle.flush : IO Unit).toBaseIO with
    | .error _ => return .error .cannotWrite
    | .ok () => return .ok ()

/-- Perform a script on the files of the machine. -/
def Script.perform {α : Type} : Script α → IO α
  | done result => return result
  | load path next => do (next (← loadFromDisk path)).perform
  | store path text next => do (next (← storeOnDisk path text)).perform

end HackAssembler

open HackAssembler in
/-- Run the command, print its text, and log its events. -/
def main (args : List String) : IO UInt32 := do
  let outcome ← (command args).perform
  let filter := LogFilter.parse ((← IO.getEnv logVariable).getD "")
  for line in filter.logLines outcome.events do
    IO.eprintln line
  if outcome.exitCode = 2 then IO.eprint usageText
  IO.print outcome.output
  return outcome.exitCode.toUInt32
