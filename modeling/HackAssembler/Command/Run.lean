-- SUMMARY: The command: what is printed and written for each invocation.
import HackAssembler.Assembly.Assembly
import HackAssembler.Command.Arguments
import HackAssembler.Command.Path
import HackAssembler.Command.Script
import HackAssembler.Report.Diagnostic
import HackAssembler.Report.Listing
import HackAssembler.Symbols.Yaml

/-!
# The command

The source is loaded and assembled before anything is written, so a source with errors
leaves all files alone. Then the binary is written, by default beside the source, then
the symbols, and a listing is printed last.
-/

namespace HackAssembler

/-! ## Outcomes -/

/-- Why an assembly was not carried out. -/
inductive Failure where
  | cannotOpen (path : String)
  | cannotRead
  | cannotCreate (path : String)
  | cannotWrite (path : String)
  /-- The source has the given number of errors. -/
  | aborted (errors : Nat)
  deriving DecidableEq, Repr

def Failure.message : Failure → String
  | cannotOpen path => s!"Failed to open file: {path}"
  | cannotRead => "Failed to read line"
  | cannotCreate path => s!"Failed to create file: {path}"
  | cannotWrite path => s!"Failed to write file: {path}"
  | aborted errors => s!"Aborting due to {errors} previous error(s)"

/-- What a command prints and how it ends. -/
structure Outcome where
  exitCode : Nat
  output : String := ""
  events : List Event := []

namespace Outcome

/-- A command that did what it was asked for. -/
def success (output : String) : Outcome :=
  { exitCode := 0, output }

/-- A command that failed after printing some text. -/
def failure (printed : String) (f : Failure) : Outcome :=
  { exitCode := 1, output := printed ++ Text.unlines [Diagnostic.error f.message] }

end Outcome

/-! ## Help -/

def versionText : String :=
  "hackasm 0.1.0\n"

def usageText : String :=
  "Usage:\n  hackasm [OPTIONS] <INPUT>\n"

def helpText : String :=
  versionText
    ++ "  Assembler for the Hack 16-bit machine\n\n"
    ++ usageText
    ++ "\nArguments:\n  <INPUT>  Input file\n\nOptions:\n"
    ++ "  -o, --output <OUTPUT>  Output file [default: <INPUT> with the .hack extension]\n"
    ++ "  -d, --dump             Dump assembly listing\n"
    ++ "  -s, --symbols <FILE>   Write the symbol table as YAML\n"
    ++ "  -h, --help             Print help\n"
    ++ "  -V, --version          Print version\n"

/-! ## Assembling -/

namespace Arguments

/-- Where the binary goes: beside the source unless told otherwise. -/
def outputPath (args : Arguments) : String :=
  args.output.getD (Path.withExtension args.input "hack")

/-- What is printed before the source is loaded. -/
def opening (args : Arguments) : String :=
  Text.unlines ["Hack Assembler", "1. Read File and Parse Lines", s!"  < {args.input}"]

/-- Print the listing of an assembly if it is asked for. -/
def report (args : Arguments) (printed : String) (lines : List String) (a : Assembly) : Outcome :=
  .success <| printed ++
    if args.dump then Listing.render args.input lines a ++ a.symbols.listing else ""

/-- Write the symbols of an assembly if they are asked for. -/
def writeSymbols (args : Arguments) (printed : String) (lines : List String) (a : Assembly) :
    Script Outcome :=
  match args.symbols with
  | none => return args.report printed lines a
  | some path => do
    let printed := printed ++ s!"  > {path}\n"
    match ← Script.storeFile path (Yaml.render a.symbols) with
    | .ok () => return args.report printed lines a
    | .error _ => return .failure printed (.cannotWrite path)

/-- Write what an assembly yields. -/
def write (args : Arguments) (printed : String) (lines : List String) (a : Assembly) :
    Script Outcome := do
  let path := args.outputPath
  let printed := printed ++ s!"  > {path}\n"
  match ← Script.storeFile path a.binary with
  | .ok () => args.writeSymbols printed lines a
  | .error .cannotCreate => return .failure printed (.cannotCreate path)
  | .error .cannotWrite => return .failure printed (.cannotWrite path)

/-- Write what the lines of a source yield, or report their errors. -/
def conclude (args : Arguments) (lines : List String) (result : Except SourceErrors Assembly) :
    Script Outcome :=
  let printed := args.opening ++ "2. Resolve Symbols & Generate Binary\n"
  match result with
  | .ok a => args.write printed lines a
  | .error errors =>
    return .failure (printed ++ Diagnostic.render args.input lines errors) (.aborted errors.length)

/-- Load the source, assemble it and write what it yields. -/
def run (args : Arguments) : Script Outcome := do
  match ← Script.loadFile args.input with
  | .error .cannotOpen => return .failure args.opening (.cannotOpen args.input)
  | .error .cannotRead => return .failure args.opening .cannotRead
  | .ok lines =>
    let passes := bothPasses lines
    return { ← args.conclude lines passes.result with events := passes.events }

end Arguments

/-- Carry out what a command line asks for. -/
def Invocation.run : Invocation → Script Outcome
  | .assemble args => args.run
  | .help => return .success helpText
  | .version => return .success versionText
  | .misuse => return { exitCode := 2 }

/-- Run the command with the given arguments. -/
def command (args : List String) : Script Outcome :=
  (Invocation.ofArgs args).run

end HackAssembler
