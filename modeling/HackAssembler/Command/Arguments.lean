-- SUMMARY: The command line: options, values and what is asked for.

/-!
# The command line

Arguments are read from left to right. An option stands alone or is followed by its
value, in the same argument or in the next one. Options of one letter may be joined, and
a double hyphen ends the options. The first mistake ends the reading, and so does the
first request for help or for the version.
-/

namespace HackAssembler

/-- What to assemble, and what to write. -/
structure Arguments where
  input : String
  output : Option String := none
  symbols : Option String := none
  dump : Bool := false
  deriving DecidableEq, Repr

/-- What a command line asks for. -/
inductive Invocation where
  | assemble (args : Arguments)
  | help
  | version
  | misuse
  deriving DecidableEq, Repr

/-! ## Options -/

/-- The options that take a value. -/
inductive ValueOption where
  | output
  | symbols
  deriving DecidableEq, Repr

/-- The options of the command. -/
inductive CommandOption where
  | value (option : ValueOption)
  | dump
  | help
  | version
  deriving DecidableEq, Repr

/-- The option of a letter. -/
def CommandOption.ofLetter? : Char → Option CommandOption
  | 'o' => some (.value .output)
  | 's' => some (.value .symbols)
  | 'd' => some .dump
  | 'h' => some .help
  | 'V' => some .version
  | _ => none

/-- The option of a long name. -/
def CommandOption.ofName? : String → Option CommandOption
  | "output" => some (.value .output)
  | "symbols" => some (.value .symbols)
  | "dump" => some .dump
  | "help" => some .help
  | "version" => some .version
  | _ => none

/-! ## Reading -/

/-- The arguments as far as they are known. -/
structure Draft where
  input : Option String := none
  output : Option String := none
  symbols : Option String := none
  dump : Bool := false
  deriving DecidableEq, Repr

/-- How far the reading of a command line has come. -/
inductive Progress where
  /-- Options are still read. -/
  | options (draft : Draft)
  /-- An option waits for its value. -/
  | awaiting (option : ValueOption) (draft : Draft)
  /-- The options have ended. -/
  | positional (draft : Draft)
  | decided (invocation : Invocation)
  deriving DecidableEq, Repr

namespace Draft

/-- Take in the value of an option. Each option is given once, and no value is empty. -/
def setValue? (d : Draft) (option : ValueOption) (value : String) : Option Draft :=
  if value = "" then none
  else match option with
    | .output => if d.output.isSome then none else some { d with output := some value }
    | .symbols => if d.symbols.isSome then none else some { d with symbols := some value }

/-- Take in the path of the input, which is the only argument that is not an option. -/
def setInput? (d : Draft) (value : String) : Option Draft :=
  if value = "" ∨ d.input.isSome then none else some { d with input := some value }

def setDump? (d : Draft) : Option Draft :=
  if d.dump then none else some { d with dump := true }

/-- Go on with options, or give up. -/
def continue? : Option Draft → Progress
  | some d => .options d
  | none => .decided .misuse

/-- Read joined options of one letter. An option that takes a value takes what is left, with or
without an equals sign in front, or the next argument. -/
def readLetters (d : Draft) : List Char → Progress
  | [] => .options d
  | c :: rest =>
    match CommandOption.ofLetter? c with
    | none => .decided .misuse
    | some .help => .decided .help
    | some .version => .decided .version
    | some .dump =>
      match d.setDump? with
      | some d => d.readLetters rest
      | none => .decided .misuse
    | some (.value option) =>
      match rest with
      | [] => .awaiting option d
      | '=' :: value => continue? (d.setValue? option (String.ofList value))
      | value => continue? (d.setValue? option (String.ofList value))

/-- Read an option with a long name. An equals sign separates its value. -/
def readName (d : Draft) (text : List Char) : Progress :=
  let name := String.ofList (text.takeWhile (· ≠ '='))
  let value := (text.dropWhile (· ≠ '=')).tail?.map String.ofList
  match CommandOption.ofName? name, value with
  | some (.value option), some value => continue? (d.setValue? option value)
  | some (.value option), none => .awaiting option d
  | some .dump, none => continue? d.setDump?
  | some .help, none => .decided .help
  | some .version, none => .decided .version
  | _, _ => .decided .misuse

end Draft

namespace Progress

/-- Take in an argument. A single hyphen is a value like any other. -/
def step (p : Progress) (arg : String) : Progress :=
  match p with
  | options d =>
    match arg.toList with
    | ['-', '-'] => .positional d
    | '-' :: '-' :: text => d.readName text
    | '-' :: c :: letters => d.readLetters (c :: letters)
    | _ => Draft.continue? (d.setInput? arg)
  | awaiting option d =>
    match arg.toList with
    | '-' :: _ :: _ => .decided .misuse
    | _ => Draft.continue? (d.setValue? option arg)
  | positional d =>
    match d.setInput? arg with
    | some d => .positional d
    | none => .decided .misuse
  | decided i => .decided i

/-- What is asked for once all arguments are read. -/
def finish : Progress → Invocation
  | options d | positional d =>
    match d.input with
    | some input => .assemble { input, output := d.output, symbols := d.symbols, dump := d.dump }
    | none => .misuse
  | awaiting _ _ => .misuse
  | decided i => i

end Progress

/-- Read a command line. -/
def Invocation.ofArgs (args : List String) : Invocation :=
  (args.foldl Progress.step (.options {})).finish

end HackAssembler
