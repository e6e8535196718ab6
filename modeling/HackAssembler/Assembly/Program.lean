-- SUMMARY: The first pass: the instructions of a source in order, and the addresses of its labels.
import HackAssembler.Source.Line
import HackAssembler.Source.Statement
import HackAssembler.Symbols.Table

/-!
# Programs

The first pass reads the statements of a source. Its instructions keep their order,
and a label gets the address of the instruction that follows it. The pass goes on
behind errors and finds them all: a line that cannot be read holds no instruction, and
a label that is refused is not defined.
-/

namespace HackAssembler

/-! ## Statements of a source -/

/-- A statement of a source with its line, or what is wrong with that line. -/
abbrev Reading := Located (Except SourceError Statement)

/-- What the lines of a source say. Lines that say nothing are left out. -/
def readings (lines : List String) : List Reading :=
  lines.zipIdx.filterMap fun (raw, line) =>
    let token := Line.normalize raw
    if token = "" then none else some ⟨line, Statement.parse token⟩

/-- The instruction of a reading. -/
def Reading.code? (r : Reading) : Option (Located Code) :=
  match r.item with
  | .ok (.code code) => some ⟨r.line, code⟩
  | _ => none

/-! ## Labels -/

/-- The state of the first pass. -/
structure Placement where
  /-- The number of instructions so far, which is the address of the next one. -/
  next : Nat := 0
  symbols : SymbolTable := .initial
  errors : Array (Located SourceError) := #[]
  events : Array Event := #[]

namespace Placement

/-- Define a label at the next instruction, if that has an address. -/
def place (p : Placement) (name : String) (line : Nat) : SymbolTable.Effect Unit :=
  if p.next ≤ Memory.maxAddress.toNat then
    p.symbols.defineLabel name (BitVec.ofNat 16 p.next) line
  else { result := .error (.addressOutOfRange name), symbols := p.symbols }

/-- Take over what an operation on the table came to. -/
def record (p : Placement) (line : Nat) (effect : SymbolTable.Effect Unit) : Placement :=
  { p with
    symbols := effect.symbols
    errors := p.errors ++ (effect.error?.map (Located.mk line)).toArray
    events := p.events ++ effect.event?.toArray }

/-- Take in one reading. -/
def step (p : Placement) (r : Reading) : Placement :=
  match r.item with
  | .ok (.code _) => { p with next := p.next + 1 }
  | .ok (.label name) => p.record r.line (p.place name r.line)
  | .error e => { p with errors := p.errors.push ⟨r.line, e⟩ }

/-- The first pass over the readings of a source. -/
def ofReadings (rs : List Reading) : Placement :=
  rs.foldl step {}

theorem ofReadings_append (rs more : List Reading) :
    ofReadings (rs ++ more) = more.foldl step (ofReadings rs) :=
  List.foldl_append

end Placement

/-! ## Passes -/

/-- What a pass comes to, and what happens on the way. -/
structure Pass (α : Type) where
  result : Except SourceErrors α
  events : List Event

namespace Pass

variable {α β : Type}

/-- The end of a pass. A pass that succeeds tells so in a last event. -/
def ended (result : Except SourceErrors α) (events : Array Event) (done : α → Event) : Pass α where
  result := result
  events := events.toList ++ (result.toOption.map done).toList

/-- Let another pass follow, if there is something to go on with. -/
def andThen (p : Pass α) (next : α → Pass β) : Pass β :=
  match p.result with
  | .ok a =>
    let q := next a
    { result := q.result, events := p.events ++ q.events }
  | .error errors => { result := .error errors, events := p.events }

theorem result_andThen (p : Pass α) (next : α → Pass β) :
    (p.andThen next).result = p.result.bind fun a => (next a).result := by
  unfold andThen
  cases p.result <;> rfl

theorem events_andThen (p : Pass α) (next : α → Pass β) :
    (p.andThen next).events = p.events ++
      match p.result with
      | .ok a => (next a).events
      | .error _ => [] := by
  unfold andThen
  cases p.result with
  | ok a => rfl
  | error errors => exact (List.append_nil _).symm

end Pass

/-! ## Programs -/

/-- The result of the first pass: every instruction in the order of the source, and the table of
predefined names and labels. -/
structure Program where
  code : List (Located Code)
  symbols : SymbolTable

/-- The program of a pass that found no errors. -/
def Placement.program (p : Placement) (rs : List Reading) : Except SourceErrors Program :=
  if p.errors.isEmpty then .ok ⟨rs.filterMap Reading.code?, p.symbols⟩
  else .error p.errors.toList

/-- The first pass over the lines of a source. -/
def firstPass (lines : List String) : Pass Program :=
  let rs := readings lines
  let p := Placement.ofReadings rs
  .ended (p.program rs) p.events fun program =>
    .placed program.code.length program.symbols.labelCount

/-- The program of a source, or all the errors of the first pass. -/
def Program.ofLines (lines : List String) : Except SourceErrors Program :=
  (firstPass lines).result

theorem Program.ofLines_eq_program (lines : List String) :
    Program.ofLines lines = (Placement.ofReadings (readings lines)).program (readings lines) := rfl

end HackAssembler
