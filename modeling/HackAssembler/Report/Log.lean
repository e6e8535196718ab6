-- SUMMARY: The log of a run: levels, targets, filters and the text of events.
import HackAssembler.Assembly.Event

/-!
# The log

Each event has a level and a target, the part of the program that it comes from. A
filter is a list of directives. A directive lets events up to some level through, for
all targets or for those whose names start with a given text, and the directive with the
longest such text decides.
-/

namespace HackAssembler

/-- The level of an event: a lower level is more important. -/
inductive Level where
  | error
  | warn
  | info
  | debug
  | trace
  deriving DecidableEq, Repr

namespace Level

def text : Level → String
  | error => "ERROR"
  | warn => "WARN"
  | info => "INFO"
  | debug => "DEBUG"
  | trace => "TRACE"

/-- The place of a level. Nothing has the place zero. -/
def rank : Level → Nat
  | error => 1
  | warn => 2
  | info => 3
  | debug => 4
  | trace => 5

end Level

/-! ## Events -/

namespace Event

def level : Event → Level
  | label .. | allocation .. => .debug
  | placed .. | linked .. => .info

/-- The part of the program that an event comes from. -/
def target : Event → String
  | label .. | allocation .. => "hackasm::symbol"
  | placed .. | linked .. => "hackasm::assembler"

/-- What an event says. -/
def text : Event → String
  | label name address => s!"label name=\"{name}\" addr={address.toNat}"
  | allocation name address => s!"variable name=\"{name}\" addr={address.toNat}"
  | placed codeCount labelCount => s!"first pass done instructions={codeCount} labels={labelCount}"
  | linked variableCount => s!"second pass done variables={variableCount}"

/-- The line of an event in the log. -/
def logLine (e : Event) : String :=
  s!"{e.level.text} {e.target}: {e.text}"

end Event

/-! ## Filters -/

/-- Lets events of some targets through, up to the level of the given rank. -/
structure Directive where
  target : String := ""
  rank : Nat
  deriving DecidableEq, Repr

namespace Directive

/-- The rank of a level by its name or number, without regard to case. -/
def rank? (s : String) : Option Nat :=
  match s.toLower with
  | "off" | "0" => some 0
  | "error" | "1" => some 1
  | "warn" | "2" => some 2
  | "info" | "3" => some 3
  | "debug" | "4" => some 4
  | "trace" | "5" => some 5
  | _ => none

/-- Read a directive: a level, a target with a level, or a target alone, which lets everything
through. -/
def parse? (s : String) : Option Directive :=
  match rank? s with
  | some rank => some { rank }
  | none =>
    match (s.toList.splitOn '=').map String.ofList with
    | [target] => some { target, rank := Level.trace.rank }
    | [target, level] => (rank? level).map fun rank => { target, rank }
    | _ => none

/-- Whether a directive speaks about an event. -/
def covers (d : Directive) (e : Event) : Bool :=
  d.target.toList.isPrefixOf e.target.toList

end Directive

/-- What a log shows. -/
abbrev LogFilter := List Directive

namespace LogFilter

/-- Read the directives between commas. Without any, errors are shown. -/
def parse (s : String) : LogFilter :=
  match (s.toList.splitOn ',').filterMap fun d => if d = [] then none else Directive.parse? (String.ofList d) with
  | [] => [{ rank := Level.error.rank }]
  | directives => directives

/-- The directive that decides about an event: the last one among those with the longest target. -/
def decisive? (filter : LogFilter) (e : Event) : Option Directive :=
  (filter.filter (·.covers e)).foldl
    (fun best d => match best with
      | some b => if b.target.length ≤ d.target.length then some d else best
      | none => some d)
    none

/-- Whether an event is shown. -/
def shows (filter : LogFilter) (e : Event) : Bool :=
  match filter.decisive? e with
  | some d => e.level.rank ≤ d.rank
  | none => false

/-- The lines of a log. -/
def logLines (filter : LogFilter) (events : List Event) : List String :=
  (events.filter filter.shows).map Event.logLine

end LogFilter

end HackAssembler
