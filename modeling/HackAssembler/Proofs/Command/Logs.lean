-- SUMMARY: The log of a run with all its events, and what it says about the table.
import HackAssembler.Report.Log
import HackAssembler.Proofs.Assembly.Events
import HackAssembler.Proofs.Command.Runs

/-!
# The log of a run

The log says what becomes of the table: a line for each label that the first pass accepts, a line
for each variable that the second pass allocates, and a line behind each pass that succeeds. It
does so whether or not the source can be assembled. What is left out of it are the predefined
names, and the references and labels that add nothing.
-/

namespace HackAssembler

open Source

/-! ## Filters -/

theorem Event.rank_level_le (e : Event) : e.level.rank ≤ Level.debug.rank := by
  cases e <;> simp [level, Level.rank]

namespace LogFilter

/-- A level for all targets decides about every event. -/
theorem shows_level (rank : Nat) (e : Event) :
    shows [{ rank }] e = decide (e.level.rank ≤ rank) := by
  simp [shows, decisive?, Directive.covers]

theorem logLines_of_rank {rank : Nat} (h : Level.debug.rank ≤ rank) (es : List Event) :
    logLines [{ rank }] es = es.map Event.logLine := by
  have hshown : ∀ e ∈ es, shows [{ rank }] e = true := by
    intro e _
    simpa only [shows_level, decide_eq_true_eq] using e.rank_level_le.trans h
  rw [logLines, List.filter_eq_self.mpr hshown]

theorem parse_debug : parse "debug" = [{ rank := Level.debug.rank }] := by
  decide +kernel

end LogFilter

/-! ## Runs -/

namespace Arguments

variable {args : Arguments} {t : FileTree} {lines : List String}

theorem events_run (hload : t.load args.input = .ok lines) :
    (args.run.runOn t).1.events = events lines := by
  simp only [run, Script.runOn_bind, Script.runOn_loadFile, hload, Script.runOn_pure, events]

end Arguments

/-- What the events of a run over some lines say about the table. -/
structure Traces (lines : List String) (es : List Event) : Prop where
  /-- The labels come first. The second pass is not reached if one of the lines is faulty, and the last
  event is missing if there is a variable without a word. -/
  order : es = (accepted lines).map (labelEvent lines) ++
    match Program.ofLines lines with
    | .ok p =>
      .placed (instructions lines).length (labels lines).length ::
        ((placedVariables lines).mapIdx variableEvent ++
          match p.link with
          | .ok _ => [.linked (variableNames lines).length]
          | .error _ => [])
    | .error _ => []
  accepted_iff : ∀ l, l ∈ accepted lines ↔
    label? lines l.line = some l.item ∧ ∀ error, ¬ Faulty lines l.line error
  inOrder : (accepted lines).Pairwise fun l m => l.line < m.line
  /-- The labels that are told of are those that the first pass adds to the table. -/
  placed : (Placement.ofReadings (readings lines)).symbols.entries =
    SymbolTable.initial.entries ++ (accepted lines).map (labelEntry lines)
  /-- The variables that are told of are those that the second pass adds to the table. -/
  linked : ∀ p, Program.ofLines lines = .ok p →
    (Linking.ofProgram p).symbols.entries =
      p.symbols.entries ++ (placedVariables lines).mapIdx variableEntry
  /-- If both passes succeed, the events tell of each entry that is not predefined. -/
  table : ∀ a, assembleLines lines = .ok a →
    (es.filter Event.isEntry).map some =
      (a.symbols.entries.filter fun e => e.2.kind ≠ .predefined).map Event.ofBinding?

theorem traces_events (lines : List String) : Traces lines (events lines) where
  order := events_eq lines
  accepted_iff _ := mem_accepted
  inOrder := pairwise_accepted lines
  placed := Placement.entries_ofReadings lines
  linked _ h := (Program.holds_of_ofLines h).entries_ofProgram
  table a h := by rw [filter_isEntry_events h, a.symbols.map_some_trace]

/-- The log of a run shows all its events once they are enabled, and these are a trace of the table. -/
theorem Arguments.log_traces_table {args : Arguments} {t : FileTree} {lines : List String}
    (hload : t.load args.input = .ok lines) :
    (LogFilter.parse "debug").logLines (args.run.runOn t).1.events =
      (args.run.runOn t).1.events.map Event.logLine ∧
    Traces lines (args.run.runOn t).1.events := by
  rw [events_run hload]
  refine ⟨?_, traces_events lines⟩
  rw [LogFilter.parse_debug]
  exact LogFilter.logLines_of_rank le_rfl _

theorem Arguments.log_traces_table_loop :
    let source := "(LOOP)\n@i\nM=M+1\n@END\n0;JMP\n(END)\n@i"
    let t := FileTree.ofTexts [("Loop.asm", source)]
    let args : Arguments := { input := "Loop.asm" }
    t.load args.input = .ok (Text.lines source) ∧
      Traces (Text.lines source) (args.run.runOn t).1.events ∧
      (LogFilter.parse "debug").logLines (args.run.runOn t).1.events =
        ["DEBUG hackasm::symbol: label name=\"LOOP\" addr=0",
         "DEBUG hackasm::symbol: label name=\"END\" addr=4",
         "INFO hackasm::assembler: first pass done instructions=5 labels=2",
         "DEBUG hackasm::symbol: variable name=\"i\" addr=16",
         "INFO hackasm::assembler: second pass done variables=1"] := by
  intro source t args
  have hsource : t.HasText args.input source := ⟨["w", "Loop.asm"], by decide +kernel, rfl⟩
  obtain ⟨hlog, htraces⟩ := log_traces_table hsource.load
  refine ⟨hsource.load, htraces, ?_⟩
  rw [hlog, events_run hsource.load]
  decide +kernel

end HackAssembler
