-- SUMMARY: The events of a run, in order: one for each entry that is made, and one for each pass that succeeds.
import HackAssembler.Proofs.Assembly.Faults
import HackAssembler.Proofs.Assembly.Specification
import HackAssembler.Proofs.Source.Grammar

/-!
# The events of a run

Every operation that makes an entry tells of it, and no other operation tells of anything. So the
events of a pass are the entries that it adds to the table, in their order, whether or not the pass
succeeds. Which entries these are is known from the lines of the source, and with them the events
of the whole run.
-/

namespace HackAssembler

/-! ## Events and entries -/

namespace Event

/-- What is told of an entry when it is made. The predefined ones are there from the start, and nothing
is told of them. -/
def ofBinding? : String × Symbol → Option Event
  | (_, ⟨_, .predefined⟩) => none
  | (name, ⟨address, .label _⟩) => some (.label name address)
  | (name, ⟨address, .var⟩) => some (.allocation name address)

/-- Whether an event tells of an entry, and not of the end of a pass. -/
def isEntry : Event → Bool
  | label .. | allocation .. => true
  | placed .. | linked .. => false

theorem isEntry_of_ofBinding? {entry : String × Symbol} {e : Event} (h : ofBinding? entry = some e) :
    e.isEntry = true := by
  obtain ⟨name, address, kind⟩ := entry
  cases kind <;> cases h <;> rfl

theorem isSome_ofBinding? (entry : String × Symbol) :
    (ofBinding? entry).isSome = decide (entry.2.kind ≠ .predefined) := by
  obtain ⟨name, address, kind⟩ := entry
  cases kind <;> simp [ofBinding?]

end Event

namespace SymbolTable

/-- What is told of the entries of a table, in the order in which they are made. -/
def trace (t : SymbolTable) : List Event :=
  t.entries.filterMap Event.ofBinding?

theorem trace_initial : initial.trace = [] := by
  decide

theorem filter_isEntry_trace (t : SymbolTable) : t.trace.filter Event.isEntry = t.trace := by
  refine List.filter_eq_self.mpr fun e he => ?_
  obtain ⟨entry, -, hentry⟩ := List.mem_filterMap.mp he
  exact Event.isEntry_of_ofBinding? hentry

/-- The trace has an event for each entry that is not predefined. -/
theorem map_some_trace (t : SymbolTable) :
    t.trace.map some =
      (t.entries.filter fun e => e.2.kind ≠ .predefined).map Event.ofBinding? := by
  rw [trace, List.map_filterMap_some_eq_filter_map_isSome, List.filter_map]
  refine congrArg (List.map Event.ofBinding?) (List.filter_congr fun entry _ => ?_)
  exact Event.isSome_ofBinding? entry

/-! ## One operation -/

theorem trace_defineLabel (t : SymbolTable) (name : String) (address : Word) (line : Nat) :
    (t.defineLabel name address line).symbols.trace =
      t.trace ++ (t.defineLabel name address line).event?.toList := by
  cases hfind : t.find? name with
  | some symbol => simp [defineLabel_of_bound hfind]
  | none =>
    rw [defineLabel_of_free hfind]
    simp [trace, Event.ofBinding?]

theorem trace_resolve (t : SymbolTable) (name : String) :
    (t.resolve name).symbols.trace = t.trace ++ (t.resolve name).event?.toList := by
  cases hfind : t.find? name with
  | some symbol => simp [resolve_of_bound hfind]
  | none =>
    by_cases hroom : t.nextVariable ≤ Memory.maxAddress
    · rw [resolve_of_free hfind hroom]
      simp [trace, Event.ofBinding?]
    · simp [resolve_of_full hfind hroom]

theorem trace_resolveCode (t : SymbolTable) (code : Code) :
    (code.resolve t).symbols.trace = t.trace ++ (code.resolve t).event?.toList := by
  cases hname : code.symbol? with
  | none =>
    obtain ⟨instruction, hresolve⟩ := Code.exists_resolve_of_nameless hname
    simp [hresolve]
  | some name =>
    rw [Code.symbol?_eq_some_iff.mp hname]
    exact trace_resolve t name

end SymbolTable

/-! ## One pass -/

namespace Placement

/-- The events so far are those of the table so far. -/
def Traced (p : Placement) : Prop :=
  p.events.toList = p.symbols.trace

theorem trace_place (p : Placement) (name : String) (line : Nat) :
    (p.place name line).symbols.trace = p.symbols.trace ++ (p.place name line).event?.toList := by
  unfold place
  split
  · exact SymbolTable.trace_defineLabel _ _ _ _
  · simp

theorem Traced.step {p : Placement} (h : p.Traced) (r : Reading) : (p.step r).Traced := by
  unfold Placement.step
  match r.item with
  | .ok (.code code) => exact h
  | .error e => exact h
  | .ok (.label name) =>
    unfold Traced record at *
    simp [trace_place, h]

theorem traced_ofReadings (rs : List Reading) : (ofReadings rs).Traced := by
  unfold ofReadings
  induction rs using List.reverseRecOn with
  | nil => exact SymbolTable.trace_initial.symm
  | append_singleton rs r ih =>
    rw [List.foldl_concat]
    exact ih.step r

end Placement

namespace Linking

/-- The events so far are those by which the table so far is ahead of the one at the start. -/
def Traced (t : SymbolTable) (k : Linking) : Prop :=
  k.symbols.trace = t.trace ++ k.events.toList

theorem Traced.step {t : SymbolTable} {k : Linking} (h : Traced t k) (c : Located Code) :
    Traced t (k.step c) := by
  unfold Traced at *
  simp [Linking.step, SymbolTable.trace_resolveCode, h]

theorem traced_ofProgram (p : Program) : Traced p.symbols (ofProgram p) := by
  unfold ofProgram
  induction p.code using List.reverseRecOn with
  | nil => exact (List.append_nil _).symm
  | append_singleton code c ih =>
    rw [List.foldl_concat]
    exact ih.step c

end Linking

/-! ## The entries of a source -/

namespace Source

/-- The labels that the first pass accepts. -/
def accepted (lines : List String) : List (Located String) :=
  (labels lines).filter fun l => (fault? lines l.line).isNone

theorem mem_accepted {lines : List String} {l : Located String} :
    l ∈ accepted lines ↔
      label? lines l.line = some l.item ∧ ∀ error, ¬ Faulty lines l.line error := by
  simp only [accepted, List.mem_filter, mem_labels, faulty_iff, Option.isNone_iff_eq_none,
    Option.eq_none_iff_forall_ne_some, ne_eq]

theorem before_placed?_eq (lines : List String) :
    before (placed? lines) lines.length = (accepted lines).map (labelEntry lines) := by
  unfold accepted labels before
  rw [List.filter_filterMap, List.map_filterMap]
  apply List.filterMap_congr
  intro i _
  unfold placed?
  cases hlabel : label? lines i with
  | none => rfl
  | some name => cases hfault : fault? lines i <;> simp [Option.filter, hfault]

theorem pairwise_accepted (lines : List String) :
    (accepted lines).Pairwise fun l m => l.line < m.line :=
  (pairwise_before _ _).filter _

/-- What is told of a label when it is accepted. -/
def labelEvent (lines : List String) (l : Located String) : Event :=
  .label l.item (BitVec.ofNat 16 (position lines l.line))

/-- What is told of a variable when it is allocated. -/
def variableEvent (i : Nat) (name : String) : Event :=
  .allocation name (BitVec.ofNat 16 (16 + i))

/-- The variables that there is a word for. -/
def placedVariables (lines : List String) : List String :=
  (variableNames lines).take 32752

theorem filterMap_ofBinding?_labels (lines : List String) (ls : List (Located String)) :
    (ls.map (labelEntry lines)).filterMap Event.ofBinding? = ls.map (labelEvent lines) := by
  rw [List.filterMap_map, ← List.filterMap_eq_map]
  rfl

theorem filterMap_ofBinding?_variables (names : List String) :
    (names.mapIdx variableEntry).filterMap Event.ofBinding? = names.mapIdx variableEvent := by
  rw [List.mapIdx_eq_zipIdx_map, List.mapIdx_eq_zipIdx_map, List.filterMap_map,
    ← List.filterMap_eq_map]
  rfl

end Source

open Source

/-! ## Both passes -/

theorem Placement.entries_ofReadings (lines : List String) :
    (ofReadings (readings lines)).symbols.entries =
      SymbolTable.initial.entries ++ (accepted lines).map (labelEntry lines) := by
  rw [(follows_readings lines).entries_eq, before_placed?_eq]

theorem Placement.events_ofReadings (lines : List String) :
    (ofReadings (readings lines)).events.toList = (accepted lines).map (labelEvent lines) := by
  have htraced := traced_ofReadings (readings lines)
  rw [htraced, SymbolTable.trace, entries_ofReadings, List.filterMap_append,
    filterMap_ofBinding?_labels]
  exact congrArg (· ++ _) SymbolTable.trace_initial

namespace Program.Holds

variable {lines : List String} {p : Program}

theorem entries_ofProgram (h : p.Holds lines) :
    (Linking.ofProgram p).symbols.entries =
      p.symbols.entries ++ (placedVariables lines).mapIdx variableEntry := by
  rw [(Linking.follows_ofProgram p).symbols_eq, h.entries_linked, h.entries_eq, placedVariables]

theorem events_ofProgram (h : p.Holds lines) :
    (Linking.ofProgram p).events.toList = (placedVariables lines).mapIdx variableEvent := by
  have htraced : (Linking.ofProgram p).symbols.trace = p.symbols.trace ++ _ :=
    Linking.traced_ofProgram p
  rw [SymbolTable.trace, h.entries_ofProgram, List.filterMap_append,
    filterMap_ofBinding?_variables] at htraced
  exact (List.append_cancel_left htraced).symm

theorem labelCount_eq (h : p.Holds lines) : p.symbols.labelCount = (labels lines).length := by
  have hentries : p.symbols.labelCount = p.symbols.entries.countP fun e => e.2.kind.line?.isSome :=
    List.countP_reverse.symm
  have hinitial : (SymbolTable.initial.entries.countP fun e => e.2.kind.line?.isSome) = 0 := by decide
  have hall : ∀ e ∈ (labels lines).map (labelEntry lines), e.2.kind.line?.isSome = true := by
    simp [labelEntry, SymbolKind.line?]
  rw [hentries, h.entries_eq, List.countP_append, hinitial, List.countP_eq_length.mpr hall,
    List.length_map, Nat.zero_add]

end Program.Holds

theorem Assembly.Holds.variableCount_eq {lines : List String} {a : Assembly} (h : a.Holds lines) :
    a.symbols.variableCount = (variableNames lines).length := by
  have hentries : a.symbols.variableCount = a.symbols.entries.countP fun e => e.2.kind = .var :=
    List.countP_reverse.symm
  have hinitial : (SymbolTable.initial.entries.countP fun e => e.2.kind = .var) = 0 := by decide
  have hlabels : (((labels lines).map (labelEntry lines)).countP fun e => e.2.kind = .var) = 0 := by
    simp [labelEntry]
  have hall : ∀ e ∈ (variableNames lines).mapIdx variableEntry, decide (e.2.kind = .var) = true := by
    intro e he
    obtain ⟨i, -, rfl⟩ := List.mem_mapIdx.mp he
    rfl
  rw [hentries, h.entries_eq, List.countP_append, List.countP_append, hinitial, hlabels,
    List.countP_eq_length.mpr hall, List.length_mapIdx, Nat.zero_add]

theorem Program.symbols_of_ofLines {lines : List String} {p : Program}
    (h : Program.ofLines lines = .ok p) :
    p.symbols = (Placement.ofReadings (readings lines)).symbols := by
  rw [ofLines_eq] at h
  split at h
  · obtain rfl := Except.ok.inj h
    rfl
  · cases h

theorem Program.symbols_eq_of_link {p : Program} {a : Assembly} (h : p.link = .ok a) :
    a.symbols = (Linking.ofProgram p).symbols := by
  rw [link_eq_assembly, Linking.assembly] at h
  split at h
  · obtain rfl := Except.ok.inj h
    rfl
  · cases h

theorem Program.events_secondPass (p : Program) :
    p.secondPass.events = (Linking.ofProgram p).events.toList ++
      (p.link.toOption.map fun a => .linked a.symbols.variableCount).toList := rfl

theorem Program.Holds.events_eq {lines : List String} {p : Program} (h : p.Holds lines) :
    p.secondPass.events =
      (placedVariables lines).mapIdx variableEvent ++
        match p.link with
        | .ok _ => [.linked (variableNames lines).length]
        | .error _ => [] := by
  rw [events_secondPass, h.events_ofProgram]
  cases hlink : p.link with
  | ok a =>
    rw [← (h.link hlink).variableCount_eq]
    rfl
  | error errors => rfl

/-- The events of a run over the lines of a source. -/
theorem events_of_lines (lines : List String) :
    events lines =
      (Placement.ofReadings (readings lines)).events.toList ++
        match Program.ofLines lines with
        | .ok p => .placed p.code.length p.symbols.labelCount :: p.secondPass.events
        | .error _ => [] := by
  have hresult : (firstPass lines).result = Program.ofLines lines := rfl
  have hevents : (firstPass lines).events =
      (Placement.ofReadings (readings lines)).events.toList ++
        ((Program.ofLines lines).toOption.map fun p =>
          .placed p.code.length p.symbols.labelCount).toList := rfl
  rw [events, bothPasses, Pass.events_andThen, hevents, hresult, List.append_assoc]
  cases Program.ofLines lines <;> rfl

/-- The events of a run, told from the lines: a label for each one that is accepted, and if that is
all of them, the counts of the first pass, a variable for each one that there is a word for, and if
that is all of them, the count of the second pass. -/
theorem events_eq (lines : List String) :
    events lines =
      (accepted lines).map (labelEvent lines) ++
        match Program.ofLines lines with
        | .ok p =>
          .placed (instructions lines).length (labels lines).length ::
            ((placedVariables lines).mapIdx variableEvent ++
              match p.link with
              | .ok _ => [.linked (variableNames lines).length]
              | .error _ => [])
        | .error _ => [] := by
  rw [events_of_lines, Placement.events_ofReadings]
  cases hprogram : Program.ofLines lines with
  | error errors => rfl
  | ok p =>
    have h := Program.holds_of_ofLines hprogram
    simp only [h.code_eq, h.labelCount_eq, h.events_eq]

/-- A label that is defined twice is told of once, and then nothing follows the labels. -/
example : events ["(LOOP)", "@i", "(LOOP)", "M=M+1", "(END)"] = [.label "LOOP" 0, .label "END" 2] := by
  decide +kernel

/-- The events of a run that succeeds, less the ends of its passes, are the trace of its table. -/
theorem filter_isEntry_events {lines : List String} {a : Assembly}
    (ha : assembleLines lines = .ok a) : (events lines).filter Event.isEntry = a.symbols.trace := by
  rw [assembleLines_eq] at ha
  obtain ⟨p, hprogram, hlink⟩ := bind_eq_ok_iff.mp ha
  have hfirst : (Placement.ofReadings (readings lines)).events.toList = p.symbols.trace := by
    rw [Program.symbols_of_ofLines hprogram]
    exact Placement.traced_ofReadings (readings lines)
  have hsecond : a.symbols.trace = p.symbols.trace ++ (Linking.ofProgram p).events.toList := by
    rw [Program.symbols_eq_of_link hlink]
    exact Linking.traced_ofProgram p
  rw [events_of_lines, hprogram, hfirst]
  simp only [Program.events_secondPass, hlink, Except.toOption, Option.map_some, Option.toList_some]
  rw [List.filter_append, List.filter_cons_of_neg (by simp [Event.isEntry]), List.filter_append,
    ← List.append_assoc, ← List.filter_append, ← hsecond, a.symbols.filter_isEntry_trace]
  exact List.append_nil _

end HackAssembler
