-- SUMMARY: The first pass: its table, its counter and its errors after any number of lines.
import HackAssembler.Proofs.Assembly.Meaning
import HackAssembler.Proofs.Symbols.Calls

/-!
# The first pass

The pass carries a counter and a growing table along, and goes on behind errors. After
any number of lines its state is told by the lines themselves: the counter is the number
of instructions among them, the table holds the labels among them that are accepted, and
the errors are those of the faulty ones, in order.
-/

namespace HackAssembler

namespace Source

/-! ## Faults -/

/-- What is wrong with a label on a line, in the order in which the tests are made. -/
def labelFault? (lines : List String) (i : Nat) (name : String) : Option SourceError :=
  if 32767 < position lines i then some (.addressOutOfRange name)
  else if name ∈ Memory.predefined.map Prod.fst then some (.duplicateLabel name none)
  else (definition? lines i name).map fun first => .duplicateLabel name (some first)

/-- What is wrong with a line. -/
def fault? (lines : List String) (i : Nat) : Option SourceError :=
  match statement? lines i with
  | some (.error e) => some e
  | some (.ok (.label name)) => labelFault? lines i name
  | _ => none

theorem fault?_of_label {lines : List String} {i : Nat} {name : String}
    (hlabel : label? lines i = some name) : fault? lines i = labelFault? lines i name := by
  unfold fault?
  rw [label?_eq_some_iff.mp hlabel]

/-- Everything that is wrong with the lines of a source, in their order. -/
def faults (lines : List String) : SourceErrors :=
  before (fun i => (fault? lines i).map (Located.mk i)) lines.length

/-- The entry of a label. -/
def labelEntry (lines : List String) (l : Located String) : String × Symbol :=
  (l.item, ⟨BitVec.ofNat 16 (position lines l.line), .label l.line⟩)

/-- The entry of the label on a line, if it is accepted. -/
def placed? (lines : List String) (i : Nat) : Option (String × Symbol) :=
  match label? lines i, fault? lines i with
  | some name, none => some (labelEntry lines ⟨i, name⟩)
  | _, _ => none

theorem label?_of_placed? {lines : List String} {i : Nat} {entry : String × Symbol}
    (h : placed? lines i = some entry) : label? lines i = some entry.1 := by
  unfold placed? at h
  split at h
  · rename_i name hlabel _
    rw [hlabel, ← Option.some.inj h]
    rfl
  · cases h

/-- A line as the first pass takes it in. -/
def reading? (lines : List String) (i : Nat) : Option Reading :=
  (statement? lines i).map (Located.mk i)

theorem readings_take (lines : List String) (n : Nat) :
    readings (lines.take n) = before (reading? lines) n := by
  induction n with
  | zero => rfl
  | succ n ih =>
    rw [before_succ, ← ih, List.take_add_one]
    unfold readings
    rw [List.zipIdx_append, List.filterMap_append]
    congr 1
    cases hline : lines[n]? with
    | none => simp [reading?, statement?, hline]
    | some raw =>
      have hn : n < lines.length := (List.getElem?_eq_some_iff.mp hline).1
      have hlength : (lines.take n).length = n := List.length_take_of_le (Nat.le_of_lt hn)
      by_cases htoken : Line.normalize raw = "" <;>
        simp [reading?, statement?, hline, htoken, hlength, -List.length_take]

theorem readings_eq (lines : List String) :
    readings lines = before (reading? lines) lines.length := by
  rw [← readings_take, List.take_length]

theorem position_mono (lines : List String) {m n : Nat} (h : m ≤ n) :
    position lines m ≤ position lines n :=
  (before_isPrefix _ h).length_le

theorem definition?_eq_some_iff {lines : List String} {n i : Nat} {name : String} :
    definition? lines n name = some i ↔
      i < n ∧ label? lines i = some name ∧ ∀ j < i, label? lines j ≠ some name := by
  simp only [definition?, List.find?_range_eq_some, decide_eq_true_eq, List.mem_range,
    Bool.not_eq_true', decide_eq_false_iff_not]
  tauto

theorem definition?_eq_none_iff {lines : List String} {n : Nat} {name : String} :
    definition? lines n name = none ↔ ∀ i < n, label? lines i ≠ some name := by
  simp [definition?]

end Source

/-! ## The state of the pass -/

namespace Placement

open Source

/-- What the state of the pass holds after `n` lines of a source. -/
structure Follows (lines : List String) (n : Nat) (p : Placement) : Prop where
  next_eq : p.next = position lines n
  entries_eq : p.symbols.entries = SymbolTable.initial.entries ++ before (placed? lines) n
  nextVariable_eq : p.symbols.nextVariable = Memory.variableBase
  invariant : p.symbols.Invariant
  errors_eq : p.errors.toList = before (fun i => (fault? lines i).map (Located.mk i)) n

theorem follows_zero (lines : List String) : Follows lines 0 {} where
  next_eq := rfl
  entries_eq := (List.append_nil _).symm
  nextVariable_eq := rfl
  invariant := SymbolTable.invariant_initial
  errors_eq := rfl

section LookUp

variable {lines : List String} {n : Nat} {p : Placement} {name : String}

theorem Follows.find?_of_predefined (h : Follows lines n p)
    (hname : name ∈ Memory.predefined.map Prod.fst) :
    ∃ a, p.symbols.find? name = some ⟨a, .predefined⟩ := by
  obtain ⟨⟨found, a⟩, hmem, rfl⟩ := List.mem_map.mp hname
  have hentry : (found, ⟨a, .predefined⟩) ∈ SymbolTable.initial.entries := by
    rw [SymbolTable.entries_initial]
    exact List.mem_map_of_mem hmem
  refine ⟨a, (SymbolTable.find?_eq_some_iff h.invariant.nodup_names).mpr ?_⟩
  rw [h.entries_eq]
  exact List.mem_append_left _ hentry

/-- The first label of a name is accepted, unless it stands too far behind. -/
theorem placed?_of_definition? {i : Nat} (hname : name ∉ Memory.predefined.map Prod.fst)
    (hdefined : definition? lines n name = some i) (hfits : position lines n ≤ 32767) :
    placed? lines i = some (labelEntry lines ⟨i, name⟩) := by
  obtain ⟨hlt, hlabel, hfirst⟩ := definition?_eq_some_iff.mp hdefined
  -- the label stands in front of line `n`, where addresses still fit
  have hposition : ¬ 32767 < position lines i := by
    have := position_mono lines (Nat.le_of_lt hlt)
    omega
  have hfree : definition? lines i name = none := definition?_eq_none_iff.mpr hfirst
  have hfault : fault? lines i = none := by
    rw [fault?_of_label hlabel, labelFault?, if_neg hposition, if_neg hname, hfree]
    rfl
  simp only [placed?, hlabel, hfault]

theorem Follows.find?_of_defined (h : Follows lines n p) {i : Nat}
    (hname : name ∉ Memory.predefined.map Prod.fst)
    (hdefined : definition? lines n name = some i) (hfits : position lines n ≤ 32767) :
    p.symbols.find? name = some ⟨BitVec.ofNat 16 (position lines i), .label i⟩ := by
  rw [SymbolTable.find?_eq_some_iff h.invariant.nodup_names, h.entries_eq]
  apply List.mem_append_right
  rw [mem_before]
  exact ⟨i, (definition?_eq_some_iff.mp hdefined).1, placed?_of_definition? hname hdefined hfits⟩

theorem Follows.find?_of_undefined (h : Follows lines n p)
    (hname : name ∉ Memory.predefined.map Prod.fst) (hfree : definition? lines n name = none) :
    p.symbols.find? name = none := by
  rw [SymbolTable.find?_eq_none_iff, SymbolTable.names, h.entries_eq, List.map_append,
    List.mem_append, not_or]
  constructor
  · exact SymbolTable.names_initial ▸ hname
  · intro hmem
    obtain ⟨⟨found, symbol⟩, hentry, rfl⟩ := List.mem_map.mp hmem
    obtain ⟨i, hlt, hplaced⟩ := mem_before.mp hentry
    exact definition?_eq_none_iff.mp hfree i hlt (label?_of_placed? hplaced)

/-! ## One line -/

theorem Follows.place_of_fault (h : Follows lines n p) {error : SourceError}
    (hfault : labelFault? lines n name = some error) :
    p.place name n = { result := .error error, symbols := p.symbols } := by
  unfold labelFault? at hfault
  unfold place
  rw [h.next_eq, Memory.toNat_maxAddress]
  -- both sides ask in the same order: the address, the predefined names, the earlier labels
  by_cases hfits : 32767 < position lines n
  · rw [if_pos hfits] at hfault
    rw [if_neg (Nat.not_le.mpr hfits), ← Option.some.inj hfault]
  · rw [if_neg hfits] at hfault
    rw [if_pos (Nat.not_lt.mp hfits)]
    by_cases hname : name ∈ Memory.predefined.map Prod.fst
    · obtain ⟨a, hfind⟩ := h.find?_of_predefined hname
      rw [if_pos hname] at hfault
      rw [SymbolTable.defineLabel_of_bound hfind, ← Option.some.inj hfault]
      rfl
    · rw [if_neg hname] at hfault
      obtain ⟨first, hdefined, rfl⟩ := Option.map_eq_some_iff.mp hfault
      have hfind := h.find?_of_defined hname hdefined (Nat.not_lt.mp hfits)
      rw [SymbolTable.defineLabel_of_bound hfind]
      rfl

theorem Follows.place_of_no_fault (h : Follows lines n p)
    (hfault : labelFault? lines n name = none) :
    p.symbols.find? name = none ∧
    p.place name n =
      p.symbols.defineLabel name (BitVec.ofNat 16 (position lines n)) n := by
  unfold labelFault? at hfault
  by_cases hfits : 32767 < position lines n
  · simp [hfits] at hfault
  · by_cases hname : name ∈ Memory.predefined.map Prod.fst
    · simp [hfits, hname] at hfault
    · rw [if_neg hfits, if_neg hname, Option.map_eq_none_iff] at hfault
      refine ⟨h.find?_of_undefined hname hfault, ?_⟩
      unfold place
      rw [h.next_eq, Memory.toNat_maxAddress, if_pos (Nat.not_lt.mp hfits)]

/-- A state keeps up with the pass if each of its parts takes over what the next line adds to it. -/
theorem Follows.succ (h : Follows lines n p) {q : Placement}
    (hnext : q.next = p.next + (instruction? lines n).toList.length)
    (hentries : q.symbols.entries = p.symbols.entries ++ (placed? lines n).toList)
    (hvariable : q.symbols.nextVariable = p.symbols.nextVariable)
    (hinvariant : q.symbols.Invariant)
    (herrors : q.errors.toList =
      p.errors.toList ++ ((fault? lines n).map (Located.mk n)).toList) :
    Follows lines (n + 1) q where
  next_eq := by rw [hnext, h.next_eq, position, position, before_succ, List.length_append]
  entries_eq := by rw [hentries, h.entries_eq, before_succ, List.append_assoc]
  nextVariable_eq := hvariable.trans h.nextVariable_eq
  invariant := hinvariant
  errors_eq := by rw [herrors, h.errors_eq, before_succ]

theorem Follows.blank (h : Follows lines n p) (hline : statement? lines n = none) :
    Follows lines (n + 1) p := by
  apply h.succ
  · simp [instruction?, hline]
  · simp [placed?, label?, hline]
  · rfl
  · exact h.invariant
  · simp [fault?, hline]

theorem Follows.code (h : Follows lines n p) {code : Code}
    (hline : statement? lines n = some (.ok (.code code))) :
    Follows lines (n + 1) { p with next := p.next + 1 } := by
  apply h.succ
  · simp [instruction?, hline]
  · simp [placed?, label?, hline]
  · rfl
  · exact h.invariant
  · simp [fault?, hline]

theorem Follows.unreadable (h : Follows lines n p) {error : SourceError}
    (hline : statement? lines n = some (.error error)) :
    Follows lines (n + 1) { p with errors := p.errors.push ⟨n, error⟩ } := by
  apply h.succ
  · simp [instruction?, hline]
  · simp [placed?, label?, hline]
  · rfl
  · exact h.invariant
  · simp [fault?, hline]

theorem Follows.label (h : Follows lines n p)
    (hline : statement? lines n = some (.ok (.label name))) :
    Follows lines (n + 1) (p.record n (p.place name n)) := by
  have hlabel : label? lines n = some name := label?_eq_some_iff.mpr hline
  have hcode : instruction? lines n = none := by simp [instruction?, hline]
  have hfault : fault? lines n = labelFault? lines n name := fault?_of_label hlabel
  -- a faulty label adds its error and no entry, any other one adds its entry and no error
  cases hlabelFault : labelFault? lines n name with
  | some error =>
    rw [hlabelFault] at hfault
    rw [h.place_of_fault hlabelFault]
    apply h.succ
    · simp [record, hcode]
    · simp [record, placed?, hfault]
    · rfl
    · exact h.invariant
    · simp [record, SymbolTable.Effect.error?, hfault]
  | none =>
    rw [hlabelFault] at hfault
    obtain ⟨hfree, hplace⟩ := h.place_of_no_fault hlabelFault
    rw [hplace, SymbolTable.defineLabel_of_free hfree]
    apply h.succ
    · simp [record, hcode]
    · simp [record, placed?, labelEntry, hlabel, hfault]
    · rfl
    · exact h.invariant.bind_label _ _ hfree
    · simp [record, SymbolTable.Effect.error?, hfault]

end LookUp

/-! ## The whole pass -/

theorem follows_before (lines : List String) (n : Nat) :
    Follows lines n (ofReadings (before (reading? lines) n)) := by
  -- on the lines and not on the readings, since blank lines count in the numbers as well
  induction n with
  | zero => exact follows_zero lines
  | succ n ih =>
    rw [before_succ, ofReadings_append]
    match hline : statement? lines n with
    | none =>
      simpa [reading?, hline] using ih.blank hline
    | some (.ok (.code code)) =>
      simpa [reading?, hline, step] using ih.code hline
    | some (.ok (.label name)) =>
      simpa [reading?, hline, step] using ih.label hline
    | some (.error error) =>
      simpa [reading?, hline, step] using ih.unreadable hline

theorem follows_readings (lines : List String) :
    Follows lines lines.length (ofReadings (readings lines)) := by
  rw [readings_eq]
  exact follows_before lines lines.length

end Placement

namespace Source

/-! ## Sources without faults -/

theorem lt_length_of_label? {lines : List String} {i : Nat} {name : String}
    (hlabel : label? lines i = some name) : i < lines.length := by
  by_contra hge
  have hline : lines[i]? = none := List.getElem?_eq_none (Nat.not_lt.mp hge)
  simp [label?, statement?, hline] at hlabel

theorem labelFault?_eq_none_iff {lines : List String} {i : Nat} {name : String} :
    labelFault? lines i name = none ↔
      position lines i ≤ 32767 ∧ name ∉ Memory.predefined.map Prod.fst ∧
        ∀ j < i, label? lines j ≠ some name := by
  unfold labelFault?
  by_cases hfits : 32767 < position lines i
  · simp only [hfits, if_true, reduceCtorEq, Nat.not_le.mpr hfits, false_and]
  · by_cases hname : name ∈ Memory.predefined.map Prod.fst
    · simp only [hfits, hname, if_true, if_false, reduceCtorEq, not_true_eq_false, false_and,
        and_false]
    · simp only [hfits, hname, if_false, Option.map_eq_none_iff, definition?_eq_none_iff,
        Nat.not_lt.mp hfits, not_false_eq_true, true_and]

theorem WellLabelled.of_faultless {lines : List String} (h : ∀ i, fault? lines i = none) :
    WellLabelled lines := by
  have hlabel : ∀ i name, label? lines i = some name →
      position lines i ≤ 32767 ∧ name ∉ Memory.predefined.map Prod.fst ∧
        ∀ j < i, label? lines j ≠ some name := by
    intro i name hi
    exact labelFault?_eq_none_iff.mp (fault?_of_label hi ▸ h i)
  refine ⟨?_, ?_, ?_, ?_⟩
  · intro line hmem htoken
    obtain ⟨i, hi⟩ := List.mem_iff_getElem?.mp hmem
    cases hparse : Statement.parse (Line.normalize line) with
    | ok statement => exact ⟨statement, rfl⟩
    | error e =>
      have hfault := h i
      simp [fault?, statement?, hi, htoken, hparse] at hfault
  · intro i name hi
    exact (hlabel i name hi).2.1
  · intro i j name hi hj
    -- of two lines with one label, the later one would be at fault
    rcases Nat.lt_trichotomy i j with hlt | heq | hgt
    · exact absurd hi ((hlabel j name hj).2.2 i hlt)
    · exact heq
    · exact absurd hj ((hlabel i name hi).2.2 j hgt)
  · intro i name hi
    exact (hlabel i name hi).1

theorem WellLabelled.fault?_eq_none {lines : List String} (h : WellLabelled lines) (i : Nat) :
    fault? lines i = none := by
  match hline : statement? lines i with
  | none => simp [fault?, hline]
  | some (.ok (.code code)) => simp [fault?, hline]
  | some (.ok (.label name)) =>
    have hi : label? lines i = some name := label?_eq_some_iff.mpr hline
    rw [fault?_of_label hi, labelFault?_eq_none_iff]
    refine ⟨h.label_fits i name hi, h.label_free i name hi, fun j hlt hj => ?_⟩
    exact Nat.ne_of_lt hlt (h.label_once j i name hj hi)
  | some (.error e) =>
    obtain ⟨line, hline', htoken, hparse⟩ := statement?_eq_some_iff.mp hline
    obtain ⟨statement, hstatement⟩ := h.readable line (List.mem_of_getElem? hline') htoken
    rw [hstatement] at hparse
    cases hparse

theorem faults_eq_nil_iff {lines : List String} : faults lines = [] ↔ WellLabelled lines := by
  constructor
  · intro h
    refine .of_faultless fun i => ?_
    by_cases hlt : i < lines.length
    · cases hfault : fault? lines i with
      | none => rfl
      | some e =>
        have hmem : ⟨i, e⟩ ∈ faults lines := mem_before.mpr ⟨i, hlt, by rw [hfault]; rfl⟩
        rw [h] at hmem
        cases hmem
    · have hline : lines[i]? = none := List.getElem?_eq_none (Nat.not_lt.mp hlt)
      simp [fault?, statement?, hline]
  · intro h
    rw [List.eq_nil_iff_forall_not_mem]
    intro e he
    obtain ⟨i, -, hi⟩ := mem_before.mp he
    simp [h.fault?_eq_none i] at hi

theorem WellLabelled.before_placed? {lines : List String} (h : WellLabelled lines) :
    before (placed? lines) lines.length = (labels lines).map (labelEntry lines) := by
  unfold labels before
  rw [List.map_filterMap]
  congr 1
  funext i
  cases hlabel : label? lines i <;> simp [placed?, hlabel, h.fault?_eq_none i]

theorem filterMap_code?_readings (lines : List String) :
    (readings lines).filterMap Reading.code? = instructions lines := by
  rw [readings_eq]
  unfold instructions before
  rw [List.filterMap_filterMap]
  congr 1
  funext i
  unfold reading? instruction?
  rcases statement? lines i with _ | (e | (code | name)) <;> rfl

end Source

/-! ## The program -/

open Source

theorem Program.ofLines_eq (lines : List String) :
    Program.ofLines lines =
      if faults lines = [] then
        .ok ⟨instructions lines, (Placement.ofReadings (readings lines)).symbols⟩
      else .error (faults lines) := by
  have herrors : (Placement.ofReadings (readings lines)).errors.toList = faults lines :=
    (Placement.follows_readings lines).errors_eq
  simp only [ofLines_eq_program, Placement.program, filterMap_code?_readings, ← herrors,
    Array.toList_eq_nil_iff, Array.isEmpty_iff]

/-- What the first pass makes of a source. -/
structure Program.Holds (lines : List String) (p : Program) : Prop where
  wellLabelled : WellLabelled lines
  code_eq : p.code = instructions lines
  entries_eq : p.symbols.entries =
    SymbolTable.initial.entries ++ (labels lines).map (labelEntry lines)
  nextVariable_eq : p.symbols.nextVariable = Memory.variableBase
  invariant : p.symbols.Invariant

theorem Program.holds_of_ofLines {lines : List String} {p : Program}
    (h : Program.ofLines lines = .ok p) : p.Holds lines := by
  rw [ofLines_eq] at h
  split at h
  · rename_i hfaults
    have hlabelled : WellLabelled lines := faults_eq_nil_iff.mp hfaults
    have hfollows := Placement.follows_readings lines
    obtain rfl := Except.ok.inj h
    exact {
      wellLabelled := hlabelled
      code_eq := rfl
      entries_eq := hlabelled.before_placed? ▸ hfollows.entries_eq
      nextVariable_eq := hfollows.nextVariable_eq
      invariant := hfollows.invariant }
  · cases h

theorem Program.exists_ofLines {lines : List String} (h : WellLabelled lines) :
    ∃ p, Program.ofLines lines = .ok p := by
  rw [ofLines_eq, if_pos (faults_eq_nil_iff.mpr h)]
  exact ⟨_, rfl⟩

end HackAssembler
