-- SUMMARY: What a source means, line by line and without running the passes.
import HackAssembler.Assembly.Assembly
import HackAssembler.Proofs.Machine.Patterns

/-!
# The meaning of a source

Here a source is read without any state. Each of its lines is looked at by its number,
and what a name stands for is told from the source as a whole: from the number of
instructions in front of its label, or from the names that were referenced before it.
The modules on the passes show that the assembler computes just this.
-/

namespace HackAssembler.Source

/-- What is found at the first `n` places, in order. -/
def before {α : Type} (item? : Nat → Option α) (n : Nat) : List α :=
  (List.range n).filterMap item?

section Before

variable {α : Type} {item? : Nat → Option α}

theorem before_succ (n : Nat) : before item? (n + 1) = before item? n ++ (item? n).toList := by
  unfold before
  rw [List.range_succ, List.filterMap_append]
  cases h : item? n <;> simp [h]

theorem mem_before {n : Nat} {a : α} : a ∈ before item? n ↔ ∃ i < n, item? i = some a := by
  simp [before, List.mem_filterMap]

/-- What is found further on comes behind what is found before. -/
theorem before_append (item? : Nat → Option α) {m n : Nat} (h : m ≤ n) :
    ∃ rest, before item? n = before item? m ++ rest ∧
      ∀ a ∈ rest, ∃ i, m ≤ i ∧ item? i = some a := by
  obtain ⟨d, rfl⟩ := Nat.exists_eq_add_of_le h
  clear h
  induction d with
  | zero => exact ⟨[], (List.append_nil _).symm, by simp⟩
  | succ d ih =>
    obtain ⟨rest, heq, hrest⟩ := ih
    refine ⟨rest ++ (item? (m + d)).toList, ?_, ?_⟩
    · rw [← Nat.add_assoc, before_succ, heq, List.append_assoc]
    · intro a ha
      rcases List.mem_append.mp ha with ha | ha
      · exact hrest a ha
      · exact ⟨m + d, Nat.le_add_right m d, by simpa using ha⟩

theorem before_isPrefix (item? : Nat → Option α) {m n : Nat} (h : m ≤ n) :
    before item? m <+: before item? n := by
  obtain ⟨rest, heq, -⟩ := before_append item? h
  exact ⟨rest, heq.symm⟩

end Before

/-! ## Lines -/

/-- What a line says: a statement, or what is wrong with it. A line without text says nothing. -/
def statement? (lines : List String) (i : Nat) : Option (Except SourceError Statement) := do
  let token := Line.normalize (← lines[i]?)
  if token = "" then none else some (Statement.parse token)

theorem statement?_eq_some_iff {lines : List String} {i : Nat}
    {result : Except SourceError Statement} :
    statement? lines i = some result ↔
      ∃ line, lines[i]? = some line ∧ Line.normalize line ≠ "" ∧
        Statement.parse (Line.normalize line) = result := by
  simp [statement?, Option.bind_eq_some_iff]

/-- The instruction on a line. -/
def instruction? (lines : List String) (i : Nat) : Option Code :=
  match statement? lines i with
  | some (.ok (.code code)) => some code
  | _ => none

/-- The label on a line. -/
def label? (lines : List String) (i : Nat) : Option String :=
  match statement? lines i with
  | some (.ok (.label name)) => some name
  | _ => none

theorem instruction?_eq_some_iff {lines : List String} {i : Nat} {code : Code} :
    instruction? lines i = some code ↔ statement? lines i = some (.ok (.code code)) := by
  unfold instruction?
  split
  · simp_all
  · simp_all

theorem label?_eq_some_iff {lines : List String} {i : Nat} {name : String} :
    label? lines i = some name ↔ statement? lines i = some (.ok (.label name)) := by
  unfold label?
  split
  · simp_all
  · simp_all

/-- The instructions of a source with their lines. -/
def instructions (lines : List String) : List (Located Code) :=
  before (fun i => (instruction? lines i).map (Located.mk i)) lines.length

/-- The labels of a source with their lines. -/
def labels (lines : List String) : List (Located String) :=
  before (fun i => (label? lines i).map (Located.mk i)) lines.length

/-- The number of instructions in front of a line. -/
def position (lines : List String) (i : Nat) : Nat :=
  (before (instruction? lines) i).length

/-- The first line in front of line `n` that defines a label. -/
def definition? (lines : List String) (n : Nat) (name : String) : Option Nat :=
  (List.range n).find? fun i => label? lines i = some name

/-! ## Names -/

/-- The names that instructions reference, once for each reference. -/
def references (lines : List String) : List String :=
  (instructions lines).filterMap fun c => c.item.symbol?

/-- The names that nobody defines. They become variables where they are referenced. -/
def IsVariable (lines : List String) (name : String) : Prop :=
  name ∉ Memory.predefined.map Prod.fst ∧ definition? lines lines.length name = none

instance (lines : List String) (name : String) : Decidable (IsVariable lines name) :=
  inferInstanceAs (Decidable (_ ∧ _))

/-- The variables of a source, in the order of their first references. -/
def variableNames (lines : List String) : List String :=
  ((references lines).filter fun name => IsVariable lines name).eraseDups

/-- The variables whose first references come before that of a name. -/
def variablesBefore (lines : List String) (name : String) : List String :=
  (((references lines).takeWhile fun other => other ≠ name).filter
    fun other => IsVariable lines other).eraseDups

/-- The address that a name stands for. -/
def address (lines : List String) (name : String) : Nat :=
  match Memory.predefined.lookup name, definition? lines lines.length name with
  | some a, _ => a.toNat
  | none, some i => position lines i
  | none, none => 16 + (variablesBefore lines name).length

/-- The word of an instruction, as a number: the address that it loads, or the value of its binary
digits. -/
def word (lines : List String) : Code → Nat
  | .address (.literal value) => value.toNat
  | .address (.symbol name) => address lines name
  | .compute dest comp jump => Nat.ofDigitChars 2 (Instruction.pattern dest comp jump) 0

/-! ## Sources that make sense -/

/-- What a source has to meet so that its labels can be placed. -/
structure WellLabelled (lines : List String) : Prop where
  /-- Every line with a text holds a statement. -/
  readable : ∀ line ∈ lines, Line.normalize line ≠ "" →
    ∃ statement, Statement.parse (Line.normalize line) = .ok statement
  /-- No label has a predefined name. -/
  label_free : ∀ i name, label? lines i = some name → name ∉ Memory.predefined.map Prod.fst
  /-- No two lines define the same label. -/
  label_once : ∀ i j name, label? lines i = some name → label? lines j = some name → i = j
  /-- Every label stands at an address that an instruction can load. -/
  label_fits : ∀ i name, label? lines i = some name → position lines i ≤ 32767

/-- What a source has to meet so that it can be assembled. -/
structure WellFormed (lines : List String) : Prop extends WellLabelled lines where
  /-- There is a word for every variable. -/
  variables_fit : (variableNames lines).length ≤ 32752

end HackAssembler.Source
