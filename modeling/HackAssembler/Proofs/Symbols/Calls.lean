-- SUMMARY: What any sequence of calls makes of a symbol table: the representation invariant.
import HackAssembler.Assembly.Assembly
import HackAssembler.Proofs.Symbols.Entries

/-!
# Calls on a symbol table

The passes reach a table through three operations only. What a call can do to a table
is said once, by `Change`: nothing at all, one label more, or one variable more. The
invariant of every table that a run can reach follows from it.
-/

namespace HackAssembler

/-- A call on a symbol table. -/
inductive Call where
  | defineLabel (name : String) (address : Word) (line : Nat)
  | resolve (name : String)
  /-- Resolve the operand of an instruction. -/
  | resolveCode (code : Code)

/-- The table that a call leaves behind, also if the call fails. -/
def Call.run (t : SymbolTable) : Call → SymbolTable
  | .defineLabel name address line => (t.defineLabel name address line).symbols
  | .resolve name => (t.resolve name).symbols
  | .resolveCode code => (code.resolve t).symbols

namespace SymbolTable

/-- The table after a sequence of calls. -/
def after (t : SymbolTable) (calls : List Call) : SymbolTable :=
  calls.foldl Call.run t

/-! ## What a call can do -/

/-- The ways in which one call can change a table. -/
inductive Change (t : SymbolTable) : SymbolTable → Prop where
  | none : Change t t
  | label {name : String} (address : Word) (line : Nat) (hfree : t.find? name = .none) :
      Change t (t.bind name ⟨address, .label line⟩)
  | allocation {name : String} (hfree : t.find? name = .none)
      (hroom : t.nextVariable ≤ Memory.maxAddress) : Change t (t.allocate name)

theorem change_defineLabel (t : SymbolTable) (name : String) (address : Word) (line : Nat) :
    Change t (t.defineLabel name address line).symbols := by
  cases hfind : t.find? name with
  | none =>
    rw [defineLabel_of_free hfind]
    exact .label address line hfind
  | some symbol =>
    rw [defineLabel_of_bound hfind]
    exact .none

theorem change_resolve (t : SymbolTable) (name : String) :
    Change t (t.resolve name).symbols := by
  cases hfind : t.find? name with
  | some symbol =>
    rw [resolve_of_bound hfind]
    exact .none
  | none =>
    by_cases hroom : t.nextVariable ≤ Memory.maxAddress
    · rw [resolve_of_free hfind hroom]
      exact .allocation hfind hroom
    · rw [resolve_of_full hfind hroom]
      exact .none

theorem change_run (t : SymbolTable) (call : Call) : Change t (call.run t) := by
  cases call with
  | defineLabel name address line => exact change_defineLabel t name address line
  | resolve name => exact change_resolve t name
  | resolveCode code =>
    match code with
    | .address (.literal _) => exact .none
    | .address (.symbol name) => exact change_resolve t name
    | .compute _ _ _ => exact .none

theorem Change.variableCount_le {t u : SymbolTable} (h : Change t u) :
    t.variableCount ≤ u.variableCount := by
  cases h with
  | none => exact Nat.le_refl _
  | label address line hfree => simp
  | allocation hfree hroom => simp

/-! ## The invariant -/

/-- The addresses of the variables of a table, in the order of their definition. -/
def variableAddresses (t : SymbolTable) : List Nat :=
  (t.entries.filter fun e => e.2.kind = .var).map fun e => e.2.address.toNat

/-- What holds of every table that calls can reach. -/
structure Invariant (t : SymbolTable) : Prop where
  nodup_names : t.names.Nodup
  predefined_prefix : initial.entries <+: t.entries
  variableAddresses_eq : t.variableAddresses = List.range' 16 t.variableCount
  nextVariable_eq : t.nextVariable.toNat = 16 + t.variableCount
  nextVariable_le : t.nextVariable.toNat ≤ 32768
  size_eq : t.size = 23 + t.labelCount + t.variableCount

theorem invariant_initial : initial.Invariant where
  nodup_names := by decide
  predefined_prefix := List.prefix_rfl
  variableAddresses_eq := by decide
  nextVariable_eq := by decide
  nextVariable_le := by decide
  size_eq := by decide

/-- A label takes no variable's place. -/
theorem Invariant.bind_label {t : SymbolTable} (h : t.Invariant) {name : String}
    (address : Word) (line : Nat) (hfree : t.find? name = none) :
    (t.bind name ⟨address, .label line⟩).Invariant where
  nodup_names := nodup_names_bind h.nodup_names hfree _
  predefined_prefix := by
    rw [entries_bind]
    exact h.predefined_prefix.trans (List.prefix_append _ _)
  variableAddresses_eq := by
    simpa [variableAddresses] using h.variableAddresses_eq
  nextVariable_eq := by simpa using h.nextVariable_eq
  nextVariable_le := by simpa using h.nextVariable_le
  size_eq := by
    have := h.size_eq
    simp [SymbolKind.line?]
    omega

/-- As long as there is room, the counter cannot wrap, and the variable that takes its word is the
last of the row. -/
theorem Invariant.allocate {t : SymbolTable} (h : t.Invariant) {name : String}
    (hfree : t.find? name = none) (hroom : t.nextVariable ≤ Memory.maxAddress) :
    (t.allocate name).Invariant := by
  have hle : t.nextVariable.toNat ≤ 32767 := Memory.le_maxAddress_iff.mp hroom
  -- at most 32768, so sixteen bits do not wrap
  have hnext : (t.nextVariable + 1).toNat = t.nextVariable.toNat + 1 := by
    rw [BitVec.toNat_add]
    exact Nat.mod_eq_of_lt (by simp; omega)
  have heq := h.nextVariable_eq
  refine ⟨?_, ?_, ?_, ?_, ?_, ?_⟩
  · exact nodup_names_bind h.nodup_names hfree _
  · rw [entries_allocate]
    exact h.predefined_prefix.trans (List.prefix_append _ _)
  · -- the new variable is the last entry, and the counter is the next number of the row
    have hrow := h.variableAddresses_eq
    unfold variableAddresses at hrow ⊢
    rw [entries_allocate, List.filter_append, List.map_append, hrow, variableCount_allocate,
      List.range'_1_concat]
    simp [heq]
  · rw [nextVariable_allocate, variableCount_allocate, hnext]
    omega
  · rw [nextVariable_allocate, hnext]
    omega
  · have := h.size_eq
    simp only [size_allocate, labelCount_allocate, variableCount_allocate]
    omega

theorem Invariant.change {t u : SymbolTable} (h : t.Invariant) (hchange : Change t u) :
    u.Invariant := by
  cases hchange with
  | none => exact h
  | label address line hfree => exact h.bind_label address line hfree
  | allocation hfree hroom => exact h.allocate hfree hroom

theorem Invariant.after {t : SymbolTable} (h : t.Invariant) (calls : List Call) :
    (t.after calls).Invariant := by
  induction calls generalizing t with
  | nil => exact h
  | cons call calls ih => exact ih (h.change (change_run t call))

theorem invariant_after_initial (calls : List Call) : (initial.after calls).Invariant :=
  invariant_initial.after calls

/-- A table with the invariant is told by its entries: its counter is found from its variables. -/
theorem Invariant.eq_of_entries_eq {t u : SymbolTable} (ht : t.Invariant) (hu : u.Invariant)
    (h : t.entries = u.entries) : t = u := by
  have hnewest : t.newest = u.newest := List.reverse_injective h
  have hcount : t.variableCount = u.variableCount := by rw [variableCount, variableCount, hnewest]
  refine SymbolTable.ext hnewest (BitVec.eq_of_toNat_eq ?_)
  rw [ht.nextVariable_eq, hu.nextVariable_eq, hcount]

theorem Invariant.le_of_mem_variableAddresses {t : SymbolTable} (h : t.Invariant) {a : Nat}
    (ha : a ∈ t.variableAddresses) : a ≤ 32767 := by
  have hnext := h.nextVariable_eq
  have hle := h.nextVariable_le
  rw [h.variableAddresses_eq, List.mem_range'_1] at ha
  omega

/-- The counter moves up only, so it never wraps around. -/
theorem Invariant.nextVariable_le_run {t : SymbolTable} (h : t.Invariant) (call : Call) :
    t.nextVariable.toNat ≤ (call.run t).nextVariable.toNat := by
  have hchange := change_run t call
  rw [h.nextVariable_eq, (h.change hchange).nextVariable_eq]
  exact Nat.add_le_add_left hchange.variableCount_le 16

/-- Every table that calls make of the initial one lists the predefined names first, its variables
stand in a row from word 16 on, and its three counts and its counter agree with its entries. -/
theorem layout_after_calls (calls : List Call) :
    let t := initial.after calls
    t.names.Nodup ∧
    t.entries.take 23 = Memory.predefined.map (fun e => (e.1, ⟨e.2, .predefined⟩)) ∧
    t.variableAddresses = List.range' 16 t.variableCount ∧
    t.nextVariable.toNat = 16 + t.variableCount ∧
    t.nextVariable.toNat ≤ 32768 ∧
    (∀ call : Call, t.nextVariable.toNat ≤ (call.run t).nextVariable.toNat) ∧
    (∀ a ∈ t.variableAddresses, a ≤ 32767) ∧
    t.variableAddresses.Nodup ∧
    t.size = 23 + t.labelCount + t.variableCount := by
  intro t
  have h : t.Invariant := invariant_after_initial calls
  have htake : t.entries.take 23 = initial.entries :=
    (List.prefix_iff_eq_take.mp h.predefined_prefix).symm
  have hnodup : t.variableAddresses.Nodup := by
    rw [h.variableAddresses_eq]
    exact List.nodup_range'
  exact ⟨h.nodup_names, htake.trans entries_initial, h.variableAddresses_eq, h.nextVariable_eq,
    h.nextVariable_le, h.nextVariable_le_run, fun _ => h.le_of_mem_variableAddresses, hnodup,
    h.size_eq⟩

end SymbolTable

end HackAssembler
