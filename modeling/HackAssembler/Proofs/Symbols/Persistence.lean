-- SUMMARY: When calls on a symbol table fail, and that no call changes or moves what is bound.
import HackAssembler.Proofs.Symbols.Calls

/-!
# Persistence of bindings

A name gets its symbol once. A call fails under a condition on the table that it finds,
leaves that table as it is when it fails, and otherwise appends one entry at most. So
what a name is bound to, and the place of its entry, outlive every later call.
-/

namespace HackAssembler

/-- Whether an operation fails. -/
def SymbolTable.Effect.Fails {α : Type} (e : Effect α) : Prop :=
  ∃ error, e.result = .error error

namespace Call

/-- Whether a call fails. -/
def Fails (t : SymbolTable) : Call → Prop
  | defineLabel name address line => (t.defineLabel name address line).Fails
  | resolve name => (t.resolve name).Fails
  | resolveCode code => (code.resolve t).Fails

/-- The name that a call is about. An instruction without a name in it has none. -/
def name? : Call → Option String
  | defineLabel name _ _ => some name
  | resolve name => some name
  | resolveCode code => code.symbol?

/-- What a call binds its name to, if it binds it. -/
def symbol (t : SymbolTable) : Call → Symbol
  | defineLabel _ address line => ⟨address, .label line⟩
  | resolve _ => ⟨t.nextVariable, .var⟩
  | resolveCode _ => ⟨t.nextVariable, .var⟩

end Call

namespace SymbolTable

/-! ## Failures -/

theorem fails_defineLabel_iff {t : SymbolTable} {name : String} {address : Word} {line : Nat} :
    (t.defineLabel name address line).Fails ↔ ∃ symbol, t.find? name = some symbol := by
  cases hfind : t.find? name with
  | none => simp [Effect.Fails, defineLabel_of_free hfind]
  | some symbol => simp [Effect.Fails, defineLabel_of_bound hfind]

theorem eq_duplicateLabel_of_defineLabel {t : SymbolTable} {name : String} {address : Word}
    {line : Nat} {error : SourceError}
    (h : (t.defineLabel name address line).result = .error error) :
    ∃ first, error = .duplicateLabel name first ∧
      ∀ l, first = some l ↔ ∃ a, t.find? name = some ⟨a, .label l⟩ := by
  cases hfind : t.find? name with
  | none => simp [defineLabel_of_free hfind] at h
  | some symbol =>
    obtain ⟨a, kind⟩ := symbol
    rw [defineLabel_of_bound hfind] at h
    refine ⟨kind.line?, (Except.error.inj h).symm, ?_⟩
    intro l
    cases kind <;> simp [SymbolKind.line?]

theorem fails_resolve_iff {t : SymbolTable} (h : t.Invariant) {name : String} :
    (t.resolve name).Fails ↔ t.find? name = none ∧ t.variableCount = 32752 := by
  have hnext := h.nextVariable_eq
  have hle := h.nextVariable_le
  cases hfind : t.find? name with
  | some symbol => simp [Effect.Fails, resolve_of_bound hfind]
  | none =>
    -- there is room exactly as long as the counter is below its last value
    by_cases hroom : t.nextVariable ≤ Memory.maxAddress
    · have := Memory.le_maxAddress_iff.mp hroom
      simp only [Effect.Fails, resolve_of_free hfind hroom, reduceCtorEq, exists_false, true_and,
        false_iff]
      omega
    · have := mt Memory.le_maxAddress_iff.mpr hroom
      simp only [Effect.Fails, resolve_of_full hfind hroom, Except.error.injEq, exists_eq',
        true_and, true_iff]
      omega

/-- The test of an address comes after the binding of its name, but it fails only where the name was
bound before. -/
theorem fails_resolveCode_iff {t : SymbolTable} {name : String} :
    ((Code.address (.symbol name)).resolve t).Fails ↔
      (t.resolve name).Fails ∨ ∃ symbol, t.find? name = some symbol ∧ 32767 < symbol.address.toNat := by
  cases hfind : t.find? name with
  | some symbol =>
    have hle : symbol.address ≤ Memory.maxAddress ↔ symbol.address.toNat ≤ 32767 :=
      Memory.le_maxAddress_iff
    rw [Code.resolve_symbol_of_bound hfind, resolve_of_bound hfind]
    by_cases hsmall : symbol.address ≤ Memory.maxAddress
    · simp [Effect.Fails, hsmall, hle.mp hsmall]
    · have := mt hle.mpr hsmall
      simp [Effect.Fails, hsmall]
      omega
  | none =>
    -- a fresh variable has the address that was tested before it was bound
    by_cases hroom : t.nextVariable ≤ Memory.maxAddress
    · simp [Effect.Fails, Code.resolve_symbol_of_free hfind hroom, resolve_of_free hfind hroom]
    · simp [Effect.Fails, Code.resolve_symbol_of_full hfind hroom, resolve_of_full hfind hroom]

/-! ## What a call leaves behind -/

theorem run_of_bound {t : SymbolTable} {call : Call} {name : String} {symbol : Symbol}
    (hname : call.name? = some name) (hbound : t.find? name = some symbol) : call.run t = t := by
  cases call with
  | defineLabel other address line =>
    obtain rfl : other = name := Option.some.inj hname
    simp only [Call.run, defineLabel_of_bound hbound]
  | resolve other =>
    obtain rfl : other = name := Option.some.inj hname
    simp only [Call.run, resolve_of_bound hbound]
  | resolveCode code =>
    obtain rfl := Code.symbol?_eq_some_iff.mp hname
    simp only [Call.run, Code.resolve_symbol_of_bound hbound]

theorem run_of_nameless {t : SymbolTable} {call : Call} (hname : call.name? = none) :
    ¬ call.Fails t ∧ call.run t = t := by
  cases call with
  | defineLabel name address line => simp [Call.name?] at hname
  | resolve name => simp [Call.name?] at hname
  | resolveCode code =>
    obtain ⟨instruction, hresolve⟩ := Code.exists_resolve_of_nameless hname
    simp [Call.Fails, Call.run, Effect.Fails, hresolve]

theorem resolve_of_unbound {t : SymbolTable} {name : String} (hfree : t.find? name = none) :
    ((t.resolve name).Fails ∧ (t.resolve name).symbols = t) ∨
    (¬ (t.resolve name).Fails ∧
      (t.resolve name).symbols.entries = t.entries ++ [(name, ⟨t.nextVariable, .var⟩)]) := by
  by_cases hroom : t.nextVariable ≤ Memory.maxAddress
  · right
    simp [Effect.Fails, resolve_of_free hfree hroom]
  · left
    simp [Effect.Fails, resolve_of_full hfree hroom]

/-- A call about a name that is not bound either binds it, as the last entry, or fails for lack of
room. -/
theorem run_of_free {t : SymbolTable} {call : Call} {name : String}
    (hname : call.name? = some name) (hfree : t.find? name = none) :
    (call.Fails t ∧ call.run t = t) ∨
    (¬ call.Fails t ∧ (call.run t).entries = t.entries ++ [(name, call.symbol t)]) := by
  cases call with
  | defineLabel other address line =>
    obtain rfl : other = name := Option.some.inj hname
    right
    simp [Call.Fails, Call.run, Call.symbol, Effect.Fails, defineLabel_of_free hfree]
  | resolve other =>
    obtain rfl : other = name := Option.some.inj hname
    exact resolve_of_unbound hfree
  | resolveCode code =>
    obtain rfl := Code.symbol?_eq_some_iff.mp hname
    -- the test behind the binding fails for bound names only, and this one is free
    have hfails : ((Code.address (.symbol name)).resolve t).Fails ↔ (t.resolve name).Fails := by
      simp [fails_resolveCode_iff, hfree]
    simpa only [Call.Fails, Call.run, Call.symbol, Code.symbols_resolve_symbol, hfails]
      using resolve_of_unbound hfree

theorem run_of_fails {t : SymbolTable} {call : Call} (hfails : call.Fails t) : call.run t = t := by
  cases hname : call.name? with
  | none => exact (run_of_nameless hname).2
  | some name =>
    cases hfind : t.find? name with
    | some symbol => exact run_of_bound hname hfind
    | none =>
      rcases run_of_free hname hfind with ⟨-, hrun⟩ | ⟨hsucceeds, -⟩
      · exact hrun
      · exact absurd hfails hsucceeds

/-! ## What outlives every call -/

theorem Change.entries_isPrefix {t u : SymbolTable} (h : Change t u) : t.entries <+: u.entries := by
  cases h with
  | none => exact List.prefix_rfl
  | label address line hfree =>
    rw [entries_bind]
    exact List.prefix_append _ _
  | allocation hfree hroom =>
    rw [entries_allocate]
    exact List.prefix_append _ _

theorem Change.find?_eq_some {t u : SymbolTable} (h : Change t u) {name : String} {symbol : Symbol}
    (hbound : t.find? name = some symbol) : u.find? name = some symbol := by
  cases h with
  | none => exact hbound
  | @label fresh address line hfree =>
    have hne : fresh ≠ name := fun heq => by simp [← heq, hfree] at hbound
    rw [find?_bind, if_neg hne, hbound]
  | @allocation fresh hfree hroom =>
    have hne : fresh ≠ name := fun heq => by simp [← heq, hfree] at hbound
    rw [find?_allocate, if_neg hne, hbound]

theorem entries_prefix_after (t : SymbolTable) (calls : List Call) :
    t.entries <+: (t.after calls).entries := by
  induction calls generalizing t with
  | nil => exact List.prefix_rfl
  | cons call calls ih => exact (change_run t call).entries_isPrefix.trans (ih (call.run t))

theorem getElem?_after {t : SymbolTable} (calls : List Call) {i : Nat} {entry : String × Symbol}
    (hi : t.entries[i]? = some entry) : (t.after calls).entries[i]? = some entry := by
  obtain ⟨newer, hnewer⟩ := entries_prefix_after t calls
  have hlt : i < t.entries.length := (List.getElem?_eq_some_iff.mp hi).1
  rw [← hnewer, List.getElem?_append_left hlt, hi]

theorem find?_after {t : SymbolTable} {name : String} {symbol : Symbol}
    (hbound : t.find? name = some symbol) (calls : List Call) :
    (t.after calls).find? name = some symbol := by
  induction calls generalizing t with
  | nil => exact hbound
  -- one call keeps the binding, and the rest starts from the table that it leaves
  | cons call calls ih => exact ih ((change_run t call).find?_eq_some hbound)

/-- On every table that calls make of the initial one: each operation fails under exactly the stated
condition, a failed call and a call about a bound name leave the table as it is, any other call about
a name appends the one entry that it makes, and a binding keeps its symbol and its place from then
on. -/
theorem binding_is_final (calls : List Call) :
    let t := initial.after calls
    (∀ name address line,
      ((t.defineLabel name address line).Fails ↔ ∃ symbol, t.find? name = some symbol) ∧
      ∀ error, (t.defineLabel name address line).result = .error error →
        ∃ first, error = .duplicateLabel name first ∧
          ∀ l, first = some l ↔ ∃ a, t.find? name = some ⟨a, .label l⟩) ∧
    (∀ name, (t.resolve name).Fails ↔ t.find? name = none ∧ t.variableCount = 32752) ∧
    (∀ name, ((Code.address (.symbol name)).resolve t).Fails ↔
      (t.resolve name).Fails ∨
        ∃ symbol, t.find? name = some symbol ∧ 32767 < symbol.address.toNat) ∧
    (∀ call : Call, call.Fails t → call.run t = t) ∧
    (∀ (call : Call) name symbol, call.name? = some name → t.find? name = some symbol →
      call.run t = t) ∧
    (∀ (call : Call) name, call.name? = some name → t.find? name = none → ¬ call.Fails t →
      (call.run t).entries = t.entries ++ [(name, call.symbol t)]) ∧
    (∀ call : Call, call.name? = none → ¬ call.Fails t ∧ call.run t = t) ∧
    (∀ name symbol, t.find? name = some symbol →
      ∃ i : Nat, ∀ later,
        (t.after later).find? name = some symbol ∧
        (t.after later).entries[i]? = some (name, symbol)) := by
  intro t
  have h : t.Invariant := invariant_after_initial calls
  refine ⟨?_, ?_, ?_, ?_, ?_, ?_, ?_, ?_⟩
  · intro name address line
    exact ⟨fails_defineLabel_iff, fun _ => eq_duplicateLabel_of_defineLabel⟩
  · intro name
    exact fails_resolve_iff h
  · intro name
    exact fails_resolveCode_iff
  · intro call
    exact run_of_fails
  · intro call name symbol
    exact run_of_bound
  · intro call name hname hfree hsucceeds
    rcases run_of_free hname hfree with ⟨hfails, -⟩ | ⟨-, hentries⟩
    · exact absurd hfails hsucceeds
    · exact hentries
  · intro call
    exact run_of_nameless
  · intro name symbol hbound
    obtain ⟨i, hi⟩ := List.mem_iff_getElem?.mp (mem_entries_of_find?_eq_some hbound)
    exact ⟨i, fun later => ⟨find?_after hbound later, getElem?_after later hi⟩⟩

end SymbolTable

end HackAssembler
