-- SUMMARY: The second pass: which names become variables, and what every instruction resolves to.
import Mathlib.Data.List.Induction
import HackAssembler.Proofs.Symbols.Persistence

/-!
# The second pass

The pass allocates a variable for every name that it cannot find, in the order of first
references, until memory is used up. It never looks back, and yet its result is as if
every operand had been looked up in the table that it ends with.
-/

/-! ## Lists -/

namespace List

theorem filterMap_concat {α β : Type} (f : α → Option β) (l : List α) (a : α) :
    (l ++ [a]).filterMap f = l.filterMap f ++ (f a).toList := by
  cases h : f a <;> simp [h]

variable {α : Type} [BEq α] [LawfulBEq α] {l : List α} {a : α}

theorem eraseDups_concat_of_mem (h : a ∈ l) : (l ++ [a]).eraseDups = l.eraseDups := by
  simp [eraseDups_append, removeAll, h]

theorem eraseDups_concat_of_not_mem (h : a ∉ l) : (l ++ [a]).eraseDups = l.eraseDups ++ [a] := by
  simp [eraseDups_append, removeAll, h, eraseDups_cons]

theorem nodup_eraseDups (l : List α) : l.eraseDups.Nodup := by
  induction l using List.reverseRecOn with
  | nil => exact List.nodup_nil
  | append_singleton l a ih =>
    by_cases h : a ∈ l
    · rw [eraseDups_concat_of_mem h]
      exact ih
    · rw [eraseDups_concat_of_not_mem h, ← List.concat_eq_append]
      exact ih.concat (mt mem_eraseDups.mp h)

end List

namespace HackAssembler

namespace SymbolTable

/-! ## Allocating a row of names -/

/-- Make variables of names, one after the other. -/
def allocateAll (t : SymbolTable) (names : List String) : SymbolTable :=
  names.foldl allocate t

@[simp] theorem allocateAll_nil (t : SymbolTable) : t.allocateAll [] = t := rfl

theorem allocateAll_concat (t : SymbolTable) (names : List String) (name : String) :
    t.allocateAll (names ++ [name]) = (t.allocateAll names).allocate name := by
  simp [allocateAll]

/-- The number of words that are left for variables. -/
def room (t : SymbolTable) : Nat :=
  32768 - t.nextVariable.toNat

variable {t : SymbolTable} {names : List String} {name : String}

theorem nextVariable_allocateAll (t : SymbolTable) (names : List String) :
    (t.allocateAll names).nextVariable = t.nextVariable + BitVec.ofNat 16 names.length := by
  induction names using List.reverseRecOn with
  | nil => simp
  | append_singleton names name ih =>
    rw [allocateAll_concat, nextVariable_allocate, ih, List.length_append, BitVec.add_assoc,
      BitVec.ofNat_add]
    rfl

theorem entries_allocateAll (t : SymbolTable) (names : List String) :
    (t.allocateAll names).entries =
      t.entries ++ names.mapIdx fun i name => (name, ⟨t.nextVariable + BitVec.ofNat 16 i, .var⟩) := by
  induction names using List.reverseRecOn with
  | nil => simp
  | append_singleton names name ih =>
    rw [allocateAll_concat, entries_allocate, ih, nextVariable_allocateAll, List.mapIdx_concat,
      List.append_assoc]

theorem names_allocateAll (t : SymbolTable) (names : List String) :
    (t.allocateAll names).names = t.names ++ names := by
  induction names using List.reverseRecOn with
  | nil => simp
  | append_singleton names name ih =>
    rw [allocateAll_concat, names_allocate, ih, List.append_assoc]

theorem find?_allocateAll_of_not_mem (h : name ∉ names) :
    (t.allocateAll names).find? name = t.find? name := by
  induction names using List.reverseRecOn with
  | nil => rfl
  | append_singleton names other ih =>
    rw [List.mem_append, List.mem_singleton, not_or] at h
    rw [allocateAll_concat, find?_allocate, if_neg (Ne.symm h.2), ih h.1]

theorem find?_allocateAll_of_mem (h : name ∈ names) :
    ∃ symbol, (t.allocateAll names).find? name = some symbol := by
  cases hfind : (t.allocateAll names).find? name with
  | some symbol => exact ⟨symbol, rfl⟩
  | none =>
    rw [find?_eq_none_iff, names_allocateAll] at hfind
    exact absurd (List.mem_append_right _ h) hfind

theorem toNat_nextVariable_allocateAll (h : names.length ≤ t.room) :
    (t.allocateAll names).nextVariable.toNat = t.nextVariable.toNat + names.length := by
  unfold room at h
  have hlt := t.nextVariable.isLt
  rw [nextVariable_allocateAll, BitVec.toNat_add, BitVec.toNat_ofNat]
  omega

theorem Invariant.allocateAll (h : t.Invariant) (hnodup : names.Nodup)
    (hfree : ∀ name ∈ names, t.find? name = none) (hroom : names.length ≤ t.room) :
    (t.allocateAll names).Invariant := by
  induction names using List.reverseRecOn with
  | nil => exact h
  | append_singleton names name ih =>
    rw [← List.concat_eq_append, List.nodup_concat] at hnodup
    rw [List.length_append, List.length_singleton] at hroom
    -- the last name is free before it, and the names in front leave room for it
    have hinit : (t.allocateAll names).Invariant :=
      ih hnodup.2 (fun other hmem => hfree other (List.mem_append_left _ hmem)) (by omega)
    have hname : (t.allocateAll names).find? name = none := by
      rw [find?_allocateAll_of_not_mem hnodup.1]
      exact hfree name (by simp)
    have hnext := toNat_nextVariable_allocateAll (t := t) (show names.length ≤ t.room by omega)
    rw [allocateAll_concat]
    refine hinit.allocate hname (Memory.le_maxAddress_iff.mpr ?_)
    unfold room at hroom
    omega

/-! ## Names that become variables -/

/-- The names of some code that a table does not bind, in the order of their first references. -/
def newNames (t : SymbolTable) (code : List (Located Code)) : List String :=
  ((code.filterMap fun c => c.item.symbol?).filter fun name => t.find? name = none).eraseDups

/-- Those names that there is room for. -/
def allocated (t : SymbolTable) (code : List (Located Code)) : List String :=
  (t.newNames code).take t.room

variable {code : List (Located Code)} {c : Located Code}

@[simp] theorem allocated_nil (t : SymbolTable) : t.allocated [] = [] := by
  simp [allocated, newNames]

theorem mem_newNames : name ∈ t.newNames code ↔
    t.find? name = none ∧ ∃ c ∈ code, c.item.symbol? = some name := by
  simp only [newNames, List.mem_eraseDups, List.mem_filter, List.mem_filterMap, decide_eq_true_eq]
  exact and_comm

theorem nodup_allocated (t : SymbolTable) (code : List (Located Code)) :
    (t.allocated code).Nodup :=
  (List.nodup_eraseDups _).sublist (List.take_sublist _ _)

theorem find?_of_mem_allocated (h : name ∈ t.allocated code) : t.find? name = none :=
  (mem_newNames.mp (List.mem_of_mem_take h)).1

theorem length_allocated_le (t : SymbolTable) (code : List (Located Code)) :
    (t.allocated code).length ≤ t.room :=
  List.length_take_le _ _

theorem newNames_concat_of_nameless (h : c.item.symbol? = none) :
    t.newNames (code ++ [c]) = t.newNames code := by
  simp [newNames, h]

theorem newNames_concat_of_bound {symbol : Symbol} (h : c.item.symbol? = some name)
    (hbound : t.find? name = some symbol) : t.newNames (code ++ [c]) = t.newNames code := by
  simp [newNames, h, hbound]

theorem newNames_concat_of_mem (h : c.item.symbol? = some name) (hmem : name ∈ t.newNames code) :
    t.newNames (code ++ [c]) = t.newNames code := by
  have hfree := (mem_newNames.mp hmem).1
  unfold newNames at hmem ⊢
  simp only [List.filterMap_append, List.filter_append, List.filterMap_cons, h, List.filterMap_nil,
    List.filter_cons, hfree, decide_true, if_true, List.filter_nil]
  exact List.eraseDups_concat_of_mem (List.mem_eraseDups.mp hmem)

theorem newNames_concat_of_not_mem (h : c.item.symbol? = some name) (hfree : t.find? name = none)
    (hmem : name ∉ t.newNames code) : t.newNames (code ++ [c]) = t.newNames code ++ [name] := by
  unfold newNames at hmem ⊢
  simp only [List.filterMap_append, List.filter_append, List.filterMap_cons, h, List.filterMap_nil,
    List.filter_cons, hfree, decide_true, if_true, List.filter_nil]
  exact List.eraseDups_concat_of_not_mem (mt List.mem_eraseDups.mpr hmem)

/-- The table of the second pass after some code. -/
def linked (t : SymbolTable) (code : List (Located Code)) : SymbolTable :=
  t.allocateAll (t.allocated code)

theorem Invariant.linked (h : t.Invariant) (code : List (Located Code)) : (t.linked code).Invariant :=
  h.allocateAll (nodup_allocated t code) (fun _ => find?_of_mem_allocated)
    (length_allocated_le t code)

theorem toNat_nextVariable_linked (t : SymbolTable) (code : List (Located Code)) :
    (t.linked code).nextVariable.toNat = t.nextVariable.toNat + (t.allocated code).length :=
  toNat_nextVariable_allocateAll (length_allocated_le t code)

/-- Once the room is used up, further names change nothing. -/
theorem allocated_concat_of_full (hfull : t.room ≤ (t.allocated code).length)
    (h : c.item.symbol? = some name) (hfree : t.find? name = none) :
    t.allocated (code ++ [c]) = t.allocated code := by
  have hlength : t.room ≤ (t.newNames code).length :=
    Nat.le_trans hfull (List.length_take_le' _ _)
  unfold allocated
  by_cases hmem : name ∈ t.newNames code
  · rw [newNames_concat_of_mem h hmem]
  · rw [newNames_concat_of_not_mem h hfree hmem, List.take_append_of_le_length hlength]

/-- As long as there is room, a new name is the next to be bound. -/
theorem allocated_concat_of_room (hroom : (t.allocated code).length < t.room)
    (h : c.item.symbol? = some name) (hfree : t.find? name = none)
    (hnew : name ∉ t.allocated code) :
    t.allocated (code ++ [c]) = t.allocated code ++ [name] := by
  -- with room to spare, nothing has been cut off yet
  have hall : t.allocated code = t.newNames code := by
    unfold allocated at hroom ⊢
    rw [List.length_take] at hroom
    exact List.take_of_length_le (by omega)
  rw [hall] at hroom hnew ⊢
  unfold allocated
  rw [newNames_concat_of_not_mem h hfree hnew]
  refine List.take_of_length_le ?_
  rw [List.length_append, List.length_singleton]
  omega

theorem find?_linked_of_mem (hmem : name ∈ t.allocated code) :
    ∃ symbol, (t.linked code).find? name = some symbol :=
  find?_allocateAll_of_mem hmem

theorem find?_linked_of_not_mem (hmem : name ∉ t.allocated code) :
    (t.linked code).find? name = t.find? name :=
  find?_allocateAll_of_not_mem hmem

theorem find?_linked_of_bound {symbol : Symbol} (hbound : t.find? name = some symbol) :
    (t.linked code).find? name = some symbol := by
  have hmem : name ∉ t.allocated code := fun hmem => by
    rw [find?_of_mem_allocated hmem] at hbound
    cases hbound
  rw [find?_linked_of_not_mem hmem, hbound]

theorem linked_full_iff : ¬ (t.linked code).nextVariable ≤ Memory.maxAddress ↔
    t.room ≤ (t.allocated code).length := by
  have hnext := toNat_nextVariable_linked t code
  rw [Memory.le_maxAddress_iff, room]
  omega

theorem linked_concat_of_no_news (h : t.newNames (code ++ [c]) = t.newNames code) :
    t.linked (code ++ [c]) = t.linked code := by
  rw [linked, linked, allocated, allocated, h]

/-- Resolving an operand takes the table of the pass to the one after its instruction. -/
theorem symbols_resolve_linked (t : SymbolTable) (code : List (Located Code)) (c : Located Code) :
    (c.item.resolve (t.linked code)).symbols = t.linked (code ++ [c]) := by
  cases hname : c.item.symbol? with
  | none =>
    obtain ⟨instruction, hresolve⟩ := Code.exists_resolve_of_nameless hname
    rw [hresolve, linked_concat_of_no_news (newNames_concat_of_nameless hname)]
  | some name =>
    rw [Code.symbol?_eq_some_iff.mp hname, Code.symbols_resolve_symbol]
    cases hbound : t.find? name with
    | some symbol =>
      rw [resolve_of_bound (find?_linked_of_bound hbound),
        linked_concat_of_no_news (newNames_concat_of_bound hname hbound)]
    | none =>
      -- a name that the pass met before is bound by now, if there was room for it
      by_cases hmem : name ∈ t.allocated code
      · obtain ⟨symbol, hfind⟩ := find?_linked_of_mem hmem
        have hnews := newNames_concat_of_mem hname (List.mem_of_mem_take hmem)
        rw [resolve_of_bound hfind, linked_concat_of_no_news hnews]
      · have hfind : (t.linked code).find? name = none :=
          (find?_linked_of_not_mem hmem).trans hbound
        by_cases hroom : t.room ≤ (t.allocated code).length
        · rw [resolve_of_full hfind (linked_full_iff.mpr hroom), linked, linked,
            allocated_concat_of_full hroom hname hbound]
        · have hlt : (t.allocated code).length < t.room := Nat.not_le.mp hroom
          have hle : (t.linked code).nextVariable ≤ Memory.maxAddress :=
            not_not.mp (mt linked_full_iff.mp hroom)
          rw [resolve_of_free hfind hle, linked, linked,
            allocated_concat_of_room hlt hname hbound hmem, allocateAll_concat]

end SymbolTable

/-! ## Looking back from the end -/

/-- The instruction that code stands for in a table that nothing is added to. -/
def Code.lookup (t : SymbolTable) : Code → Except SourceError Instruction
  | .address (.literal value) => .ok (.address value)
  | .address (.symbol name) =>
    match t.find? name with
    | some symbol =>
      if symbol.address ≤ Memory.maxAddress then .ok (.address symbol.address)
      else .error (.addressOutOfRange name)
    | none => .error (.addressOutOfRange name)
  | .compute dest comp jump => .ok (.compute dest comp jump)

/-- Code is settled in a table if no later reference can change what it stands for: its name is bound,
or no room is left to bind it. -/
def Code.Settled (t : SymbolTable) (code : Code) : Prop :=
  ∀ name, code.symbol? = some name →
    (∃ symbol, t.find? name = some symbol) ∨ ¬ t.nextVariable ≤ Memory.maxAddress

namespace Code

variable {t : SymbolTable} {name : String}

theorem lookup_of_bound {symbol : Symbol} (h : t.find? name = some symbol) :
    (address (.symbol name)).lookup t =
      if symbol.address ≤ Memory.maxAddress then .ok (.address symbol.address)
      else .error (.addressOutOfRange name) := by
  simp only [lookup, h]

theorem lookup_of_free (h : t.find? name = none) :
    (address (.symbol name)).lookup t = .error (.addressOutOfRange name) := by
  simp only [lookup, h]

/-- What an operand resolves to is what a look-up in the table afterwards gives. -/
theorem result_resolve (code : Code) (t : SymbolTable) :
    (code.resolve t).result = code.lookup (code.resolve t).symbols := by
  match code with
  | .address (.literal _) => rfl
  | .compute _ _ _ => rfl
  | .address (.symbol name) =>
    cases hfind : t.find? name with
    | some symbol => rw [resolve_symbol_of_bound hfind, lookup_of_bound hfind]
    | none =>
      by_cases hroom : t.nextVariable ≤ Memory.maxAddress
      · have hnew : (t.allocate name).find? name = some ⟨t.nextVariable, .var⟩ := by
          rw [SymbolTable.find?_allocate, if_pos rfl]
        rw [resolve_symbol_of_free hfind hroom, lookup_of_bound hnew, if_pos hroom]
      · rw [resolve_symbol_of_full hfind hroom, lookup_of_free hfind]

theorem settled_resolve (code : Code) (t : SymbolTable) :
    code.Settled (code.resolve t).symbols := by
  intro name hname
  rw [symbol?_eq_some_iff.mp hname]
  cases hfind : t.find? name with
  | some symbol =>
    rw [resolve_symbol_of_bound hfind]
    exact .inl ⟨symbol, hfind⟩
  | none =>
    by_cases hroom : t.nextVariable ≤ Memory.maxAddress
    · rw [resolve_symbol_of_free hfind hroom]
      exact .inl ⟨_, by rw [SymbolTable.find?_allocate, if_pos rfl]⟩
    · rw [resolve_symbol_of_full hfind hroom]
      exact .inr hroom

theorem lookup_congr {u : SymbolTable} {code : Code}
    (h : ∀ name, code.symbol? = some name → u.find? name = t.find? name) :
    code.lookup u = code.lookup t := by
  match code with
  | .address (.literal _) => rfl
  | .compute _ _ _ => rfl
  | .address (.symbol name) => simp only [lookup, h name rfl]

theorem symbols_resolve_of_full (code : Code) (hfull : ¬ t.nextVariable ≤ Memory.maxAddress) :
    (code.resolve t).symbols = t := by
  match code with
  | .address (.literal _) => rfl
  | .compute _ _ _ => rfl
  | .address (.symbol name) =>
    cases hfind : t.find? name with
    | some symbol => rw [resolve_symbol_of_bound hfind]
    | none => rw [resolve_symbol_of_full hfind hfull]

section Settled

variable {code : Code}

theorem Settled.find?_resolve (h : code.Settled t) (other : Code)
    (hname : code.symbol? = some name) : (other.resolve t).symbols.find? name = t.find? name := by
  -- a binding outlives the other operand, and a full table takes no new one
  rcases h name hname with ⟨symbol, hbound⟩ | hfull
  · have hchange := SymbolTable.change_run t (.resolveCode other)
    exact (hchange.find?_eq_some hbound).trans hbound.symm
  · rw [symbols_resolve_of_full other hfull]

theorem Settled.lookup_resolve (h : code.Settled t) (other : Code) :
    code.lookup (other.resolve t).symbols = code.lookup t :=
  lookup_congr fun _ => h.find?_resolve other

theorem Settled.resolve (h : code.Settled t) (other : Code) :
    code.Settled (other.resolve t).symbols := by
  intro name hname
  rw [h.find?_resolve other hname]
  rcases h name hname with hbound | hfull
  · exact .inl hbound
  · rw [symbols_resolve_of_full other hfull]
    exact .inr hfull

end Settled

/-- The error that a look-up reports, with the line of the code. -/
def fault? (t : SymbolTable) (c : Located Code) : Option (Located SourceError) :=
  match c.item.lookup t with
  | .ok _ => none
  | .error e => some ⟨c.line, e⟩

theorem fault?_eq_none_iff {c : Located Code} :
    fault? t c = none ↔ ∃ instruction, c.item.lookup t = .ok instruction := by
  unfold fault?
  cases c.item.lookup t <;> simp

end Code

/-! ## The whole pass -/

namespace Linking

/-- What the state of the pass holds after some code, told by the table of that moment. -/
structure Follows (t : SymbolTable) (code : List (Located Code)) (k : Linking) : Prop where
  symbols_eq : k.symbols = t.linked code
  settled : ∀ c ∈ code, c.item.Settled k.symbols
  instructions_eq : k.instructions.toList =
    code.filterMap fun c => (c.item.lookup k.symbols).toOption
  errors_eq : k.errors.toList = code.filterMap (Code.fault? k.symbols)

theorem follows_nil (t : SymbolTable) : Follows t [] { symbols := t } where
  symbols_eq := by rw [SymbolTable.linked, SymbolTable.allocated_nil, SymbolTable.allocateAll_nil]
  settled := by simp
  instructions_eq := rfl
  errors_eq := rfl

section Step

variable {t : SymbolTable} {code : List (Located Code)} {k : Linking}

/-- What the code so far stands for is not touched by the next instruction. -/
theorem Follows.lookup_step (h : Follows t code k) (c : Located Code) :
    ∀ d ∈ code, d.item.lookup (k.step c).symbols = d.item.lookup k.symbols :=
  fun d hd => (h.settled d hd).lookup_resolve c.item

theorem Follows.step (h : Follows t code k) (c : Located Code) :
    Follows t (code ++ [c]) (k.step c) := by
  have hlast : (c.item.resolve k.symbols).result = c.item.lookup (k.step c).symbols :=
    c.item.result_resolve k.symbols
  refine ⟨?_, ?_, ?_, ?_⟩
  · rw [← SymbolTable.symbols_resolve_linked, ← h.symbols_eq]
    rfl
  · intro d hd
    rcases List.mem_append.mp hd with hd | hd
    · exact (h.settled d hd).resolve c.item
    · obtain rfl := List.mem_singleton.mp hd
      exact d.item.settled_resolve k.symbols
  · -- the list so far is looked up in the new table, where it still means the same
    have hinit : (code.filterMap fun d => (d.item.lookup (k.step c).symbols).toOption) =
        k.instructions.toList := by
      rw [h.instructions_eq]
      exact List.filterMap_congr fun d hd => by rw [h.lookup_step c d hd]
    rw [List.filterMap_concat, hinit, ← hlast]
    simp [Linking.step]
  · have hinit : code.filterMap (Code.fault? (k.step c).symbols) = k.errors.toList := by
      rw [h.errors_eq]
      exact List.filterMap_congr fun d hd => by rw [Code.fault?, Code.fault?, h.lookup_step c d hd]
    rw [List.filterMap_concat, hinit, Code.fault?, ← hlast]
    simp only [Linking.step, SymbolTable.Effect.error?, Array.toList_append, Option.toList_toArray]
    cases (c.item.resolve k.symbols).result <;> rfl

end Step

theorem follows_foldl (t : SymbolTable) (code : List (Located Code)) :
    Follows t code (code.foldl Linking.step { symbols := t }) := by
  induction code using List.reverseRecOn with
  | nil => exact follows_nil t
  | append_singleton code c ih =>
    rw [List.foldl_concat]
    exact ih.step c

theorem follows_ofProgram (p : Program) : Follows p.symbols p.code (ofProgram p) :=
  follows_foldl p.symbols p.code

end Linking

/-- The second pass gives every instruction what it stands for in the table at the end, or reports
every instruction that stands for nothing in it. -/
theorem Program.link_eq (p : Program) :
    p.link =
      if p.code.filterMap (Code.fault? (p.symbols.linked p.code)) = [] then
        .ok {
          code := p.code
          instructions :=
            p.code.filterMap fun c => (c.item.lookup (p.symbols.linked p.code)).toOption
          symbols := p.symbols.linked p.code }
      else .error (p.code.filterMap (Code.fault? (p.symbols.linked p.code))) := by
  have h := Linking.follows_ofProgram p
  simp only [link_eq_assembly, Linking.assembly, ← h.symbols_eq, ← h.instructions_eq, ← h.errors_eq,
    Array.toList_eq_nil_iff, Array.isEmpty_iff]

end HackAssembler
