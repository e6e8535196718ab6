-- SUMMARY: The table at the end of a run: resolving the code on it once more changes nothing.
import HackAssembler.Proofs.Assembly.Binary

/-!
# Linking once more

The second pass resolves each instruction on a table that is still growing, while whatever is
reported afterwards looks names up in the table that it ends with. That table binds every
name of the code, and to the address that went into the binary: on it, the pass finds nothing
to allocate, and it builds the same instructions.
-/

namespace HackAssembler

variable {t : SymbolTable} {code : Code} {i : Instruction}

/-- Where a look-up succeeds, resolving gives its answer and leaves the table alone. -/
theorem Code.resolve_of_lookup (h : code.lookup t = .ok i) :
    code.resolve t = { result := .ok i, symbols := t } := by
  match code with
  | .address (.literal value) =>
    obtain rfl := Except.ok.inj h
    rfl
  | .address (.symbol name) =>
    obtain ⟨symbol, hfind, hle, rfl⟩ := exists_of_lookup_symbol h
    rw [resolve_symbol_of_bound hfind, if_pos hle]
  | .compute dest comp jump =>
    obtain rfl := Except.ok.inj h
    rfl

/-- A table that binds every name of the code is not extended by it. -/
theorem SymbolTable.linked_of_bound {code : List (Located Code)}
    (h : ∀ c ∈ code, ∀ name, c.item.symbol? = some name → ∃ symbol, t.find? name = some symbol) :
    t.linked code = t := by
  have hnews : t.newNames code = [] := by
    rw [List.eq_nil_iff_forall_not_mem]
    intro name hname
    obtain ⟨hfree, c, hc, hsymbol⟩ := mem_newNames.mp hname
    obtain ⟨symbol, hbound⟩ := h c hc name hsymbol
    rw [hfree] at hbound
    cases hbound
  rw [linked, allocated, hnews, List.take_nil, allocateAll_nil]

namespace Assembly.Built

variable {a : Assembly}

theorem length_code (h : a.Built) : a.code.length = a.instructions.length := by
  simpa using congrArg List.length h.map_lookup

theorem exists_instruction (h : a.Built) {k : Nat} {c : Located Code} (hc : a.code[k]? = some c) :
    ∃ i, a.instructions[k]? = some i ∧ c.item.lookup a.symbols = .ok i := by
  have hk := congrArg (·[k]?) h.map_lookup
  simp only [List.getElem?_map, hc, Option.map_some] at hk
  obtain ⟨i, hi, hlookup⟩ := Option.map_eq_some_iff.mp hk.symm
  exact ⟨i, hi, hlookup.symm⟩

theorem exists_lookup_of_mem (h : a.Built) {c : Located Code} (hc : c ∈ a.code) :
    ∃ i, c.item.lookup a.symbols = .ok i := by
  obtain ⟨k, hk⟩ := List.mem_iff_getElem?.mp hc
  obtain ⟨i, -, hlookup⟩ := h.exists_instruction hk
  exact ⟨i, hlookup⟩

theorem linked_symbols (h : a.Built) : a.symbols.linked a.code = a.symbols := by
  refine SymbolTable.linked_of_bound fun c hc name hname => ?_
  obtain ⟨i, hlookup⟩ := h.exists_lookup_of_mem hc
  rw [Code.symbol?_eq_some_iff.mp hname] at hlookup
  obtain ⟨symbol, hfind, -, -⟩ := Code.exists_of_lookup_symbol hlookup
  exact ⟨symbol, hfind⟩

/-- The second pass over the code of an assembly and its table gives the assembly back. -/
theorem link_eq_ok (h : a.Built) : Program.link ⟨a.code, a.symbols⟩ = .ok a := by
  have hfaultless : a.code.filterMap (Code.fault? a.symbols) = [] :=
    List.filterMap_eq_nil_iff.mpr fun c hc => Code.fault?_eq_none_iff.mpr (h.exists_lookup_of_mem hc)
  -- as every look-up succeeds, leaving out the failures leaves out nothing
  have hinstructions : (a.code.filterMap fun c => (c.item.lookup a.symbols).toOption) =
      a.instructions := by
    have hmap := map_eq_map_ok fun c (hc : c ∈ a.code) => h.exists_lookup_of_mem hc
    rw [h.map_lookup] at hmap
    exact (List.map_injective_iff.mpr (fun _ _ => Except.ok.inj) hmap).symm
  rw [Program.link_eq, h.linked_symbols, if_pos hfaultless, hinstructions]

end Assembly.Built

end HackAssembler
