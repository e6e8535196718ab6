-- SUMMARY: Look-ups in a symbol table read from its entries.
import Mathlib.Data.List.Nodup
import HackAssembler.Symbols.Table

/-!
# Entries and look-ups

A look-up goes through the search tree of a table, while the entries are what the
table lists. As long as no name occurs twice among them, the two tell the same: a name
is bound to a symbol exactly if the pair of both is an entry.
-/

namespace HackAssembler.SymbolTable

/-- The names of a table, in the order of their definition. -/
def names (t : SymbolTable) : List String :=
  t.entries.map Prod.fst

theorem size_eq_length (t : SymbolTable) : t.size = t.entries.length := by
  simp [size, entries]

@[simp] theorem names_bind (t : SymbolTable) (name : String) (symbol : Symbol) :
    (t.bind name symbol).names = t.names ++ [name] := by
  simp [names]

@[simp] theorem names_allocate (t : SymbolTable) (name : String) :
    (t.allocate name).names = t.names ++ [name] :=
  names_bind t name _

@[simp] theorem names_initial : initial.names = Memory.predefined.map Prod.fst := by
  rw [names, entries_initial, List.map_map]
  rfl

/-! ## Look-ups -/

theorem find?_eq_none_iff {t : SymbolTable} {name : String} :
    t.find? name = none ↔ name ∉ t.names := by
  rw [find?_eq_lookup, List.lookup_eq_none_iff]
  simp only [names, entries, List.mem_map, List.mem_reverse, bne_iff_ne, not_exists, not_and]
  exact ⟨fun h e he heq => h e he heq.symm, fun h e he heq => h e he heq.symm⟩

theorem nodup_names_bind {t : SymbolTable} (hnodup : t.names.Nodup) {name : String}
    (hfree : t.find? name = none) (symbol : Symbol) : (t.bind name symbol).names.Nodup := by
  rw [names_bind, ← List.concat_eq_append]
  exact hnodup.concat (find?_eq_none_iff.mp hfree)

theorem mem_entries_of_find?_eq_some {t : SymbolTable} {name : String} {symbol : Symbol}
    (h : t.find? name = some symbol) : (name, symbol) ∈ t.entries := by
  rw [find?_eq_lookup, List.lookup_eq_some_iff] at h
  obtain ⟨newer, older, heq, -⟩ := h
  simp [entries, heq]

theorem find?_eq_some_iff {t : SymbolTable} (hnodup : t.names.Nodup) {name : String}
    {symbol : Symbol} : t.find? name = some symbol ↔ (name, symbol) ∈ t.entries := by
  constructor
  · exact mem_entries_of_find?_eq_some
  · intro hmem
    cases hfind : t.find? name with
    | none =>
      have hname : name ∈ t.names := List.mem_map_of_mem hmem
      exact absurd hname (find?_eq_none_iff.mp hfind)
    | some other =>
      have hother := mem_entries_of_find?_eq_some hfind
      have heq : (name, other) = (name, symbol) := List.inj_on_of_nodup_map hnodup hother hmem rfl
      exact congrArg some (Prod.mk.inj heq).2

end HackAssembler.SymbolTable
