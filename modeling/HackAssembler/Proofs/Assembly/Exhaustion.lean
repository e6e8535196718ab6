-- SUMMARY: The second pass on any table: which references it reports for want of an address.
import HackAssembler.Proofs.Assembly.Binary

/-!
# When addresses run out

The second pass goes on behind an error, so one run may place some names and report others.
Which names it reports can be told beforehand from the table that it finds: those that are
bound beyond the last address, and of the new ones those that come when no word is left. The
table may be any, and it need not be the one that the first pass has made of the same source.
-/

namespace HackAssembler

/-! ## Names without an address -/

namespace SymbolTable

/-- A name is out of reach if it is bound, but to a word that no instruction can load. -/
def OutOfReach (t : SymbolTable) (name : String) : Prop :=
  ∃ symbol, t.find? name = some symbol ∧ 32767 < symbol.address.toNat

instance (t : SymbolTable) (name : String) : Decidable (t.OutOfReach name) :=
  decidable_of_iff ((t.find? name).any (32767 < ·.address.toNat) = true) <| by
    simp [OutOfReach, Option.any_eq_true]

/-- The new names of some code for which no word is left. -/
def unplaced (t : SymbolTable) (code : List (Located Code)) : List String :=
  (t.newNames code).drop t.room

variable {t : SymbolTable} {code : List (Located Code)} {name : String}

theorem mem_newNames_iff_allocated_or_unplaced :
    name ∈ t.newNames code ↔ name ∈ t.allocated code ∨ name ∈ t.unplaced code := by
  rw [allocated, unplaced, ← List.mem_append, List.take_append_drop]

theorem not_mem_unplaced_of_mem_allocated (h : name ∈ t.allocated code) :
    name ∉ t.unplaced code := by
  have hnodup : (t.newNames code).Nodup := List.nodup_eraseDups _
  exact List.disjoint_take_drop hnodup (Nat.le_refl _) h

theorem find?_of_mem_unplaced (h : name ∈ t.unplaced code) : t.find? name = none :=
  (mem_newNames.mp (List.mem_of_mem_drop h)).1

/-- The pass ends without binding the names that no word is left for. -/
theorem find?_linked_of_mem_unplaced (h : name ∈ t.unplaced code) :
    (t.linked code).find? name = none := by
  have hnew : name ∉ t.allocated code := fun hplaced => not_mem_unplaced_of_mem_allocated hplaced h
  rw [find?_linked_of_not_mem hnew, find?_of_mem_unplaced h]

theorem not_outOfReach_of_free (h : t.find? name = none) : ¬ t.OutOfReach name := by
  rintro ⟨symbol, hbound, -⟩
  rw [h] at hbound
  cases hbound

/-- The new variables stand in a row from the next free word on, which ends where memory does. -/
theorem exists_address_of_mem_allocated (h : name ∈ t.allocated code) :
    ∃ symbol, (t.linked code).find? name = some symbol ∧ symbol.address ≤ Memory.maxAddress := by
  obtain ⟨symbol, hfind⟩ := find?_linked_of_mem h
  refine ⟨symbol, hfind, ?_⟩
  have hentry := mem_entries_of_find?_eq_some hfind
  rw [linked, entries_allocateAll, List.mem_append] at hentry
  rcases hentry with hold | hnew
  · -- the name had no entry before
    have hfree := find?_eq_none_iff.mp (find?_of_mem_allocated h)
    exact absurd (List.mem_map_of_mem hold) hfree
  · obtain ⟨i, hi, hentry⟩ := List.mem_mapIdx.mp hnew
    obtain ⟨-, rfl⟩ := Prod.mk.inj hentry
    have hroom : i < t.room := Nat.lt_of_lt_of_le hi (length_allocated_le t code)
    rw [room] at hroom
    rw [Memory.le_maxAddress_iff, BitVec.toNat_add, BitVec.toNat_ofNat]
    omega

end SymbolTable

/-! ## Reports -/

/-- What is reported of an instruction: nothing, unless it refers to a name for which there is no
address. -/
def Program.report? (p : Program) (c : Located Code) : Option (Located SourceError) :=
  match c.item.symbol? with
  | some name =>
    if p.symbols.OutOfReach name ∨ name ∈ p.symbols.unplaced p.code then
      some ⟨c.line, .addressOutOfRange name⟩
    else none
  | none => none

namespace Program

variable {p : Program}

/-- Looking back from the end, code is refused exactly if it is reported. -/
theorem fault?_eq_report? {c : Located Code} (hc : c ∈ p.code) :
    Code.fault? (p.symbols.linked p.code) c = p.report? c := by
  unfold Code.fault? report?
  cases hname : c.item.symbol? with
  | none =>
    obtain ⟨i, hresolve⟩ := Code.exists_resolve_of_nameless hname
    have hlookup := c.item.result_resolve (p.symbols.linked p.code)
    rw [hresolve] at hlookup
    rw [← hlookup]
  | some name =>
    rw [Code.symbol?_eq_some_iff.mp hname]
    cases hfind : p.symbols.find? name with
    | some symbol =>
      have hold : name ∉ p.symbols.unplaced p.code := fun hmem => by
        rw [SymbolTable.find?_of_mem_unplaced hmem] at hfind
        cases hfind
      have hreach : p.symbols.OutOfReach name ↔ ¬ symbol.address ≤ Memory.maxAddress := by
        simp [SymbolTable.OutOfReach, hfind, Memory.le_maxAddress_iff]
      rw [Code.lookup_of_bound (SymbolTable.find?_linked_of_bound hfind)]
      by_cases hle : symbol.address ≤ Memory.maxAddress <;> simp [hle, hold, hreach]
    | none =>
      -- the name is new: how many others come before it tells whether a word is left for it
      have hreach := SymbolTable.not_outOfReach_of_free hfind
      have hmem : name ∈ p.symbols.newNames p.code :=
        SymbolTable.mem_newNames.mpr ⟨hfind, c, hc, hname⟩
      rcases SymbolTable.mem_newNames_iff_allocated_or_unplaced.mp hmem with hplaced | hunplaced
      · obtain ⟨symbol, hlinked, hle⟩ := SymbolTable.exists_address_of_mem_allocated hplaced
        have hnew := SymbolTable.not_mem_unplaced_of_mem_allocated hplaced
        simp [Code.lookup_of_bound hlinked, hle, hreach, hnew]
      · have hlinked := SymbolTable.find?_linked_of_mem_unplaced hunplaced
        simp [Code.lookup_of_free hlinked, hunplaced]

/-- The errors of a program: the reports of its instructions, in the order of the code. -/
def reports (p : Program) : List (Located SourceError) :=
  p.code.filterMap p.report?

theorem filterMap_fault?_eq (p : Program) :
    p.code.filterMap (Code.fault? (p.symbols.linked p.code)) = p.reports :=
  List.filterMap_congr fun _ hc => fault?_eq_report? hc

theorem report?_eq_none_iff {c : Located Code} :
    p.report? c = none ↔ ∀ name, c.item.symbol? = some name →
      ¬ p.symbols.OutOfReach name ∧ name ∉ p.symbols.unplaced p.code := by
  unfold report?
  cases c.item.symbol? with
  | none => simp
  | some name => simp [not_or]

/-- Nothing is reported exactly if no name is out of reach and there is room for the new ones. -/
theorem reports_eq_nil_iff :
    p.reports = [] ↔
      (∀ c ∈ p.code, ∀ name, c.item.symbol? = some name → ¬ p.symbols.OutOfReach name) ∧
        (p.symbols.newNames p.code).length ≤ p.symbols.room := by
  rw [reports, List.filterMap_eq_nil_iff]
  simp only [report?_eq_none_iff]
  constructor
  · intro h
    refine ⟨fun c hc name hname => (h c hc name hname).1, ?_⟩
    rw [← List.drop_eq_nil_iff, List.eq_nil_iff_forall_not_mem]
    intro name hname
    obtain ⟨-, c, hc, hsymbol⟩ := SymbolTable.mem_newNames.mp (List.mem_of_mem_drop hname)
    exact (h c hc name hsymbol).2 hname
  · rintro ⟨hreach, hroom⟩ c hc name hname
    refine ⟨hreach c hc name hname, ?_⟩
    rw [SymbolTable.unplaced, List.drop_of_length_le hroom]
    exact List.not_mem_nil

/-- With one word left, the second of two new names is reported at each of its references. -/
example :
    let table := { SymbolTable.initial with nextVariable := Memory.maxAddress }
    let code := ["i", "j", "i", "j"].mapIdx fun line name => ⟨line, .address (.symbol name)⟩
    reports ⟨code, table⟩ = [⟨1, .addressOutOfRange "j"⟩, ⟨3, .addressOutOfRange "j"⟩] := by
  decide +kernel

/-! ## The pass -/

theorem link_eq_reports (p : Program) :
    p.link =
      if p.reports = [] then
        .ok {
          code := p.code
          instructions :=
            p.code.filterMap fun c => (c.item.lookup (p.symbols.linked p.code)).toOption
          symbols := p.symbols.linked p.code }
      else .error p.reports := by
  rw [link_eq, filterMap_fault?_eq]

theorem link_eq_error_iff {errors : SourceErrors} :
    p.link = .error errors ↔ p.reports ≠ [] ∧ errors = p.reports := by
  rw [link_eq_reports]
  by_cases h : p.reports = []
  · simp [h]
  · simp [h, eq_comm]

/-- The pass fails exactly if a name is out of reach, or there are too many new ones. -/
theorem exists_error_iff :
    (∃ errors, p.link = .error errors) ↔
      (∃ c ∈ p.code, ∃ name, c.item.symbol? = some name ∧ p.symbols.OutOfReach name) ∨
        p.symbols.room < (p.symbols.newNames p.code).length := by
  have hreports : (∃ errors, p.link = .error errors) ↔ p.reports ≠ [] := by
    simp [link_eq_error_iff]
  rw [hreports, ne_eq, reports_eq_nil_iff, not_and_or, Nat.not_le]
  simp only [not_forall, not_not, exists_prop]

/-- If nothing is reported, all new names have been bound. -/
theorem symbols_of_link {a : Assembly} (h : p.link = .ok a) :
    a.code = p.code ∧ a.symbols = p.symbols.allocateAll (p.symbols.newNames p.code) ∧
      (p.symbols.newNames p.code).length ≤ p.symbols.room := by
  rw [link_eq_reports] at h
  split at h
  · rename_i hreports
    obtain rfl := Except.ok.inj h
    have hroom := (reports_eq_nil_iff.mp hreports).2
    refine ⟨rfl, ?_, hroom⟩
    simp only [SymbolTable.linked, SymbolTable.allocated, List.take_of_length_le hroom]
  · cases h

/-- The second pass on any code and any table. It fails exactly if a name of the code is bound out of
reach or there are more new names than words left, and then reports each reference to a name without
an address once, in order, and nothing else. Otherwise the new names are bound to the next words in
the order of their first references, and each instruction is what its code stands for in the table
so extended. -/
theorem link_on_any_table (p : Program) :
    let names := p.symbols.newNames p.code
    ((∃ errors, p.link = .error errors) ↔
      (∃ c ∈ p.code, ∃ name, c.item.symbol? = some name ∧ p.symbols.OutOfReach name) ∨
        32768 - p.symbols.nextVariable.toNat < names.length) ∧
    (∀ errors, p.link = .error errors → errors = p.reports) ∧
    (∀ a, p.link = .ok a →
      a.code = p.code ∧
      a.code.map (fun c => c.item.lookup a.symbols) = a.instructions.map .ok ∧
      a.symbols.entries = p.symbols.entries ++ names.mapIdx (fun i name =>
        (name, ⟨BitVec.ofNat 16 (p.symbols.nextVariable.toNat + i), .var⟩)) ∧
      a.symbols.nextVariable.toNat = p.symbols.nextVariable.toNat + names.length) := by
  intro names
  refine ⟨exists_error_iff, ?_, ?_⟩
  · intro errors herrors
    exact (link_eq_error_iff.mp herrors).2
  · intro a ha
    obtain ⟨hcode, hsymbols, hroom⟩ := symbols_of_link ha
    refine ⟨hcode, map_lookup_of_link ha, ?_, ?_⟩
    · simp only [hsymbols, SymbolTable.entries_allocateAll, BitVec.ofNat_add, BitVec.ofNat_toNat,
        BitVec.setWidth_eq, names]
    · rw [hsymbols, SymbolTable.toNat_nextVariable_allocateAll hroom]

end Program

end HackAssembler
