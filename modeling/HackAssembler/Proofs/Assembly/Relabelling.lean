-- SUMMARY: Sources that differ in names and line numbers only, side by side through both passes.
import Mathlib.Data.Set.Function
import HackAssembler.Assembly.Assembly
import HackAssembler.Proofs.Symbols.Entries

/-!
# Relabelled sources

The passes carry names and line numbers along. They compare names with each other, and beyond
that they look at neither. So if a source is another one under new names and new line numbers,
both passes run over the two in step: whatever one run binds, builds or reports, the other one
does as well, in its own names and numbers. The new names have to be told apart wherever the
old ones are, and predefined names have to stay. The numbers may change in any way.
-/

/-! ## Lists -/

namespace List

/-- Keys that are replaced without mixing them up lead to the same values. -/
theorem lookup_map_of_injOn {α β γ δ : Type} [DecidableEq α] [DecidableEq β] {keys : Set α}
    {f : α → β} (hf : keys.InjOn f) (g : γ → δ) {l : List (α × γ)} (hl : ∀ e ∈ l, e.1 ∈ keys)
    {a : α} (ha : a ∈ keys) : (l.map (Prod.map f g)).lookup (f a) = (l.lookup a).map g := by
  induction l with
  | nil => rfl
  | cons e l ih =>
    obtain ⟨b, c⟩ := e
    have hb : b ∈ keys := hl (b, c) (List.mem_cons_self ..)
    have htail := ih fun e he => hl e (List.mem_cons_of_mem _ he)
    rw [List.map_cons, Prod.map_apply, List.lookup_cons, List.lookup_cons]
    -- the keys in the list are those that the map tells apart, so a new match cannot come up
    by_cases hab : a = b
    · simp [hab]
    · have hfab : f a ≠ f b := fun heq => hab (hf ha hb heq)
      rw [beq_false_of_ne hab, beq_false_of_ne hfab]
      exact htail

end List

namespace HackAssembler

/-! ## Relabelling -/

/-- New names and new line numbers for what a source says. -/
structure Relabelling where
  name : String → String := id
  line : Nat → Nat := id

namespace Relabelling

variable (θ : Relabelling)

def located {α β : Type} (f : α → β) (x : Located α) : Located β :=
  ⟨θ.line x.line, f x.item⟩

def code : Code → Code
  | .address (.literal value) => .address (.literal value)
  | .address (.symbol name) => .address (.symbol (θ.name name))
  | .compute dest comp jump => .compute dest comp jump

def statement : Statement → Statement
  | .code code => .code (θ.code code)
  | .label name => .label (θ.name name)

/-- The error of the relabelled source. Errors that are not about names keep their texts. -/
def error : SourceError → SourceError
  | .addressOutOfRange text => .addressOutOfRange (θ.name text)
  | .duplicateLabel name first => .duplicateLabel (θ.name name) (first.map θ.line)
  | error => error

def errors (es : SourceErrors) : SourceErrors :=
  es.map (θ.located θ.error)

def result {α β : Type} (f : α → β) : Except SourceError α → Except SourceError β
  | .ok a => .ok (f a)
  | .error e => .error (θ.error e)

def reading (r : Reading) : Reading :=
  θ.located (θ.result θ.statement) r

def kind : SymbolKind → SymbolKind
  | .label line => .label (θ.line line)
  | kind => kind

def symbol (s : Symbol) : Symbol :=
  { s with kind := θ.kind s.kind }

def entry (e : String × Symbol) : String × Symbol :=
  (θ.name e.1, θ.symbol e.2)

@[simp] theorem line?_kind (k : SymbolKind) : (θ.kind k).line? = k.line?.map θ.line := by
  cases k <;> rfl

/-- What makes new names as good as the old ones: none that may occur are mixed up, and the
predefined ones may occur and stay. -/
structure Faithful (names : Set String) : Prop where
  injOn : names.InjOn θ.name
  predefined_mem : ∀ name ∈ Memory.predefined.map Prod.fst, name ∈ names
  predefined_eq : ∀ name ∈ Memory.predefined.map Prod.fst, θ.name name = name

end Relabelling

/-- The name that a statement defines or references. -/
def Statement.name? : Statement → Option String
  | .code c => c.symbol?
  | .label name => some name

/-- The names of a reading are among the given ones. -/
def Reading.Within (names : Set String) (r : Reading) : Prop :=
  ∀ s name, r.item = .ok s → s.name? = some name → name ∈ names

section Run

variable {θ : Relabelling} {names : Set String}

/-! ## Tables -/

namespace SymbolTable

/-- The second table is the first one relabelled. -/
structure Relabelled (θ : Relabelling) (names : Set String) (t u : SymbolTable) : Prop where
  subset : ∀ name ∈ t.names, name ∈ names
  entries_eq : u.entries = t.entries.map θ.entry
  nextVariable_eq : u.nextVariable = t.nextVariable

variable {t u : SymbolTable} {name : String}

theorem relabelled_initial (hθ : θ.Faithful names) : initial.Relabelled θ names initial where
  subset name hname := hθ.predefined_mem name (names_initial ▸ hname)
  entries_eq := by
    rw [entries_initial, List.map_map]
    refine List.map_congr_left fun e he => ?_
    have hname : θ.name e.1 = e.1 := hθ.predefined_eq e.1 (List.mem_map_of_mem he)
    simp [Relabelling.entry, Relabelling.symbol, Relabelling.kind, hname]
  nextVariable_eq := rfl

namespace Relabelled

theorem find?_eq (hθ : θ.Faithful names) (h : t.Relabelled θ names u) (hname : name ∈ names) :
    u.find? (θ.name name) = (t.find? name).map θ.symbol := by
  have hnewest : u.newest = t.newest.map θ.entry := by
    apply List.reverse_injective
    rw [← List.map_reverse]
    exact h.entries_eq
  rw [find?_eq_lookup, find?_eq_lookup, hnewest]
  refine List.lookup_map_of_injOn hθ.injOn θ.symbol (fun e he => h.subset e.1 ?_) hname
  exact List.mem_map_of_mem (List.mem_reverse.mpr he)

theorem bind (h : t.Relabelled θ names u) (hname : name ∈ names) (s : Symbol) :
    (t.bind name s).Relabelled θ names (u.bind (θ.name name) (θ.symbol s)) where
  subset other hother := by
    rw [names_bind, List.mem_append, List.mem_singleton] at hother
    rcases hother with hother | rfl
    · exact h.subset other hother
    · exact hname
  entries_eq := by simp [h.entries_eq, Relabelling.entry]
  nextVariable_eq := h.nextVariable_eq

theorem allocate (h : t.Relabelled θ names u) (hname : name ∈ names) :
    (t.allocate name).Relabelled θ names (u.allocate (θ.name name)) where
  subset := (h.bind hname ⟨t.nextVariable, .var⟩).subset
  entries_eq := by
    simp [h.entries_eq, h.nextVariable_eq, Relabelling.entry, Relabelling.symbol, Relabelling.kind]
  nextVariable_eq := by simp [h.nextVariable_eq]

end Relabelled

/-! ## Operations -/

/-- The second effect is the first one relabelled. Both have the same answer, or fail alike. -/
structure Effect.Relabelled {α : Type} (θ : Relabelling) (names : Set String) (e f : Effect α) :
    Prop where
  result_eq : f.result = θ.result id e.result
  symbols : e.symbols.Relabelled θ names f.symbols

theorem Effect.Relabelled.andThen {α β : Type} {e f : Effect α} (h : e.Relabelled θ names f)
    {test test' : α → Except SourceError β} (htest : ∀ a, test' a = θ.result id (test a)) :
    (e.andThen test).Relabelled θ names (f.andThen test') where
  result_eq := by
    simp only [Effect.andThen, h.result_eq]
    cases e.result with
    | ok a => exact htest a
    | error e => rfl
  symbols := h.symbols

theorem Effect.Relabelled.error?_eq {α : Type} {e f : Effect α} (h : e.Relabelled θ names f) :
    f.error? = e.error?.map θ.error := by
  simp only [Effect.error?, h.result_eq]
  cases e.result <;> rfl

namespace Relabelled

theorem defineLabel (hθ : θ.Faithful names) (h : t.Relabelled θ names u) (hname : name ∈ names)
    (address : Word) (line : Nat) :
    (t.defineLabel name address line).Relabelled θ names
      (u.defineLabel (θ.name name) address (θ.line line)) := by
  have hfind := h.find?_eq hθ hname
  cases hbound : t.find? name with
  | some s =>
    rw [hbound] at hfind
    rw [defineLabel_of_bound hbound, defineLabel_of_bound hfind]
    exact ⟨by simp [Relabelling.result, Relabelling.error, Relabelling.symbol], h⟩
  | none =>
    rw [hbound] at hfind
    rw [defineLabel_of_free hbound, defineLabel_of_free hfind]
    exact ⟨rfl, h.bind hname ⟨address, .label line⟩⟩

theorem resolve (hθ : θ.Faithful names) (h : t.Relabelled θ names u) (hname : name ∈ names) :
    (t.resolve name).Relabelled θ names (u.resolve (θ.name name)) := by
  have hfind := h.find?_eq hθ hname
  cases hbound : t.find? name with
  | some s =>
    rw [hbound] at hfind
    rw [resolve_of_bound hbound, resolve_of_bound hfind]
    exact ⟨rfl, h⟩
  | none =>
    rw [hbound] at hfind
    -- both tables have allocated as many variables, so they run out of words together
    by_cases hroom : t.nextVariable ≤ Memory.maxAddress
    · have hroom' : u.nextVariable ≤ Memory.maxAddress := h.nextVariable_eq ▸ hroom
      rw [resolve_of_free hbound hroom, resolve_of_free hfind hroom']
      exact ⟨by simp [Relabelling.result, h.nextVariable_eq], h.allocate hname⟩
    · have hfull : ¬ u.nextVariable ≤ Memory.maxAddress := h.nextVariable_eq ▸ hroom
      rw [resolve_of_full hbound hroom, resolve_of_full hfind hfull]
      exact ⟨rfl, h⟩

/-- What an operand stands for does not depend on how it is spelled. -/
theorem resolveCode (hθ : θ.Faithful names) (h : t.Relabelled θ names u) {code : Code}
    (hcode : ∀ name, code.symbol? = some name → name ∈ names) :
    (code.resolve t).Relabelled θ names ((θ.code code).resolve u) := by
  match code with
  | .address (.literal value) => exact ⟨rfl, h⟩
  | .compute dest comp jump => exact ⟨rfl, h⟩
  | .address (.symbol name) =>
    refine (h.resolve hθ (hcode name rfl)).andThen fun address => ?_
    cases Memory.address? address <;> rfl

end Relabelled

end SymbolTable

/-! ## The first pass -/

/-- The second state of the first pass is the first one relabelled. -/
structure Placement.Relabelled (θ : Relabelling) (names : Set String) (p q : Placement) :
    Prop where
  next_eq : q.next = p.next
  symbols : p.symbols.Relabelled θ names q.symbols
  errors_eq : q.errors.toList = θ.errors p.errors.toList

namespace Placement.Relabelled

variable {p q : Placement}

theorem place (hθ : θ.Faithful names) (h : p.Relabelled θ names q) {name : String}
    (hname : name ∈ names) (line : Nat) :
    (p.place name line).Relabelled θ names (q.place (θ.name name) (θ.line line)) := by
  unfold Placement.place
  rw [h.next_eq]
  split
  · exact h.symbols.defineLabel hθ hname _ line
  · exact ⟨rfl, h.symbols⟩

theorem record (h : p.Relabelled θ names q) {e f : SymbolTable.Effect Unit}
    (heffect : e.Relabelled θ names f) (line : Nat) :
    (p.record line e).Relabelled θ names (q.record (θ.line line) f) where
  next_eq := h.next_eq
  symbols := heffect.symbols
  errors_eq := by
    simp only [Placement.record, Array.toList_append, Option.toList_toArray, h.errors_eq,
      heffect.error?_eq, Relabelling.errors, List.map_append]
    cases e.error? <;> rfl

theorem step (hθ : θ.Faithful names) (h : p.Relabelled θ names q) {r : Reading}
    (hr : r.Within names) : (p.step r).Relabelled θ names (q.step (θ.reading r)) := by
  obtain ⟨line, item⟩ := r
  match item with
  | .ok (.code code) => exact ⟨congrArg (· + 1) h.next_eq, h.symbols, h.errors_eq⟩
  | .ok (.label name) =>
    have hname : name ∈ names := hr (.label name) name rfl rfl
    exact h.record (h.place hθ hname line) line
  | .error e =>
    refine ⟨h.next_eq, h.symbols, ?_⟩
    simp [Placement.step, Relabelling.reading, Relabelling.located, Relabelling.result,
      Relabelling.errors, h.errors_eq]

theorem foldl (hθ : θ.Faithful names) (h : p.Relabelled θ names q) {rs : List Reading}
    (hrs : ∀ r ∈ rs, r.Within names) :
    (rs.foldl Placement.step p).Relabelled θ names
      ((rs.map θ.reading).foldl Placement.step q) := by
  induction rs generalizing p q with
  | nil => exact h
  | cons r rs ih =>
    rw [List.forall_mem_cons] at hrs
    exact ih (h.step hθ hrs.1) hrs.2

end Placement.Relabelled

/-! ## Results -/

/-- Two results of runs side by side: both succeed, with related outcomes, or the second one
reports the errors of the first one relabelled. -/
inductive Relabelling.Matches {α : Type} (θ : Relabelling) (Related : α → α → Prop) :
    Except SourceErrors α → Except SourceErrors α → Prop where
  | ok {a b : α} (h : Related a b) : Matches θ Related (.ok a) (.ok b)
  | error (es : SourceErrors) : Matches θ Related (.error es) (.error (θ.errors es))

theorem Relabelling.Matches.bind {α β : Type} {R : α → α → Prop} {S : β → β → Prop}
    {x y : Except SourceErrors α} {f g : α → Except SourceErrors β} (h : θ.Matches R x y)
    (hfg : ∀ a b, R a b → θ.Matches S (f a) (g b)) : θ.Matches S (x.bind f) (y.bind g) := by
  cases h with
  | ok h => exact hfg _ _ h
  | error es => exact .error es

/-- The second program is the first one relabelled. -/
structure Program.Relabelled (θ : Relabelling) (names : Set String) (p q : Program) : Prop where
  within : ∀ c ∈ p.code, ∀ name, c.item.symbol? = some name → name ∈ names
  code_eq : q.code = p.code.map (θ.located θ.code)
  symbols : p.symbols.Relabelled θ names q.symbols

/-- The second assembly is the first one relabelled. Its words are the same. -/
structure Assembly.Relabelled (θ : Relabelling) (a b : Assembly) : Prop where
  code_eq : b.code = a.code.map (θ.located θ.code)
  instructions_eq : b.instructions = a.instructions
  words_eq : b.words = a.words
  entries_eq : b.symbols.entries = a.symbols.entries.map θ.entry
  nextVariable_eq : b.symbols.nextVariable = a.symbols.nextVariable

theorem Reading.code?_reading (θ : Relabelling) (r : Reading) :
    (θ.reading r).code? = r.code?.map (θ.located θ.code) := by
  obtain ⟨line, item⟩ := r
  match item with
  | .ok (.code code) => rfl
  | .ok (.label name) => rfl
  | .error e => rfl

theorem Reading.code?_eq_some_iff {r : Reading} {c : Located Code} :
    r.code? = some c ↔ r.line = c.line ∧ r.item = .ok (.code c.item) := by
  obtain ⟨line, item⟩ := r
  obtain ⟨line', code'⟩ := c
  match item with
  | .ok (.code code) => simp [code?]
  | .ok (.label name) => simp [code?]
  | .error e => simp [code?]

theorem Program.ofLines_relabelled (hθ : θ.Faithful names) {lines others : List String}
    (hwithin : ∀ r ∈ readings lines, r.Within names)
    (hreadings : readings others = (readings lines).map θ.reading) :
    θ.Matches (Program.Relabelled θ names) (Program.ofLines lines) (Program.ofLines others) := by
  have hstart : Placement.Relabelled θ names {} {} :=
    ⟨rfl, SymbolTable.relabelled_initial hθ, rfl⟩
  have hpass := hstart.foldl hθ hwithin
  rw [← hreadings] at hpass
  simp only [Program.ofLines_eq_program, Placement.program, ← Array.isEmpty_toList,
    Placement.ofReadings, hpass.errors_eq, Relabelling.errors, List.isEmpty_map]
  split
  · refine .ok ⟨?_, ?_, hpass.symbols⟩
    · intro c hc name hname
      obtain ⟨r, hr, hcode⟩ := List.mem_filterMap.mp hc
      exact hwithin r hr (.code c.item) name (Reading.code?_eq_some_iff.mp hcode).2 hname
    · simp only [hreadings, List.filterMap_map, List.map_filterMap, Function.comp_def,
        Reading.code?_reading]
  · exact .error _

/-! ## The second pass -/

/-- The second state of the second pass is the first one relabelled. -/
structure Linking.Relabelled (θ : Relabelling) (names : Set String) (k l : Linking) : Prop where
  symbols : k.symbols.Relabelled θ names l.symbols
  instructions_eq : l.instructions = k.instructions
  errors_eq : l.errors.toList = θ.errors k.errors.toList

namespace Linking.Relabelled

variable {k l : Linking}

theorem step (hθ : θ.Faithful names) (h : k.Relabelled θ names l) {c : Located Code}
    (hc : ∀ name, c.item.symbol? = some name → name ∈ names) :
    (k.step c).Relabelled θ names (l.step (θ.located θ.code c)) := by
  have heffect := h.symbols.resolveCode hθ hc
  refine ⟨heffect.symbols, ?_, ?_⟩
  · simp only [Linking.step, Relabelling.located, h.instructions_eq, heffect.result_eq]
    cases (c.item.resolve k.symbols).result <;> rfl
  · simp only [Linking.step, Relabelling.located, Array.toList_append, Option.toList_toArray,
      h.errors_eq, heffect.error?_eq, Relabelling.errors, List.map_append]
    cases (c.item.resolve k.symbols).error? <;> rfl

theorem foldl (hθ : θ.Faithful names) (h : k.Relabelled θ names l) {code : List (Located Code)}
    (hcode : ∀ c ∈ code, ∀ name, c.item.symbol? = some name → name ∈ names) :
    (code.foldl Linking.step k).Relabelled θ names
      ((code.map (θ.located θ.code)).foldl Linking.step l) := by
  induction code generalizing k l with
  | nil => exact h
  | cons c code ih =>
    rw [List.forall_mem_cons] at hcode
    exact ih (h.step hθ hcode.1) hcode.2

end Linking.Relabelled

theorem Program.Relabelled.link (hθ : θ.Faithful names) {p q : Program}
    (h : p.Relabelled θ names q) : θ.Matches (Assembly.Relabelled θ) p.link q.link := by
  have hstart : Linking.Relabelled θ names { symbols := p.symbols } { symbols := q.symbols } :=
    ⟨h.symbols, rfl, rfl⟩
  have hpass := hstart.foldl hθ h.within
  rw [← h.code_eq] at hpass
  -- there are as many errors in both runs, so the test for errors comes out the same
  simp only [Program.link_eq_assembly, Linking.assembly, ← Array.isEmpty_toList, Linking.ofProgram,
    hpass.errors_eq, Relabelling.errors, List.isEmpty_map]
  split
  · have hinstructions := congrArg Array.toList hpass.instructions_eq
    exact .ok ⟨h.code_eq, hinstructions, congrArg (List.map Instruction.encode) hinstructions,
      hpass.symbols.entries_eq, hpass.symbols.nextVariable_eq⟩
  · exact .error _

/-- A source and its relabelled twin assemble to the same words, or fail for the same reasons. -/
theorem assembleLines_relabelled (hθ : θ.Faithful names) {lines others : List String}
    (hwithin : ∀ r ∈ readings lines, r.Within names)
    (hreadings : readings others = (readings lines).map θ.reading) :
    θ.Matches (Assembly.Relabelled θ) (assembleLines lines) (assembleLines others) := by
  rw [assembleLines_eq, assembleLines_eq]
  exact (Program.ofLines_relabelled hθ hwithin hreadings).bind fun _ _ h => h.link hθ

end Run

end HackAssembler
