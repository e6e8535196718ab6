-- SUMMARY: The symbol table: names in the order of their definition, with addresses and kinds.
import Std.Data.ExtTreeMap
import HackAssembler.Machine.Memory
import HackAssembler.Source.Error
import HackAssembler.Assembly.Event

/-!
# Symbol tables

A symbol table binds names to addresses. It starts with the predefined names; labels
are defined on top of them, and a name that is looked up in vain becomes a variable in
the next free word of memory. A name is bound once, and what is bound never changes.

The entries are kept in the order of their definition, which is the order in which
they are listed. A search tree beside them answers look-ups, and a proof ties the two
together, so a table is determined by its entries and its next free word.
-/

namespace HackAssembler

/-- How a name got its address. -/
inductive SymbolKind where
  | predefined
  /-- By a label on the given line, counted from zero. -/
  | label (line : Nat)
  | var
  deriving DecidableEq, Repr

/-- The line of the label that a name comes from, if it comes from one. -/
def SymbolKind.line? : SymbolKind → Option Nat
  | .label line => some line
  | _ => none

/-- What a name is bound to. -/
structure Symbol where
  address : Word
  kind : SymbolKind
  deriving DecidableEq, Repr

/-- The names that are known at some point of a run. -/
structure SymbolTable where
  /-- The entries, the newest first. -/
  newest : List (String × Symbol)
  /-- The entries by name. -/
  index : Std.ExtTreeMap String Symbol
  /-- The word of memory that the next variable takes. -/
  nextVariable : Word
  getElem?_index : ∀ name, index[name]? = newest.lookup name

namespace SymbolTable

/-! ## Looking up -/

/-- The entries in the order of their definition. -/
def entries (t : SymbolTable) : List (String × Symbol) :=
  t.newest.reverse

/-- What a name is bound to. -/
def find? (t : SymbolTable) (name : String) : Option Symbol :=
  t.index[name]?

/-- The address of a name. -/
def address? (t : SymbolTable) (name : String) : Option Word :=
  (t.find? name).map (·.address)

def size (t : SymbolTable) : Nat :=
  t.newest.length

/-- The number of labels. -/
def labelCount (t : SymbolTable) : Nat :=
  t.newest.countP fun (_, s) => s.kind.line?.isSome

/-- The number of variables. -/
def variableCount (t : SymbolTable) : Nat :=
  t.newest.countP fun (_, s) => s.kind = .var

theorem find?_eq_lookup (t : SymbolTable) (name : String) : t.find? name = t.newest.lookup name :=
  t.getElem?_index name

/-- Tables with the same entries and the same next free word are the same. -/
@[ext] theorem ext {t u : SymbolTable} (hn : t.newest = u.newest)
    (hv : t.nextVariable = u.nextVariable) : t = u := by
  obtain ⟨n, i, v, h⟩ := t
  obtain ⟨n', i', v', h'⟩ := u
  simp only at hn hv
  subst hn hv
  have hi : i = i' := Std.ExtTreeMap.ext_getElem? fun {name} => by rw [h, h']
  subst hi
  rfl

/-! ## Binding -/

/-- Bind a name, as the newest entry. -/
def bind (t : SymbolTable) (name : String) (symbol : Symbol) : SymbolTable where
  newest := (name, symbol) :: t.newest
  index := t.index.insert name symbol
  nextVariable := t.nextVariable
  getElem?_index other := by
    rw [Std.ExtTreeMap.getElem?_insert, List.lookup_cons, t.getElem?_index]
    by_cases h : name = other
    · subst h
      simp
    · have hb : (other == name) = false := by simpa using Ne.symm h
      simp [h, hb]

theorem find?_bind (t : SymbolTable) (name other : String) (symbol : Symbol) :
    (t.bind name symbol).find? other = if name = other then some symbol else t.find? other := by
  simp only [find?, bind, Std.ExtTreeMap.getElem?_insert, Std.compare_eq_iff_eq]

@[simp] theorem entries_bind (t : SymbolTable) (name : String) (symbol : Symbol) :
    (t.bind name symbol).entries = t.entries ++ [(name, symbol)] := by
  simp [entries, bind]

@[simp] theorem nextVariable_bind (t : SymbolTable) (name : String) (symbol : Symbol) :
    (t.bind name symbol).nextVariable = t.nextVariable := rfl

@[simp] theorem size_bind (t : SymbolTable) (name : String) (symbol : Symbol) :
    (t.bind name symbol).size = t.size + 1 := rfl

@[simp] theorem labelCount_bind (t : SymbolTable) (name : String) (symbol : Symbol) :
    (t.bind name symbol).labelCount = t.labelCount + if symbol.kind.line?.isSome then 1 else 0 :=
  List.countP_cons

@[simp] theorem variableCount_bind (t : SymbolTable) (name : String) (symbol : Symbol) :
    (t.bind name symbol).variableCount = t.variableCount + if symbol.kind = .var then 1 else 0 := by
  simp [variableCount, bind, List.countP_cons]

/-- The table without any names. -/
def empty : SymbolTable where
  newest := []
  index := ∅
  nextVariable := Memory.variableBase
  getElem?_index name := by simp

/-- The table that every run starts with: the predefined names. -/
def initial : SymbolTable :=
  Memory.predefined.foldl (fun t (name, address) => t.bind name ⟨address, .predefined⟩) empty

theorem entries_initial :
    initial.entries = Memory.predefined.map fun (name, address) => (name, ⟨address, .predefined⟩) := by
  rfl

/-! ## Operations -/

/-- What an operation on a table comes to. The table outlives a failure: whatever was bound before an
operation failed would stay bound. -/
structure Effect (α : Type) where
  /-- The answer, or why there is none. -/
  result : Except SourceError α
  /-- The table afterwards, also after a failure. -/
  symbols : SymbolTable
  /-- The binding that was made on the way, as the log tells it. -/
  event? : Option Event := none

namespace Effect

/-- What went wrong, if anything did. -/
def error? {α : Type} (e : Effect α) : Option SourceError :=
  match e.result with
  | .ok _ => none
  | .error error => some error

/-- Put an answer to a further test. What has been done to the table by then stays done. -/
def andThen {α β : Type} (e : Effect α) (test : α → Except SourceError β) : Effect β :=
  { e with result := e.result.bind test }

end Effect

/-! ## Labels -/

/-- Define a label. A name that is bound already is refused, with the line of its definition if it is
a label. -/
def defineLabel (t : SymbolTable) (name : String) (address : Word) (line : Nat) : Effect Unit :=
  match t.find? name with
  | some symbol => { result := .error (.duplicateLabel name symbol.kind.line?), symbols := t }
  | none =>
    { result := .ok ()
      symbols := t.bind name ⟨address, .label line⟩
      event? := some (.label name address) }

theorem defineLabel_of_bound {t : SymbolTable} {name : String} {symbol : Symbol}
    (h : t.find? name = some symbol) (address : Word) (line : Nat) :
    t.defineLabel name address line =
      { result := .error (.duplicateLabel name symbol.kind.line?), symbols := t } := by
  simp only [defineLabel, h]

theorem defineLabel_of_free {t : SymbolTable} {name : String} (h : t.find? name = none)
    (address : Word) (line : Nat) :
    t.defineLabel name address line =
      { result := .ok ()
        symbols := t.bind name ⟨address, .label line⟩
        event? := some (.label name address) } := by
  simp only [defineLabel, h]

/-! ## References -/

/-- Bind a name to the next free word, whatever that is. -/
def allocate (t : SymbolTable) (name : String) : SymbolTable :=
  { t.bind name ⟨t.nextVariable, .var⟩ with nextVariable := t.nextVariable + 1 }

@[simp] theorem entries_allocate (t : SymbolTable) (name : String) :
    (t.allocate name).entries = t.entries ++ [(name, ⟨t.nextVariable, .var⟩)] :=
  entries_bind t name _

@[simp] theorem nextVariable_allocate (t : SymbolTable) (name : String) :
    (t.allocate name).nextVariable = t.nextVariable + 1 := rfl

@[simp] theorem size_allocate (t : SymbolTable) (name : String) :
    (t.allocate name).size = t.size + 1 := rfl

@[simp] theorem labelCount_allocate (t : SymbolTable) (name : String) :
    (t.allocate name).labelCount = t.labelCount :=
  labelCount_bind t name _

@[simp] theorem variableCount_allocate (t : SymbolTable) (name : String) :
    (t.allocate name).variableCount = t.variableCount + 1 :=
  variableCount_bind t name _

theorem find?_allocate (t : SymbolTable) (name other : String) :
    (t.allocate name).find? other =
      if name = other then some ⟨t.nextVariable, .var⟩ else t.find? other :=
  find?_bind t name other _

/-- The address of a name. A name that is not bound becomes a variable, as long as there is an address
for it. -/
def resolve (t : SymbolTable) (name : String) : Effect Word :=
  match t.find? name with
  | some symbol => { result := .ok symbol.address, symbols := t }
  | none =>
    if t.nextVariable ≤ Memory.maxAddress then
      { result := .ok t.nextVariable
        symbols := t.allocate name
        event? := some (.allocation name t.nextVariable) }
    else { result := .error (.addressOutOfRange name), symbols := t }

theorem resolve_of_bound {t : SymbolTable} {name : String} {symbol : Symbol}
    (h : t.find? name = some symbol) :
    t.resolve name = { result := .ok symbol.address, symbols := t } := by
  simp only [resolve, h]

theorem resolve_of_free {t : SymbolTable} {name : String} (h : t.find? name = none)
    (room : t.nextVariable ≤ Memory.maxAddress) :
    t.resolve name =
      { result := .ok t.nextVariable
        symbols := t.allocate name
        event? := some (.allocation name t.nextVariable) } := by
  simp only [resolve, h, if_pos room]

theorem resolve_of_full {t : SymbolTable} {name : String} (h : t.find? name = none)
    (full : ¬ t.nextVariable ≤ Memory.maxAddress) :
    t.resolve name = { result := .error (.addressOutOfRange name), symbols := t } := by
  simp only [resolve, h, if_neg full]

end SymbolTable

end HackAssembler
