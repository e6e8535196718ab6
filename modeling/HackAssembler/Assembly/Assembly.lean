-- SUMMARY: The second pass: names resolved, instructions built, and the text of the binary.
import HackAssembler.Assembly.Program
import HackAssembler.Text.Lines

/-!
# Assemblies

The second pass resolves the operands of a program in order. A name that is not a
label, and not predefined, becomes a variable where it is met first. Like the first
pass it goes on behind errors, and a name that could not be resolved is reported at
each of its references.
-/

namespace HackAssembler

/-! ## Instructions -/

/-- Resolve the operand of an instruction. The address of a name is tested only after the name is bound. -/
def Code.resolve (code : Code) (symbols : SymbolTable) : SymbolTable.Effect Instruction :=
  match code with
  | .address (.literal value) => { result := .ok (.address value), symbols }
  | .address (.symbol name) =>
    (symbols.resolve name).andThen fun address =>
      match Memory.address? address with
      | some value => .ok (.address value)
      | none => .error (.addressOutOfRange name)
  | .compute dest comp jump => { result := .ok (.compute dest comp jump), symbols }

namespace Code

@[simp] theorem symbols_resolve_symbol (name : String) (t : SymbolTable) :
    ((Code.address (.symbol name)).resolve t).symbols = (t.resolve name).symbols := rfl

/-- Code without a name in it needs no table. -/
theorem exists_resolve_of_nameless {code : Code} (h : code.symbol? = none) :
    ∃ instruction, ∀ t, code.resolve t = { result := .ok instruction, symbols := t } := by
  match code, h with
  | .address (.literal value), _ => exact ⟨.address value, fun _ => rfl⟩
  | .compute dest comp jump, _ => exact ⟨.compute dest comp jump, fun _ => rfl⟩

theorem resolve_symbol_of_bound {t : SymbolTable} {name : String} {symbol : Symbol}
    (h : t.find? name = some symbol) :
    (address (.symbol name)).resolve t =
      { result :=
          if symbol.address ≤ Memory.maxAddress then .ok (.address symbol.address)
          else .error (.addressOutOfRange name)
        symbols := t } := by
  by_cases hle : symbol.address ≤ Memory.maxAddress <;>
    simp only [resolve, SymbolTable.resolve_of_bound h, SymbolTable.Effect.andThen, Except.bind,
      Memory.address?, hle, if_true, if_false]

/-- A fresh variable passes the test of its address, so no binding is made in vain. -/
theorem resolve_symbol_of_free {t : SymbolTable} {name : String} (h : t.find? name = none)
    (room : t.nextVariable ≤ Memory.maxAddress) :
    (address (.symbol name)).resolve t =
      { result := .ok (.address t.nextVariable)
        symbols := t.allocate name
        event? := some (.allocation name t.nextVariable) } := by
  simp only [resolve, SymbolTable.resolve_of_free h room, SymbolTable.Effect.andThen, Except.bind,
    Memory.address?, if_pos room]

theorem resolve_symbol_of_full {t : SymbolTable} {name : String} (h : t.find? name = none)
    (full : ¬ t.nextVariable ≤ Memory.maxAddress) :
    (address (.symbol name)).resolve t =
      { result := .error (.addressOutOfRange name), symbols := t } := by
  simp only [resolve, SymbolTable.resolve_of_full h full, SymbolTable.Effect.andThen, Except.bind]

end Code

/-! ## The pass -/

/-- The state of the second pass. -/
structure Linking where
  symbols : SymbolTable
  instructions : Array Instruction := #[]
  errors : Array (Located SourceError) := #[]
  events : Array Event := #[]

namespace Linking

/-- Take in one instruction. -/
def step (k : Linking) (code : Located Code) : Linking :=
  let effect := code.item.resolve k.symbols
  { symbols := effect.symbols
    instructions := k.instructions ++ effect.result.toOption.toArray
    errors := k.errors ++ (effect.error?.map (Located.mk code.line)).toArray
    events := k.events ++ effect.event?.toArray }

/-- The second pass over a program. -/
def ofProgram (p : Program) : Linking :=
  p.code.foldl step { symbols := p.symbols }

end Linking

/-! ## Assemblies -/

/-- The result of both passes. The instructions belong to the items of `code`, in order. -/
structure Assembly where
  code : List (Located Code)
  instructions : List Instruction
  symbols : SymbolTable

namespace Assembly

/-- The words of an assembly. -/
def words (a : Assembly) : List Word :=
  a.instructions.map Instruction.encode

/-- The text of the binary: a line of sixteen digits for each word. -/
def binary (a : Assembly) : String :=
  String.join (a.words.map fun w => w.binary ++ "\n")

end Assembly

/-- The assembly of a pass that found no errors. -/
def Linking.assembly (k : Linking) (p : Program) : Except SourceErrors Assembly :=
  if k.errors.isEmpty then .ok ⟨p.code, k.instructions.toList, k.symbols⟩
  else .error k.errors.toList

/-- The second pass over a program. -/
def Program.secondPass (p : Program) : Pass Assembly :=
  let k := Linking.ofProgram p
  .ended (k.assembly p) k.events fun a => .linked a.symbols.variableCount

/-- The assembly of a program, or all the errors of the second pass. -/
def Program.link (p : Program) : Except SourceErrors Assembly :=
  p.secondPass.result

theorem Program.link_eq_assembly (p : Program) : p.link = (Linking.ofProgram p).assembly p := rfl

/-- Both passes over the lines of a source. The second one is reached only if the first one succeeds. -/
def bothPasses (lines : List String) : Pass Assembly :=
  (firstPass lines).andThen Program.secondPass

/-- Assemble the lines of a source. -/
def assembleLines (lines : List String) : Except SourceErrors Assembly :=
  (bothPasses lines).result

theorem assembleLines_eq (lines : List String) :
    assembleLines lines = (Program.ofLines lines).bind Program.link :=
  Pass.result_andThen _ _

/-- Assemble a source. -/
def assemble (source : String) : Except SourceErrors Assembly :=
  assembleLines (Text.lines source)

/-- What happens while the lines of a source are assembled. -/
def events (lines : List String) : List Event :=
  (bothPasses lines).events

end HackAssembler
