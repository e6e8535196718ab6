-- SUMMARY: Machine words, the range of addresses, and the memory map with its predefined names.

/-!
# Words and the memory map

The machine works on words of sixteen bits. The top bit tells the two classes of
instructions apart, so an address instruction can load fifteen bits only. The low
words of memory have names, and so have the two device maps.
-/

namespace HackAssembler

/-- A machine word. -/
abbrev Word := BitVec 16

/-- The sixteen binary digits of a word, the highest first. -/
def Word.binary (w : Word) : String :=
  String.ofList (List.ofFn fun i : Fin 16 => if w.getMsb i then '1' else '0')

namespace Memory

/-! ## Addresses -/

/-- The largest value that an address instruction can load. -/
def maxAddress : Word := 0x7FFF

/-- The first word that is handed out to variables. The registers lie below it. -/
def variableBase : Word := 16

@[simp] theorem toNat_maxAddress : maxAddress.toNat = 32767 := rfl

theorem le_maxAddress_iff {w : Word} : w ≤ maxAddress ↔ w.toNat ≤ 32767 := Iff.rfl

theorem toNat_ofNat {n : Nat} (h : n ≤ 32767) : (BitVec.ofNat 16 n).toNat = n :=
  Nat.mod_eq_of_lt (by omega)

/-- The first word of the screen map. -/
def screen : Word := 0x4000

/-- The word of the keyboard. -/
def keyboard : Word := 0x6000

/-- The word as an address, or nothing if its top bit is set. -/
def address? (w : Word) : Option Word :=
  if w ≤ maxAddress then some w else none

theorem address?_eq_some_iff {w a : Word} : address? w = some a ↔ w = a ∧ a ≤ maxAddress := by
  unfold address?
  split
  · simp only [Option.some.injEq]
    constructor
    · rintro rfl
      exact ⟨rfl, by assumption⟩
    · exact And.left
  · simp only [reduceCtorEq, false_iff, not_and]
    rintro rfl
    assumption

/-! ## Names -/

/-- The general registers `R0` to `R15`, in the first words of memory. -/
def registers : List (String × Word) :=
  (List.range 16).map fun i => (s!"R{i}", BitVec.ofNat 16 i)

/-- The predefined names with their addresses, in the order in which every symbol table lists them. -/
def predefined : List (String × Word) :=
  [("SP", 0), ("LCL", 1), ("ARG", 2), ("THIS", 3), ("THAT", 4)]
    ++ registers ++ [("SCREEN", screen), ("KBD", keyboard)]

end Memory

end HackAssembler
