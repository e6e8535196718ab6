-- SUMMARY: The binary of an assembly: how it is laid out, and that nothing is lost in it.
import HackAssembler.Proofs.Assembly.Specification

/-!
# The binary of an assembly

The binary has a row of digits for each instruction, and a row holds the word of its
instruction. A word tells its instruction only if the instruction keeps to its own bits. The
type of instructions does not demand it, but whatever the passes build does: the numbers
that are written are addresses, addresses from the table are tested, and no mnemonic sets a
bit of a destination that belongs to no register.
-/

namespace HackAssembler

/-! ## Rows of digits -/

namespace Word

theorem length_binary (w : Word) : w.binary.length = 16 := by
  rw [← String.length_toList, toList_binary, List.length_map, List.length_range]

theorem eq_zero_or_one_of_mem_binary {w : Word} {c : Char} (h : c ∈ w.binary.toList) :
    c = '0' ∨ c = '1' := by
  rw [toList_binary] at h
  obtain ⟨i, -, rfl⟩ := List.mem_map.mp h
  cases w.getMsbD i with
  | false => exact .inl rfl
  | true => exact .inr rfl

theorem binary_injective {v w : Word} (h : v.binary = w.binary) : v = w := by
  have hvalue := ofText?_binary v
  rw [h, ofText?_binary w] at hvalue
  exact BitVec.eq_of_toNat_eq (Option.some.inj hvalue).symm

/-- The row of a word starts with the digits of its three high bits. -/
theorem exists_toList_binary_eq (w : Word) :
    ∃ rest, w.binary.toList =
      digit (w.getMsbD 0) :: digit (w.getMsbD 1) :: digit (w.getMsbD 2) :: rest :=
  ⟨_, toList_binary w⟩

theorem zero_prefix_iff {w : Word} : ['0'] <+: w.binary.toList ↔ w.getMsbD 0 = false := by
  obtain ⟨rest, hrest⟩ := exists_toList_binary_eq w
  rw [hrest]
  cases w.getMsbD 0 <;> simp [digit]

theorem ones_prefix_iff {w : Word} :
    ['1', '1', '1'] <+: w.binary.toList ↔
      w.getMsbD 0 = true ∧ w.getMsbD 1 = true ∧ w.getMsbD 2 = true := by
  obtain ⟨rest, hrest⟩ := exists_toList_binary_eq w
  rw [hrest]
  cases w.getMsbD 0 <;> cases w.getMsbD 1 <;> cases w.getMsbD 2 <;> simp [digit]

end Word

namespace Assembly

theorem binary_eq_ofRows (a : Assembly) : a.binary = Text.ofRows (a.words.map Word.binary) := by
  simp only [binary, Text.ofRows, List.map_map]
  rfl

theorem lines_binary (a : Assembly) : Text.lines a.binary = a.words.map Word.binary := by
  rw [binary_eq_ofRows]
  refine Text.lines_ofRows fun row hrow => ?_
  obtain ⟨w, -, rfl⟩ := List.mem_map.mp hrow
  have hdigits : ∀ c ∈ w.binary.toList, c ≠ '\n' ∧ c ≠ '\r' := by
    intro c hc
    rcases Word.eq_zero_or_one_of_mem_binary hc with rfl | rfl <;> decide
  exact ⟨fun hc => (hdigits _ hc).1 rfl, fun hlast => (hdigits _ (List.mem_of_getLast? hlast)).2 rfl⟩

end Assembly

/-! ## Classes of instructions -/

theorem Code.exists_of_lookup_symbol {t : SymbolTable} {name : String} {i : Instruction}
    (h : (address (.symbol name)).lookup t = .ok i) :
    ∃ symbol, t.find? name = some symbol ∧ symbol.address ≤ Memory.maxAddress ∧
      i = .address symbol.address := by
  cases hfind : t.find? name with
  | none =>
    rw [lookup_of_free hfind] at h
    cases h
  | some symbol =>
    rw [lookup_of_bound hfind] at h
    split at h
    · rename_i hle
      exact ⟨symbol, rfl, hle, (Except.ok.inj h).symm⟩
    · cases h

/-- Whether an instruction loads an address. -/
def Instruction.IsAddress (i : Instruction) : Prop :=
  ∃ value, i = .address value

/-- Whether an instruction loads an address, as it is written. -/
def Code.IsAddress (code : Code) : Prop :=
  ∃ operand, code = .address operand

theorem Code.isAddress_iff_of_lookup {t : SymbolTable} {code : Code} {i : Instruction}
    (h : code.lookup t = .ok i) : code.IsAddress ↔ i.IsAddress := by
  match code with
  | .address (.literal value) =>
    obtain rfl := Except.ok.inj h
    exact iff_of_true ⟨_, rfl⟩ ⟨_, rfl⟩
  | .address (.symbol name) =>
    obtain ⟨symbol, -, -, rfl⟩ := exists_of_lookup_symbol h
    exact iff_of_true ⟨_, rfl⟩ ⟨_, rfl⟩
  | .compute dest comp jump =>
    obtain rfl := Except.ok.inj h
    simp [IsAddress, Instruction.IsAddress]

namespace Instruction

variable {i : Instruction}

/-- The high bits of a word tell the class of its instruction: the first one is clear for an address
instruction, and the first three are set for any other. -/
theorem Encodable.high_bits (h : i.Encodable) :
    i.IsAddress ∧ i.encode.getMsbD 0 = false ∨
      ¬ i.IsAddress ∧ ∀ k < 3, i.encode.getMsbD k = true := by
  cases i with
  | address value => exact .inl ⟨⟨value, rfl⟩, Word.msb_eq_false_iff.mpr h⟩
  | compute dest comp jump =>
    exact .inr ⟨by simp [IsAddress], fun k hk => getMsbD_encode_compute h comp jump hk⟩

theorem Encodable.zero_prefix_iff (h : i.Encodable) :
    ['0'] <+: i.encode.binary.toList ↔ i.IsAddress := by
  rw [Word.zero_prefix_iff]
  rcases h.high_bits with ⟨haddress, hbit⟩ | ⟨hcompute, hbits⟩
  · simp [haddress, hbit]
  · simp [hcompute, hbits 0 (by omega)]

theorem Encodable.ones_prefix_iff (h : i.Encodable) :
    ['1', '1', '1'] <+: i.encode.binary.toList ↔ ¬ i.IsAddress := by
  rw [Word.ones_prefix_iff]
  rcases h.high_bits with ⟨haddress, hbit⟩ | ⟨hcompute, hbits⟩
  · simp [haddress, hbit]
  · simp [hcompute, hbits]

end Instruction

/-! ## Instructions that the passes build -/

/-- What is written and can be looked up keeps to its own bits. -/
theorem Statement.Written.encodable {code : Code} {token : String}
    (h : Written (.code code) token) {t : SymbolTable} {i : Instruction}
    (hi : code.lookup t = .ok i) : i.Encodable := by
  match code with
  | .address (.literal value) =>
    obtain rfl := Except.ok.inj hi
    cases h with
    | address hoperand =>
      cases hoperand with
      | literal hne hdigits hvalue hle => exact hle
  | .address (.symbol name) =>
    obtain ⟨symbol, -, hle, rfl⟩ := Code.exists_of_lookup_symbol hi
    exact hle
  | .compute dest comp jump =>
    obtain rfl := Except.ok.inj hi
    exact h.other_eq

/-- If a computation succeeds on a whole list, its results are the ones that are kept. -/
theorem map_eq_map_ok {ε α β : Type} {f : α → Except ε β} {l : List α}
    (h : ∀ a ∈ l, ∃ b, f a = .ok b) : l.map f = (l.filterMap fun a => (f a).toOption).map .ok := by
  induction l with
  | nil => rfl
  | cons a l ih =>
    rw [List.forall_mem_cons] at h
    obtain ⟨⟨b, hb⟩, hl⟩ := h
    simp [hb, ih hl, Except.toOption]

/-- The instructions of an assembly are what its code stands for in its table. -/
theorem Program.map_lookup_of_link {p : Program} {a : Assembly} (h : p.link = .ok a) :
    a.code.map (fun c => c.item.lookup a.symbols) = a.instructions.map .ok := by
  rw [link_eq] at h
  split at h
  · rename_i hfaults
    obtain rfl := Except.ok.inj h
    refine map_eq_map_ok fun c hc => ?_
    exact Code.fault?_eq_none_iff.mp (List.filterMap_eq_nil_iff.mp hfaults c hc)
  · cases h

/-- What the instructions of an assembly are made of. -/
structure Assembly.Built (a : Assembly) : Prop where
  /-- The code can be written. -/
  written : ∀ c ∈ a.code, ∃ token, Statement.Written (.code c.item) token
  /-- Each instruction is what its code stands for. -/
  map_lookup : a.code.map (fun c => c.item.lookup a.symbols) = a.instructions.map .ok

theorem Assembly.built_of_assembleLines {lines : List String} {a : Assembly}
    (h : assembleLines lines = .ok a) : a.Built := by
  refine ⟨?_, ?_⟩
  · rw [(holds_of_assembleLines h).code_eq]
    exact fun c => Source.exists_written
  · rw [assembleLines_eq] at h
    obtain ⟨p, -, hlink⟩ := bind_eq_ok_iff.mp h
    exact Program.map_lookup_of_link hlink

namespace Assembly.Built

variable {a : Assembly}

theorem exists_code (h : a.Built) {k : Nat} {i : Instruction} (hi : a.instructions[k]? = some i) :
    ∃ c, a.code[k]? = some c ∧ c.item.lookup a.symbols = .ok i := by
  have hk := congrArg (·[k]?) h.map_lookup
  simpa [hi] using hk

theorem encodable (h : a.Built) {i : Instruction} (hi : i ∈ a.instructions) : i.Encodable := by
  obtain ⟨k, hk⟩ := List.mem_iff_getElem?.mp hi
  obtain ⟨c, hc, hlookup⟩ := h.exists_code hk
  obtain ⟨token, htoken⟩ := h.written c (List.mem_of_getElem? hc)
  exact htoken.encodable hlookup

/-- Decoding the words of an assembly gives its instructions back. -/
theorem map_decode?_words (h : a.Built) :
    a.words.map Instruction.decode? = a.instructions.map some :=
  Instruction.map_decode?_eq_iff.mpr ⟨fun _ => h.encodable, rfl⟩

theorem instructions_eq_of_binary_eq {b : Assembly} (ha : a.Built) (hb : b.Built)
    (h : a.binary = b.binary) : a.instructions = b.instructions := by
  have hrows : a.words.map Word.binary = b.words.map Word.binary := by
    rw [← lines_binary, h, lines_binary]
  have hwords : a.words = b.words :=
    List.map_injective_iff.mpr (fun _ _ => Word.binary_injective) hrows
  -- the same words decode to both lists
  have hdecoded := ha.map_decode?_words
  rw [hwords, hb.map_decode?_words] at hdecoded
  exact List.map_injective_iff.mpr (Option.some_injective _) hdecoded.symm

/-- A row of the binary is the word of the instruction with its number. -/
theorem exists_of_row (h : a.Built) {k : Nat} {row : String}
    (hrow : (Text.lines a.binary)[k]? = some row) :
    ∃ i c, a.words[k]? = some i.encode ∧ a.instructions[k]? = some i ∧ a.code[k]? = some c ∧
      row = i.encode.binary ∧ i.Encodable ∧ c.item.lookup a.symbols = .ok i := by
  rw [lines_binary, List.getElem?_map] at hrow
  obtain ⟨word, hword, rfl⟩ := Option.map_eq_some_iff.mp hrow
  have hinstruction := hword
  rw [words, List.getElem?_map] at hinstruction
  obtain ⟨i, hi, rfl⟩ := Option.map_eq_some_iff.mp hinstruction
  obtain ⟨c, hc, hlookup⟩ := h.exists_code hi
  exact ⟨i, c, hword, hi, hc, rfl, h.encodable (List.mem_of_getElem? hi), hlookup⟩

end Assembly.Built

/-! ## The binary -/

/-- The binary of an assembly is a row of sixteen digits for each instruction. A row is the word of
its instruction in base two, the word decodes to the instruction, and the first digits tell whether it
is an address instruction. So sources with the same binary have the same instructions. -/
theorem binary_of_assemble {source : String} {a : Assembly} (ha : assemble source = .ok a) :
    let rows := Text.lines a.binary
    a.binary = Text.ofRows rows ∧ rows.length = a.instructions.length ∧
    (∀ (k : Nat) row, rows[k]? = some row →
      row.length = 16 ∧ (∀ c ∈ row.toList, c = '0' ∨ c = '1') ∧
      ∃ word i code, a.words[k]? = some word ∧ a.instructions[k]? = some i ∧
        a.code[k]? = some code ∧
        Text.Numeral.ofText? 2 row.toList = some word.toNat ∧
        Instruction.decode? word = some i ∧
        (['0'] <+: row.toList ↔ code.item.IsAddress) ∧
        (['1', '1', '1'] <+: row.toList ↔ ¬ code.item.IsAddress)) ∧
    ∀ source' a', assemble source' = .ok a' → a'.binary = a.binary →
      a'.instructions = a.instructions := by
  have h : a.Built := Assembly.built_of_assembleLines ha
  intro rows
  have hrows : rows = a.words.map Word.binary := a.lines_binary
  refine ⟨?_, ?_, ?_, ?_⟩
  · rw [hrows]
    exact a.binary_eq_ofRows
  · rw [hrows, Assembly.words, List.length_map, List.length_map]
  · intro k row hrow
    obtain ⟨i, code, hword, hi, hcode, rfl, hencodable, hlookup⟩ := h.exists_of_row hrow
    have hclass : i.IsAddress ↔ code.item.IsAddress := (Code.isAddress_iff_of_lookup hlookup).symm
    exact ⟨Word.length_binary _, fun c => Word.eq_zero_or_one_of_mem_binary, i.encode, i, code,
      hword, hi, hcode, Word.ofText?_binary _, Instruction.decode?_encode hencodable,
      hencodable.zero_prefix_iff.trans hclass, hencodable.ones_prefix_iff.trans (not_congr hclass)⟩
  · intro source' a' ha' hbinary
    exact (Assembly.built_of_assembleLines ha').instructions_eq_of_binary_eq h hbinary

/-- A label and a variable are only words in the binary, so a source with their addresses in place of
the names has the same instructions. -/
theorem binary_of_assemble_names :
    ∃ a b, assemble "@END\nD=M\n@i\n(END)\n0;JMP" = .ok a ∧
      assemble "@3\nD=M\n@16\n0;JMP" = .ok b ∧
      a.binary = "0000000000000011\n1111110000010000\n0000000000010000\n1110101010000111\n" ∧
      b.instructions = a.instructions := by
  obtain ⟨a, ha, htext⟩ := exists_of_map_toOption
    (show (assemble "@END\nD=M\n@i\n(END)\n0;JMP").toOption.map Assembly.binary =
      some "0000000000000011\n1111110000010000\n0000000000010000\n1110101010000111\n" by
        decide +kernel)
  obtain ⟨b, hb, hsame⟩ := exists_of_map_toOption
    (show (assemble "@3\nD=M\n@16\n0;JMP").toOption.map Assembly.binary =
      some "0000000000000011\n1111110000010000\n0000000000010000\n1110101010000111\n" by
        decide +kernel)
  have hbinary : b.binary = a.binary := hsame.trans htext.symm
  exact ⟨a, b, ha, hb, htext, (binary_of_assemble ha).2.2.2 _ b hb hbinary⟩

end HackAssembler
