-- SUMMARY: The binary, the final table and the listing of an assembly tell the same.
import HackAssembler.Proofs.Assembly.Faults
import HackAssembler.Proofs.Assembly.Relinking
import HackAssembler.Proofs.Report.Rows
import HackAssembler.Proofs.Report.Texts

/-!
# The listing of an assembly

The listing is printed from the source once more: names are looked up in the table at the end,
and labels are recognised by their parentheses only. On a source that has been assembled this
comes to the same as the passes: each name is shown with the address that is in the binary, and
each label with the number of instructions that are listed above it.
-/

namespace HackAssembler

open Source

/-! ## Instructions -/

/-- An instruction in colour, with the value of a word for the address of its name. -/
def Code.resolvedText (word : Word) : Code → String
  | .address (.literal _) => Style.red.paint "@" ++ Style.yellow.paint (toString word.toNat)
  | .address (.symbol name) => Style.red.paint "@" ++ Style.green.paint s!"{word.toNat}({name})"
  | .compute dest comp jump => (Instruction.compute dest comp jump).coloured

theorem Code.coloured_of_lookup {t : SymbolTable} {code : Code} {i : Instruction}
    (h : code.lookup t = .ok i) : code.coloured t = code.resolvedText i.encode := by
  match code with
  | .address (.literal value) =>
    obtain rfl := Except.ok.inj h
    rfl
  | .address (.symbol name) =>
    obtain ⟨symbol, hfind, -, rfl⟩ := exists_of_lookup_symbol h
    have haddress : t.address? name = some symbol.address := by
      rw [SymbolTable.address?, hfind, Option.map_some]
    simp only [coloured, Operand.coloured, haddress, resolvedText, Instruction.encode]
  | .compute dest comp jump => rfl

/-- The address that an instruction loads can be read off its text. -/
theorem Code.shows_resolvedText (word : Word) (operand : Operand) :
    Text.Shows ((address operand).resolvedText word) (toString word.toNat) := by
  match operand with
  | .literal value => exact (Style.shows_paint _ _).append_left _
  | .symbol name =>
    have hname : Text.Shows s!"{word.toNat}({name})" (toString word.toNat) :=
      (((Text.shows_self _).append_right _).append_right _).append_right _
    exact ((hname.append_left _).append_right _).append_left _

/-- A name that is found is not shown like one that is not. -/
theorem Code.coloured_ne_of_free {t free : SymbolTable} {name : String} {i : Instruction}
    (h : (address (.symbol name)).lookup t = .ok i) (hfree : free.address? name = none) :
    (address (.symbol name)).coloured t ≠ (address (.symbol name)).coloured free := by
  rw [coloured_of_lookup h]
  simp only [coloured, Operand.coloured, hfree, resolvedText, Ne, String.append_right_inj]
  -- the sign in front is the same in both, and then the colours differ
  simp only [Style.paint, Style.paintBoth, String.append_assoc]
  exact Style.green_append_ne_red_append _ _

/-! ## Labels -/

/-- The start of a row without an instruction. -/
def Row.margin (line : Nat) : String :=
  Text.repeated 25 " " ++ s!"| {Text.alignRight 4 (toString (line + 1))}: "

/-- A label with its address, as a row shows it. -/
def Row.definedLabel (name : String) (address : Nat) : String :=
  Style.green.paint s!"({name})" ++ " " ++ Style.dim.paint s!"= {address}" ++ " "

theorem Row.shows_definedLabel (name : String) (address : Nat) :
    Text.Shows (Row.definedLabel name address) s!"= {address}" :=
  ((Style.shows_paint _ _).append_left _).append_right _

/-- A label that is found is not shown like one that is not. -/
theorem Row.definedLabel_ne_label {r : Row} {free : SymbolTable} {name : String}
    (hname : enclosed? (Line.normalize r.raw) = some name) (hfree : free.address? name = none)
    (address : Nat) : Row.definedLabel name address ≠ r.label free := by
  simp only [label, hname, hfree, definedLabel, Style.paint, Style.paintBoth, String.append_assoc]
  exact Style.green_append_ne_red_append _ _

/-- The start of a row with an instruction. -/
def Row.lead (line : Nat) (item : Item) : String :=
  let number := Text.alignRight 4 (toString (line + 1))
  s!"[{Text.hexadecimal 4 item.counter}] {item.instruction.encode.binary} | {number}:   "

/-- A text that shows the number of an instruction in hexadecimal digits, and behind it the digits of
its word. -/
def Item.ShownIn (item : Item) (text : String) : Prop :=
  ∃ digits, Text.Numeral.ofText? 16 digits.toList = some item.counter ∧
    Text.Shows text ("[" ++ digits ++ "] " ++ item.instruction.encode.binary ++ " | ")

theorem Item.shownIn_row (item : Item) (line : Nat) (shown comment : String) :
    item.ShownIn (Row.lead line item ++ shown ++ " " ++ comment) := by
  rw [String.append_assoc, String.append_assoc]
  exact ⟨_, Text.Numeral.ofText?_hexadecimal 4 item.counter,
    (((Text.shows_self _).append_right _).append_right _).append_right _⟩

theorem Row.text_of_item_eq_none {r : Row} (h : r.item = none) (t : SymbolTable) :
    r.text t = Row.margin r.line ++ r.label t ++ r.comment := by
  simp only [text, h, margin]

theorem Row.text_of_item_eq_some {r : Row} {item : Item} (h : r.item = some item)
    (t : SymbolTable) :
    r.text t = Row.lead r.line item ++ item.code.item.coloured t ++ " " ++ r.comment := by
  simp only [text, h, lead]

/-- On a readable line, the label is what stands between the parentheses of its token. -/
theorem Source.enclosed?_eq_label? {lines : List String} (h : WellLabelled lines) {i : Nat}
    {raw : String} (hraw : lines[i]? = some raw) :
    enclosed? (Line.normalize raw) = label? lines i := by
  cases hlabel : label? lines i with
  | some name =>
    obtain ⟨line, hline, -, hparse⟩ := statement?_eq_some_iff.mp (label?_eq_some_iff.mp hlabel)
    obtain rfl : raw = line := Option.some.inj (hraw.symm.trans hline)
    have htoken : Line.normalize raw = "(" ++ name ++ ")" := by
      generalize Line.normalize raw = token at hparse
      cases Statement.parse_eq_ok_iff.mp hparse
      rfl
    exact enclosed?_eq_some_iff.mpr htoken
  | none =>
    cases henclosed : enclosed? (Line.normalize raw) with
    | none => rfl
    | some name =>
      -- a token that starts with a parenthesis can be read as nothing else but a label
      have htoken : Line.normalize raw = "(" ++ (name ++ ")") :=
        (enclosed?_eq_some_iff.mp henclosed).trans (String.append_assoc ..)
      have hne : Line.normalize raw ≠ "" := by
        rw [htoken]
        intro hempty
        simpa using congrArg String.length hempty
      obtain ⟨statement, hparse⟩ := h.readable raw (List.mem_of_getElem? hraw) hne
      have hkind : TokenKind.of (Line.normalize raw) = .label := by
        rw [htoken]
        exact TokenKind.of_paren _
      have hlabelled := hparse
      simp only [Statement.parse, hkind] at hlabelled
      obtain ⟨name', -, hstatement⟩ := bind_eq_ok_iff.mp hlabelled
      obtain rfl := Except.ok.inj hstatement
      have hsome : label? lines i = some name' :=
        label?_eq_some_iff.mpr (statement?_eq_some_iff.mpr ⟨raw, hraw, hne, hparse⟩)
      rw [hsome] at hlabel
      cases hlabel

namespace Assembly.Holds

variable {lines : List String} {a : Assembly}

theorem find?_of_label (h : a.Holds lines) {i : Nat} {name : String}
    (hlabel : label? lines i = some name) :
    a.symbols.find? name = some ⟨BitVec.ofNat 16 (position lines i), .label i⟩ := by
  rw [SymbolTable.find?_eq_some_iff h.invariant.nodup_names, h.entries_eq]
  apply List.mem_append_left
  apply List.mem_append_right
  exact List.mem_map_of_mem (f := labelEntry lines) (mem_labels (l := ⟨i, name⟩).mpr hlabel)

theorem label_row (h : a.Holds lines) {r : Row} (hraw : lines[r.line]? = some r.raw) :
    r.label a.symbols =
      match label? lines r.line with
      | some name => Row.definedLabel name (position lines r.line)
      | none => "" := by
  rw [Row.label, enclosed?_eq_label? h.wellFormed.toWellLabelled hraw]
  cases hlabel : label? lines r.line with
  | none => rfl
  | some name =>
    have hposition := h.wellFormed.label_fits r.line name hlabel
    have haddress : a.symbols.address? name = some (BitVec.ofNat 16 (position lines r.line)) := by
      rw [SymbolTable.address?, h.find?_of_label hlabel, Option.map_some]
    simp only [haddress, Memory.toNat_ofNat hposition, Row.definedLabel]

/-! ## Rows -/

theorem pairwise_code (h : a.Holds lines) : a.code.Pairwise fun c d => c.line < d.line := by
  rw [h.code_eq]
  exact pairwise_before _ _

theorem mem_code (h : a.Holds lines) {c : Located Code} :
    c ∈ a.code ↔ instruction? lines c.line = some c.item := by
  rw [h.code_eq, Source.instructions, mem_before]
  constructor
  · rintro ⟨i, -, hi⟩
    obtain ⟨code, hcode, rfl⟩ := Option.map_eq_some_iff.mp hi
    exact hcode
  · intro hcode
    refine ⟨c.line, ?_, by rw [hcode]; rfl⟩
    obtain ⟨line, hline, -⟩ := statement?_eq_some_iff.mp (instruction?_eq_some_iff.mp hcode)
    exact (List.getElem?_eq_some_iff.mp hline).1

end Assembly.Holds

/-- What is known of an assembly: what it is made of, and which source it comes from. -/
structure Assembly.OfLines (lines : List String) (a : Assembly) : Prop where
  holds : a.Holds lines
  built : a.Built

namespace Assembly.OfLines

variable {lines : List String} {a : Assembly}

theorem rising_items (h : a.OfLines lines) : Listing.Rising a.items :=
  Assembly.rising_items h.built.length_code h.holds.pairwise_code

/-- A row shows an instruction exactly if its line holds one. -/
theorem isSome_item (h : a.OfLines lines) (source : String × Nat) :
    (Listing.rowAt a.items source).item.isSome = (instruction? lines source.2).isSome := by
  rw [Bool.eq_iff_iff, Option.isSome_iff_exists, Option.isSome_iff_exists]
  simp only [Listing.rowAt, h.rising_items.find?_eq_some_iff]
  constructor
  · rintro ⟨item, hitem, hline⟩
    have hcode := List.mem_of_getElem? (mem_items.mp hitem).1
    exact ⟨item.code.item, hline ▸ h.holds.mem_code.mp hcode⟩
  · rintro ⟨code, hcode⟩
    have hmem : ⟨source.2, code⟩ ∈ a.items.map Item.code := by
      rw [map_code_items h.built.length_code]
      exact h.holds.mem_code.mpr hcode
    obtain ⟨item, hitem, heq⟩ := List.mem_map.mp hmem
    exact ⟨item, hitem, congrArg Located.line heq⟩

theorem getElem?_rows (h : a.OfLines lines) (i : Nat) :
    (Listing.rowsOf lines a)[i]? = lines[i]?.map fun raw => Listing.rowAt a.items (raw, i) :=
  Listing.getElem?_rowsOf h.rising_items lines i

/-- The instructions that are listed above a row are those in front of its line. -/
theorem countP_rows (h : a.OfLines lines) {i : Nat} (hi : i ≤ lines.length) :
    ((Listing.rowsOf lines a).take i).countP (fun r => r.item.isSome) = position lines i := by
  -- a row more counts one more exactly if its line is an instruction, as the position does
  induction i with
  | zero => rfl
  | succ i ih =>
    have hline : lines[i]? = some lines[i] := List.getElem?_eq_getElem hi
    rw [List.take_add_one, List.countP_append, ih (Nat.le_of_succ_le hi), h.getElem?_rows, hline,
      position, position, before_succ, List.length_append]
    congr 1
    have hitem := h.isSome_item (lines[i], i)
    cases hcode : instruction? lines i with
    | none => simp [hitem, hcode]
    | some code => simp [hitem, hcode]

/-- A row without an instruction shows the label of its line, if there is one, with its address. -/
theorem text_row (h : a.OfLines lines) {i : Nat} {r : Row}
    (hr : (Listing.rowsOf lines a)[i]? = some r) (hitem : r.item = none) :
    r.text a.symbols =
      Row.margin i ++
        (match label? lines i with
          | some name => Row.definedLabel name (position lines i)
          | none => "") ++
        r.comment := by
  rw [h.getElem?_rows] at hr
  obtain ⟨raw, hraw, rfl⟩ := Option.map_eq_some_iff.mp hr
  rw [Row.text_of_item_eq_none hitem, h.holds.label_row (r := Listing.rowAt a.items (raw, i)) hraw]
  rfl

theorem enclosed?_row (h : a.OfLines lines) {i : Nat} {r : Row}
    (hr : (Listing.rowsOf lines a)[i]? = some r) :
    enclosed? (Line.normalize r.raw) = label? lines i := by
  rw [h.getElem?_rows] at hr
  obtain ⟨raw, hraw, rfl⟩ := Option.map_eq_some_iff.mp hr
  exact enclosed?_eq_label? h.holds.wellFormed.toWellLabelled hraw

theorem item_eq_none_of_label (h : a.OfLines lines) {i : Nat} {r : Row} {name : String}
    (hr : (Listing.rowsOf lines a)[i]? = some r) (hlabel : label? lines i = some name) :
    r.item = none := by
  rw [h.getElem?_rows] at hr
  obtain ⟨raw, -, rfl⟩ := Option.map_eq_some_iff.mp hr
  rw [← Option.not_isSome_iff_eq_none, h.isSome_item]
  simp [instruction?, label?_eq_some_iff.mp hlabel]

/-- A row with a label shows the number of instruction rows above it, and so it is not the row of a
label that is not defined. -/
theorem text_row_of_label (h : a.OfLines lines) {i : Nat} {r : Row} {name : String}
    (hr : (Listing.rowsOf lines a)[i]? = some r) (hlabel : label? lines i = some name) :
    let above := ((Listing.rowsOf lines a).take i).countP fun above => above.item.isSome
    r.text a.symbols = Row.margin i ++ Row.definedLabel name above ++ r.comment ∧
      Text.Shows (r.text a.symbols) s!"= {above}" ∧
      ∀ free : SymbolTable, free.address? name = none → r.text a.symbols ≠ r.text free := by
  intro above
  have hitem : r.item = none := h.item_eq_none_of_label hr hlabel
  have hi : i ≤ lines.length := Nat.le_of_lt (lt_length_of_label? hlabel)
  have htext : r.text a.symbols = Row.margin i ++ Row.definedLabel name above ++ r.comment := by
    rw [h.text_row hr hitem, hlabel, ← h.countP_rows hi]
  have hline : r.line = i := by
    rw [h.getElem?_rows] at hr
    obtain ⟨raw, -, rfl⟩ := Option.map_eq_some_iff.mp hr
    rfl
  refine ⟨htext, ?_, fun free hfree => ?_⟩
  · rw [htext]
    exact ((Row.shows_definedLabel name above).append_left _).append_right _
  · -- the margin and the comment are the same on any table, so the labels differ
    rw [htext, Row.text_of_item_eq_none hitem, hline, Ne, String.append_left_inj,
      String.append_right_inj]
    exact Row.definedLabel_ne_label ((h.enclosed?_row hr).trans hlabel) hfree above

/-- A row with an instruction shows the value of its word for the address of its name. -/
theorem text_row_of_item (h : a.OfLines lines) {i : Nat} {r : Row} {item : Item}
    (hr : (Listing.rowsOf lines a)[i]? = some r) (hitem : r.item = some item) :
    r.text a.symbols =
      Row.lead i item ++ item.code.item.resolvedText item.instruction.encode ++ " " ++ r.comment := by
  rw [h.getElem?_rows] at hr
  obtain ⟨raw, -, rfl⟩ := Option.map_eq_some_iff.mp hr
  obtain ⟨hcode, hinstruction⟩ := mem_items.mp (List.mem_of_find?_eq_some hitem)
  obtain ⟨c, hc, hlookup⟩ := h.built.exists_code hinstruction
  obtain rfl : item.code = c := Option.some.inj (hcode.symm.trans hc)
  rw [Row.text_of_item_eq_some hitem, Code.coloured_of_lookup hlookup]
  rfl

end Assembly.OfLines

theorem Assembly.ofLines_of_assembleLines {lines : List String} {a : Assembly}
    (h : assembleLines lines = .ok a) : a.OfLines lines :=
  ⟨holds_of_assembleLines h, built_of_assembleLines h⟩

/-! ## Agreement -/

/-- For every source that assembles: on the table at the end, each piece of code resolves to its
instruction in the binary and leaves the table as it is, so linking once more gives the same
assembly; names are shown in colour with the value of their words; and the listing shows each label with
the number of instruction rows above it. No name and no label is ever shown as undefined: its text
would be another one on any table without it. -/
theorem listing_of_assemble {source : String} {a : Assembly} (ha : assemble source = .ok a) :
    let lines := Text.lines source
    let rows := Listing.rowsOf lines a
    a.code.length = a.instructions.length ∧
    (∀ (k : Nat) c, a.code[k]? = some c →
      ∃ i, a.instructions[k]? = some i ∧ a.words[k]? = some i.encode ∧
        c.item.resolve a.symbols = { result := .ok i, symbols := a.symbols } ∧
        c.item.coloured a.symbols = c.item.resolvedText i.encode ∧
        (c.item.IsAddress → Text.Shows (c.item.coloured a.symbols) (toString i.encode.toNat)) ∧
        ∀ name, c.item = .address (.symbol name) → ∀ free : SymbolTable, free.address? name = none →
          c.item.coloured a.symbols ≠ c.item.coloured free) ∧
    Program.link ⟨a.code, a.symbols⟩ = .ok a ∧
    rows.length = lines.length ∧
    ∀ (i : Nat) r, rows[i]? = some r →
      (∀ name, label? lines i = some name →
        let above := (rows.take i).countP fun above => above.item.isSome
        r.text a.symbols = Row.margin i ++ Row.definedLabel name above ++ r.comment ∧
          Text.Shows (r.text a.symbols) s!"= {above}" ∧
          ∀ free : SymbolTable, free.address? name = none → r.text a.symbols ≠ r.text free) ∧
      (label? lines i = none → r.item = none → r.text a.symbols = Row.margin i ++ r.comment) ∧
      ∀ item, r.item = some item →
        r.text a.symbols =
          Row.lead i item ++ item.code.item.resolvedText item.instruction.encode ++ " " ++
            r.comment ∧
          item.ShownIn (r.text a.symbols) ∧
          (item.code.item.IsAddress →
            Text.Shows (r.text a.symbols) (toString item.instruction.encode.toNat)) := by
  have h : a.OfLines (Text.lines source) := Assembly.ofLines_of_assembleLines ha
  intro lines rows
  have hlength : rows.length = lines.length := Listing.length_rowsOf h.rising_items lines
  refine ⟨h.built.length_code, ?_, h.built.link_eq_ok, hlength, ?_⟩
  · intro k c hc
    obtain ⟨i, hi, hlookup⟩ := h.built.exists_instruction hc
    have hword : a.words[k]? = some i.encode := by rw [Assembly.words, List.getElem?_map, hi]; rfl
    have hcoloured := Code.coloured_of_lookup hlookup
    refine ⟨i, hi, hword, Code.resolve_of_lookup hlookup, hcoloured, ?_, ?_⟩
    · rintro ⟨operand, hoperand⟩
      rw [hcoloured, hoperand]
      exact Code.shows_resolvedText _ operand
    · intro name hname free hfree
      rw [hname] at hlookup ⊢
      exact Code.coloured_ne_of_free hlookup hfree
  · intro i r hr
    refine ⟨fun name => h.text_row_of_label hr, ?_, ?_⟩
    · intro hlabel hitem
      rw [h.text_row hr hitem, hlabel, String.append_empty]
    · intro item hitem
      have htext := h.text_row_of_item hr hitem
      refine ⟨htext, ?_, ?_⟩
      · rw [htext]
        exact item.shownIn_row i _ r.comment
      · rintro ⟨operand, hoperand⟩
        rw [htext, hoperand]
        exact (((Code.shows_resolvedText _ operand).append_left _).append_right _).append_right _

/-- Here a name is referenced in front of its label, and a variable stands on the row above the label. -/
theorem listing_of_assemble_forward :
    ∃ a, assemble "@END\n0;JMP\n\n@i\n( END ) // stop" = .ok a ∧
      Program.link ⟨a.code, a.symbols⟩ = .ok a ∧
      ∃ r, (Listing.rowsOf ["@END", "0;JMP", "", "@i", "( END ) // stop"] a)[4]? = some r ∧
        r.text a.symbols = Row.margin 4 ++ Row.definedLabel "END" 3 ++ r.comment ∧
        Text.Shows (r.text a.symbols) "= 3" ∧ r.text a.symbols ≠ r.text .initial := by
  have hlines : Text.lines "@END\n0;JMP\n\n@i\n( END ) // stop" =
      ["@END", "0;JMP", "", "@i", "( END ) // stop"] := by
    decide +kernel
  have hlabel : label? ["@END", "0;JMP", "", "@i", "( END ) // stop"] 4 = some "END" := by
    decide +kernel
  obtain ⟨a, ha, hcount⟩ := exists_of_map_toOption
    (show (assemble "@END\n0;JMP\n\n@i\n( END ) // stop").toOption.map (fun a =>
        ((Listing.rowsOf ["@END", "0;JMP", "", "@i", "( END ) // stop"] a).take 4).countP
          fun above => above.item.isSome) = some 3 by
      decide +kernel)
  obtain ⟨-, -, hlink, hlength, htext⟩ := listing_of_assemble ha
  rw [hlines] at hlength htext
  obtain ⟨r, hr⟩ : ∃ r, (Listing.rowsOf ["@END", "0;JMP", "", "@i", "( END ) // stop"] a)[4]? = some r :=
    ⟨_, List.getElem?_eq_getElem (by rw [hlength]; decide)⟩
  obtain ⟨hshown, hnumber, hdefined⟩ := (htext 4 r hr).1 "END" hlabel
  rw [hcount] at hshown hnumber
  exact ⟨a, ha, hlink, r, hr, hshown, hnumber, hdefined .initial (by decide)⟩

end HackAssembler
