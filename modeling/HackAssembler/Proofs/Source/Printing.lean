-- SUMMARY: Instructions printed and read back: which printed forms the reader takes, and which it refuses.
import HackAssembler.Source.Line
import HackAssembler.Proofs.Machine.Letters
import HackAssembler.Proofs.Machine.Words
import HackAssembler.Proofs.Source.Grammar

/-!
# Printed instructions

An instruction is printed without the fields that are empty. The reader does without any
one of them, but a computation alone is no statement for it: it wants to see a destination
or a jump. So a compute instruction that neither stores nor jumps is printed as a text that
is refused, and every other instruction is read back as it was.
-/

namespace HackAssembler

/-! ## Lines without comments and blanks -/

namespace Line

/-- A character that a line keeps wherever it stands. -/
def isPlain (c : Char) : Bool :=
  c ≠ '/' && !Text.isBlank c

/-- A text without slashes and blanks. A line that consists of it says just this text. -/
def Plain (s : String) : Prop :=
  ∀ c ∈ s.toList, isPlain c = true

instance (s : String) : Decidable (Plain s) :=
  decidable_of_iff (s.toList.all isPlain = true) List.all_eq_true

theorem isPlain_iff {c : Char} : isPlain c = true ↔ c ≠ '/' ∧ Text.isBlank c = false := by
  simp [isPlain]

theorem plain_append_iff {s t : String} : Plain (s ++ t) ↔ Plain s ∧ Plain t := by
  simp only [Plain, String.toList_append, List.forall_mem_append]

theorem code_eq_self {line : List Char} (h : '/' ∉ line) : code line = line := by
  have hpair : ('/', '/') ∉ line.zip line.tail := fun hmem => h (List.of_mem_zip hmem).1
  have hnone : commentStart? line = none := List.idxOf?_eq_none_iff.mpr hpair
  simp only [code, hnone]

theorem Plain.not_mem {s : String} (h : Plain s) {c : Char} (hc : isPlain c = false) :
    c ∉ s.toList := by
  intro hmem
  rw [h c hmem] at hc
  cases hc

theorem normalize_of_plain {s : String} (h : Plain s) : normalize s = s := by
  have hslash : '/' ∉ s.toList := h.not_mem (by decide)
  have hkeep : s.toList.filter (!Text.isBlank ·) = s.toList :=
    List.filter_eq_self.mpr fun c hc => by rw [(isPlain_iff.mp (h c hc)).2]; rfl
  rw [normalize, code_eq_self hslash, hkeep, String.ofList_toList]

/-- Plain texts can be put below each other and found again. -/
theorem Plain.row {s : String} (h : Plain s) :
    '\n' ∉ s.toList ∧ s.toList.getLast? ≠ some '\r' :=
  ⟨h.not_mem (by decide), fun hlast => h.not_mem (by decide) (List.mem_of_getLast? hlast)⟩

end Line

/-! ## Statements are plain -/

theorem isBlank_eq_false {c : Char} (hlow : 0x20 < c.toNat) (hhigh : c.toNat < 0x85) :
    Text.isBlank c = false := by
  simp only [Text.isBlank, Text.blankRanges, List.any_cons, List.any_nil, Bool.or_eq_false_iff,
    Bool.and_eq_false_iff, decide_eq_false_iff_not, and_true]
  omega

theorem IsNameChar.isPlain {c : Char} (h : IsNameChar c) : Line.isPlain c = true := by
  have hnat : ∀ a b : Char, a ≤ b ↔ a.toNat ≤ b.toNat := fun _ _ => Iff.rfl
  -- the ranges of names lie between the slash and the first blank that is not ASCII
  have hrange : ∀ a b : Char, 0x2F < a.toNat → b.toNat < 0x85 → a ≤ c ∧ c ≤ b →
      Line.isPlain c = true := by
    intro a b ha hb hc
    rw [hnat, hnat] at hc
    refine Line.isPlain_iff.mpr ⟨?_, isBlank_eq_false (by omega) (by omega)⟩
    rintro rfl
    exact absurd hc.1 (Nat.not_le.mpr ha)
  rcases h with h | h | h | h
  · exact hrange 'A' 'Z' (by decide) (by decide) h
  · exact hrange 'a' 'z' (by decide) (by decide) h
  · exact hrange '0' '9' (by decide) (by decide) h
  · simp only [List.mem_cons, List.not_mem_nil, or_false] at h
    rcases h with rfl | rfl | rfl | rfl <;> decide

theorem IsName.plain {name : String} (h : IsName name) : Line.Plain name :=
  fun c hc => (h.nameChar c hc).isPlain

theorem Operand.Written.plain {operand : Operand} {text : String} (h : operand.Written text) :
    Line.Plain text := by
  cases h with
  | @literal digits value hne hdigits hvalue hle =>
    intro c hc
    rw [String.toList_ofList] at hc
    exact IsNameChar.isPlain (.inr (.inr (.inl (hdigits c hc))))
  | symbol hname => exact hname.plain

theorem Mnemonic.Formed.plain {s : String} (h : Formed s) : Line.Plain s := by
  have hall : alphabet.all Line.isPlain = true := by decide
  exact fun c hc => List.all_eq_true.mp hall c (h.mem_alphabet c hc)

/-- A line that consists of a written statement says just this statement. -/
theorem Statement.Written.plain {s : Statement} {token : String} (h : Written s token) :
    Line.Plain token := by
  have hequals : Line.Plain "=" := by decide
  have hsemicolon : Line.Plain ";" := by decide
  cases h with
  | label hname =>
    simp only [Line.plain_append_iff]
    exact ⟨⟨by decide, hname.plain⟩, by decide⟩
  | address hoperand =>
    rw [Line.plain_append_iff]
    exact ⟨by decide, hoperand.plain⟩
  | @compute dest comp jump text hdest =>
    simp only [Line.plain_append_iff]
    exact ⟨⟨⟨⟨(Mnemonic.formed_destination hdest).plain, hequals⟩,
      (Mnemonic.formed_computation comp).plain⟩, hsemicolon⟩, (Mnemonic.formed_jump jump).plain⟩
  | @store dest comp text hdest =>
    simp only [Line.plain_append_iff]
    exact ⟨⟨(Mnemonic.formed_destination hdest).plain, hequals⟩,
      (Mnemonic.formed_computation comp).plain⟩
  | @branch comp jump =>
    simp only [Line.plain_append_iff]
    exact ⟨⟨(Mnemonic.formed_computation comp).plain, hsemicolon⟩,
      (Mnemonic.formed_jump jump).plain⟩

/-! ## Operands -/

/-- An address is printed in one of the ways in which it may be written. -/
theorem Operand.written_toString {value : Word} (h : value ≤ Memory.maxAddress) :
    (literal value).Written (toString value.toNat) := by
  rw [Nat.toString_eq_ofList_toDigits]
  refine .literal Nat.toDigits_ne_nil ?_ ?_ h
  · exact fun c hc => isDigit_iff.mp (Nat.isDigit_of_mem_toDigits (by omega) (by omega) hc)
  · rw [← ofDigitChars_eq_decimalValue, Nat.ofDigitChars_ten_toDigits]

namespace Instruction

/-- An instruction as it is written without names. -/
def code : Instruction → Code
  | address value => .address (.literal value)
  | compute dest comp jump => .compute dest comp jump

theorem symbol?_code (i : Instruction) : i.code.symbol? = none := by
  cases i <;> rfl

/-- A compute instruction that neither stores nor jumps. -/
def IsBare : Instruction → Prop
  | address _ => False
  | compute dest _ jump => dest = .empty ∧ jump = .never

instance : DecidablePred IsBare
  | address _ => inferInstanceAs (Decidable False)
  | compute dest _ jump => inferInstanceAs (Decidable (dest = .empty ∧ jump = .never))

/-! ## Shapes of printed instructions -/

section Text

variable {dest : Destination} {comp : Computation} {jump : Jump}

theorem text_address (value : Word) : (address value).text = "@" ++ toString value.toNat := by
  simp [text, toString]

theorem text_full (hdest : dest ≠ .empty) (hjump : jump ≠ .never) :
    (compute dest comp jump).text = dest.text ++ "=" ++ comp.text ++ ";" ++ jump.text := by
  simp [text, Destination.isEmpty, hdest, hjump, String.append_assoc]

theorem text_store (hdest : dest ≠ .empty) :
    (compute dest comp .never).text = dest.text ++ "=" ++ comp.text := by
  simp [text, Destination.isEmpty, hdest]

theorem text_branch (hjump : jump ≠ .never) :
    (compute .empty comp jump).text = comp.text ++ ";" ++ jump.text := by
  simp [text, Destination.isEmpty, hjump, String.append_assoc]

theorem text_bare : (compute .empty comp .never).text = comp.text := by
  simp [text, Destination.isEmpty]

theorem text_ne_empty (i : Instruction) : i.text ≠ "" := by
  cases i with
  | address value => simp [text_address]
  | compute dest comp jump => simp [text, (Mnemonic.formed_computation comp).ne_empty]

end Text

/-! ## Reading -/

/-- An instruction is printed as a statement unless it is bare. -/
theorem written_text {i : Instruction} (h : i.Encodable) (hbare : ¬ i.IsBare) :
    Statement.Written (.code i.code) i.text := by
  cases i with
  | address value =>
    rw [text_address]
    exact .address (Operand.written_toString h)
  | compute dest comp jump =>
    have hdest : dest.Written dest.text := Destination.written_text h
    -- a field is left out if it is empty, and not both are
    by_cases hjump : jump = .never
    · subst hjump
      have hstores : dest ≠ .empty := fun hempty => hbare ⟨hempty, rfl⟩
      rw [text_store hstores]
      exact .store hdest
    · by_cases hempty : dest = .empty
      · subst hempty
        rw [text_branch hjump]
        exact .branch
      · rw [text_full hempty hjump]
        exact .compute hdest

theorem IsBare.text_eq {i : Instruction} (h : i.IsBare) :
    ∃ comp : Computation, i.text = comp.text := by
  cases i with
  | address value => cases h
  | compute dest comp jump =>
    obtain ⟨rfl, rfl⟩ := h
    exact ⟨comp, text_bare⟩

/-- A bare instruction is printed as its computation, which the reader does not take for one. -/
theorem IsBare.parse_text {i : Instruction} (h : i.IsBare) :
    Statement.parse i.text = .error (.malformedCompute i.text) := by
  obtain ⟨comp, htext⟩ := h.text_eq
  have hformed := Mnemonic.formed_computation comp
  have hkind : TokenKind.of (comp.text ++ "") = .compute := TokenKind.of_formed hformed ""
  rw [String.append_empty] at hkind
  rw [htext]
  simp only [Statement.parse, hkind, Code.parseCompute,
    ComputeText.split_of_unbroken hformed.piece.toUnbroken]
  rfl

/-- What the reader says to a printed instruction. -/
theorem parse_text {i : Instruction} (h : i.Encodable) :
    Statement.parse i.text =
      if i.IsBare then .error (.malformedCompute i.text) else .ok (.code i.code) := by
  by_cases hbare : i.IsBare
  · rw [if_pos hbare, hbare.parse_text]
  · rw [if_neg hbare, (written_text h hbare).parse_eq_ok]

theorem plain_text {i : Instruction} (h : i.Encodable) : Line.Plain i.text := by
  by_cases hbare : i.IsBare
  · obtain ⟨comp, htext⟩ := hbare.text_eq
    rw [htext]
    exact (Mnemonic.formed_computation comp).plain
  · exact (written_text h hbare).plain

end Instruction

end HackAssembler
