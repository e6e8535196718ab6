-- SUMMARY: The grammar of statements, and that reading accepts exactly what it describes.
import Mathlib.Data.Nat.Digits.Defs
import HackAssembler.Proofs.Machine.Mnemonics
import HackAssembler.Proofs.Source.Fields

/-!
# The grammar of statements

Here the grammar says how each statement may be written, with no regard to how it is read. A
token is accepted exactly if it is one of the ways to write a statement, and the statement
is then the one that comes out, so no token can be taken in two ways.
-/

namespace HackAssembler

/-! ## Names and numbers -/

/-- A decimal digit. -/
def IsDigit (c : Char) : Prop :=
  '0' ≤ c ∧ c ≤ '9'

/-- A character of names. -/
def IsNameChar (c : Char) : Prop :=
  'A' ≤ c ∧ c ≤ 'Z' ∨ 'a' ≤ c ∧ c ≤ 'z' ∨ IsDigit c ∨ c ∈ ['_', '.', '$', ':']

/-- A text that may name a place: characters of names, of which the first is not a digit. -/
structure IsName (s : String) : Prop where
  ne_empty : s ≠ ""
  nameChar : ∀ c ∈ s.toList, IsNameChar c
  head_not_digit : ∀ c, s.toList.head? = some c → ¬ IsDigit c

/-- The number that a row of digits stands for. -/
def decimalValue (digits : List Char) : Nat :=
  Nat.ofDigits 10 (digits.reverse.map fun c => c.toNat - '0'.toNat)

theorem isDigit_iff {c : Char} : c.isDigit = true ↔ IsDigit c := by
  simp [Char.isDigit, IsDigit, Char.le_def]

theorem isSymbolChar_iff {c : Char} : isSymbolChar c = true ↔ IsNameChar c := by
  have hupper : c.isUpper = true ↔ 'A' ≤ c ∧ c ≤ 'Z' := decide_eq_true_iff
  have hlower : c.isLower = true ↔ 'a' ≤ c ∧ c ≤ 'z' := by
    rw [← decide_eq_true_iff (p := 'a' ≤ c), ← decide_eq_true_iff (p := c ≤ 'z'),
      ← Bool.and_eq_true]
    rfl
  have halphanum : c.isAlphanum = (c.isUpper || c.isLower || c.isDigit) := rfl
  simp [isSymbolChar, IsNameChar, halphanum, hupper, hlower, isDigit_iff, or_assoc]

theorem isSymbol_iff {s : String} : isSymbol s = true ↔ IsName s := by
  unfold isSymbol
  split
  · rename_i hs
    have hempty : s = "" := String.toList_eq_nil_iff.mp hs
    exact iff_of_false Bool.false_ne_true fun h => h.ne_empty hempty
  · rename_i c cs hs
    have hne : s ≠ "" := by
      rintro rfl
      cases hs
    rw [← hs, Bool.and_eq_true, Bool.not_eq_true', ← Bool.not_eq_true, isDigit_iff,
      List.all_eq_true]
    constructor
    · rintro ⟨hhead, hall⟩
      refine ⟨hne, fun d hd => isSymbolChar_iff.mp (hall d hd), fun d hd => ?_⟩
      obtain rfl : c = d := by simpa [hs] using hd
      exact hhead
    · intro h
      exact ⟨h.head_not_digit c (by simp [hs]), fun d hd => isSymbolChar_iff.mpr (h.nameChar d hd)⟩

theorem isName_of_mem_predefined {name : String} (h : name ∈ Memory.predefined.map Prod.fst) :
    IsName name := by
  have hall : ∀ name ∈ Memory.predefined.map Prod.fst, isSymbol name = true := by decide
  exact isSymbol_iff.mp (hall name h)

theorem IsName.not_all_digits {s : String} (h : IsName s) : s.toList.all Char.isDigit = false := by
  cases hs : s.toList with
  | nil => exact absurd (String.toList_eq_nil_iff.mp hs) h.ne_empty
  | cons c cs =>
    have hhead : c.isDigit = false := by
      rw [← Bool.not_eq_true, isDigit_iff]
      exact h.head_not_digit c (by simp [hs])
    rw [List.all_cons, hhead, Bool.false_and]

theorem ofDigitChars_eq_decimalValue (digits : List Char) :
    Nat.ofDigitChars 10 digits 0 = decimalValue digits := by
  induction digits using List.reverseRecOn with
  | nil => rfl
  | append_singleton digits c ih =>
    rw [Nat.ofDigitChars_append, ih]
    simp only [decimalValue, Nat.ofDigitChars_cons, Nat.ofDigitChars_nil, List.reverse_append,
      List.reverse_singleton, List.singleton_append, List.map_cons, Nat.ofDigits_cons]
    omega

/-! ## Operands -/

namespace Operand

/-- How operands are written: as numbers that fit into an address, or as names. -/
inductive Written : Operand → String → Prop where
  | literal {digits : List Char} {value : Word} (hne : digits ≠ [])
      (hdigits : ∀ c ∈ digits, IsDigit c) (hvalue : decimalValue digits = value.toNat)
      (hle : value.toNat ≤ 32767) : Written (.literal value) (String.ofList digits)
  | symbol {name : String} (hname : IsName name) : Written (.symbol name) name

theorem written_of_parse {s : String} {operand : Operand} (h : parse s = .ok operand) :
    Written operand s := by
  unfold parse at h
  split at h
  · cases h
  · rename_i hne
    split at h
    · rename_i hdigits
      simp only at h
      split at h
      · rename_i hle
        obtain rfl := Except.ok.inj h
        rw [Memory.toNat_maxAddress] at hle
        have hnat := Memory.toNat_ofNat hle
        have hwritten : Written (.literal (BitVec.ofNat 16 (Nat.ofDigitChars 10 s.toList 0)))
            (String.ofList s.toList) := by
          refine .literal ?_ ?_ ?_ ?_
          · exact mt String.toList_eq_nil_iff.mp hne
          · exact fun c hc => isDigit_iff.mp (List.all_eq_true.mp hdigits c hc)
          · rw [hnat, ofDigitChars_eq_decimalValue]
          · rw [hnat]
            exact hle
        rwa [String.ofList_toList] at hwritten
      · cases h
    · split at h
      · rename_i hname
        obtain rfl := Except.ok.inj h
        exact .symbol (isSymbol_iff.mp hname)
      · cases h

theorem Written.parse_eq_ok {s : String} {operand : Operand} (h : Written operand s) :
    parse s = .ok operand := by
  cases h with
  | @literal digits value hne hdigits hvalue hle =>
    have hempty : String.ofList digits ≠ "" := by simpa using hne
    have hall : (String.ofList digits).toList.all Char.isDigit = true := by
      rw [String.toList_ofList, List.all_eq_true]
      exact fun c hc => isDigit_iff.mpr (hdigits c hc)
    have hnumber : Nat.ofDigitChars 10 (String.ofList digits).toList 0 = value.toNat := by
      rw [String.toList_ofList, ofDigitChars_eq_decimalValue, hvalue]
    simp only [parse, if_neg hempty, if_pos hall, hnumber, Memory.toNat_maxAddress, if_pos hle,
      BitVec.ofNat_toNat, BitVec.setWidth_eq]
  | symbol hname =>
    simp [parse, hname.ne_empty, hname.not_all_digits, isSymbol_iff.mpr hname]

theorem parse_eq_ok_iff {s : String} {operand : Operand} :
    parse s = .ok operand ↔ Written operand s :=
  ⟨written_of_parse, Written.parse_eq_ok⟩

end Operand

/-! ## Labels -/

theorem enclosed?_eq_some_iff {token name : String} :
    enclosed? token = some name ↔ token = "(" ++ name ++ ")" := by
  constructor
  · intro h
    unfold enclosed? at h
    split at h
    · rename_i rest htoken
      split at h
      · rename_i hlast
        obtain ⟨inner, rfl⟩ := List.getLast?_eq_some_iff.mp hlast
        rw [List.dropLast_concat] at h
        obtain rfl := Option.some.inj h
        refine String.toList_injective ?_
        simp [htoken]
      · cases h
    · cases h
  · rintro rfl
    simp [enclosed?]

theorem parseLabel_eq_ok_iff {token name : String} :
    parseLabel token = .ok name ↔ IsName name ∧ token = "(" ++ name ++ ")" := by
  rw [← enclosed?_eq_some_iff]
  unfold parseLabel
  split
  · rename_i h
    simp [h]
  · rename_i h
    simp only [h, Option.some.injEq, reduceCtorEq, false_iff, not_and]
    rintro hname rfl
    exact hname.ne_empty rfl
  · rename_i inner hne h
    by_cases hname : isSymbol inner = true
    · simp only [if_pos hname, h, Except.ok.injEq, Option.some.injEq, iff_and_self]
      rintro rfl
      exact isSymbol_iff.mp hname
    · simp only [if_neg hname, h, reduceCtorEq, Option.some.injEq, false_iff, not_and]
      rintro hinner rfl
      exact hname (isSymbol_iff.mpr hinner)

/-! ## Compute instructions -/

theorem bind_eq_ok_iff {ε α β : Type} {x : Except ε α} {f : α → Except ε β} {b : β} :
    (x >>= f) = .ok b ↔ ∃ a, x = .ok a ∧ f a = .ok b := by
  cases x with
  | error e => simp [bind, Except.bind]
  | ok a => simp [bind, Except.bind]

theorem Field.check_eq_ok_iff {α : Type} {field : Field} {text : String}
    {result : Except MnemonicError α} {a : α} :
    field.check text result = .ok a ↔ result = .ok a := by
  cases result <;> simp [check]

/-- What the texts of the fields stand for. -/
structure ComputeText.Means (text : ComputeText) (dest : Destination) (comp : Computation)
    (jump : Jump) : Prop where
  dest_written : dest.Written text.dest
  comp_eq : text.comp = comp.text
  jump_eq : text.jump = jump.text

theorem Code.parseCompute_eq_ok_iff {token : String} {code : Code} :
    parseCompute token = .ok code ↔
      ∃ text dest comp jump, ComputeText.Written text token ∧
        text.Means dest comp jump ∧ code = .compute dest comp jump := by
  simp only [parseCompute, bind_eq_ok_iff, Field.check_eq_ok_iff,
    ComputeText.split_eq_ok_iff, Destination.parse_eq_ok_iff, Computation.parse_eq_ok_iff,
    Jump.parse_eq_ok_iff]
  constructor
  · rintro ⟨text, hwritten, dest, hdest, comp, hcomp, jump, hjump, hcode⟩
    exact ⟨text, dest, comp, jump, hwritten, ⟨hdest, hcomp, hjump⟩, (Except.ok.inj hcode).symm⟩
  · rintro ⟨text, dest, comp, jump, hwritten, ⟨hdest, hcomp, hjump⟩, rfl⟩
    exact ⟨text, hwritten, dest, hdest, comp, hcomp, jump, hjump, rfl⟩

theorem Mnemonic.Formed.piece {s : String} (h : Mnemonic.Formed s) : ComputeText.Piece s where
  no_equals := h.not_mem (by decide)
  no_semicolon := h.not_mem (by decide)
  ne_empty := h.ne_empty

/-! ## Statements -/

namespace TokenKind

theorem of_at (s : String) : of ("@" ++ s) = .address := by
  simp [of]

theorem of_paren (s : String) : of ("(" ++ s) = .label := by
  simp [of]

/-- A token that starts like a mnemonic is taken for a compute instruction. -/
theorem of_formed {s : String} (h : Mnemonic.Formed s) (rest : String) :
    of (s ++ rest) = .compute := by
  cases hs : s.toList with
  | nil => exact absurd (String.toList_eq_nil_iff.mp hs) h.ne_empty
  | cons c cs =>
    have hc : c ∈ Mnemonic.alphabet := h.mem_alphabet c (by simp [hs])
    -- neither of the characters that start another kind of token is one of a mnemonic
    have hat : c ≠ '@' := by
      rintro rfl
      exact absurd hc (by decide)
    have hparen : c ≠ '(' := by
      rintro rfl
      exact absurd hc (by decide)
    simp [of, hs, hat, hparen]

theorem eq_at_of_address {token : String} (h : of token = .address) :
    token = "@" ++ String.ofList token.toList.tail := by
  unfold of at h
  split at h
  · rename_i hhead
    obtain ⟨rest, hrest⟩ := List.head?_eq_some_iff.mp hhead
    refine String.toList_injective ?_
    simp [hrest]
  · cases h
  · cases h

end TokenKind

namespace Statement

/-- How statements are written. -/
inductive Written : Statement → String → Prop where
  | label {name : String} (hname : IsName name) : Written (.label name) ("(" ++ name ++ ")")
  | address {operand : Operand} {text : String} (hoperand : operand.Written text) :
      Written (.code (.address operand)) ("@" ++ text)
  | compute {dest : Destination} {comp : Computation} {jump : Jump} {text : String}
      (hdest : dest.Written text) :
      Written (.code (.compute dest comp jump)) (text ++ "=" ++ comp.text ++ ";" ++ jump.text)
  /-- No jump is written. -/
  | store {dest : Destination} {comp : Computation} {text : String} (hdest : dest.Written text) :
      Written (.code (.compute dest comp .never)) (text ++ "=" ++ comp.text)
  /-- No destination is written. -/
  | branch {comp : Computation} {jump : Jump} :
      Written (.code (.compute .empty comp jump)) (comp.text ++ ";" ++ jump.text)

/-- A compute instruction is written as the texts of its fields are put together. -/
theorem written_of_means {token : String} {text : ComputeText} {dest : Destination}
    {comp : Computation} {jump : Jump} (hwritten : ComputeText.Written text token)
    (hmeans : text.Means dest comp jump) : Written (.code (.compute dest comp jump)) token := by
  obtain ⟨hdest, hcomp, hjump⟩ := hmeans
  cases hwritten with
  | full _ _ _ =>
    obtain rfl := hcomp
    obtain rfl := hjump
    exact .compute hdest
  | store _ _ =>
    -- a jump that is left out reads `null`, which is the text of one jump only
    obtain rfl := hcomp
    obtain rfl : Jump.never = jump := Jump.text_injective hjump
    exact .store hdest
  | branch _ _ =>
    obtain rfl := hcomp
    obtain rfl := hjump
    obtain rfl := hdest.unique .null
    exact .branch

theorem written_of_parse {token : String} {s : Statement} (h : parse token = .ok s) :
    Written s token := by
  unfold parse at h
  split at h
  · rename_i hkind
    obtain ⟨operand, hoperand, hs⟩ := bind_eq_ok_iff.mp h
    obtain rfl := Except.ok.inj hs
    rw [TokenKind.eq_at_of_address hkind]
    exact .address (Operand.parse_eq_ok_iff.mp hoperand)
  · obtain ⟨name, hlabel, hs⟩ := bind_eq_ok_iff.mp h
    obtain rfl := Except.ok.inj hs
    obtain ⟨hname, rfl⟩ := parseLabel_eq_ok_iff.mp hlabel
    exact .label hname
  · obtain ⟨code, hcode, hs⟩ := bind_eq_ok_iff.mp h
    obtain rfl := Except.ok.inj hs
    obtain ⟨text, dest, comp, jump, hwritten, hmeans, rfl⟩ := Code.parseCompute_eq_ok_iff.mp hcode
    exact written_of_means hwritten hmeans

/-- The fields of a compute instruction are read back from their texts, however they are put
together. -/
theorem parse_of_means {token : String} {text : ComputeText} {dest : Destination}
    {comp : Computation} {jump : Jump} (hkind : TokenKind.of token = .compute)
    (hwritten : ComputeText.Written text token) (hmeans : text.Means dest comp jump) :
    parse token = .ok (.code (.compute dest comp jump)) := by
  have hcode : Code.parseCompute token = .ok (.compute dest comp jump) :=
    Code.parseCompute_eq_ok_iff.mpr ⟨text, dest, comp, jump, hwritten, hmeans, rfl⟩
  simp only [parse, hkind, hcode]
  rfl

theorem Written.parse_eq_ok {token : String} {s : Statement} (h : Written s token) :
    parse token = .ok s := by
  cases h with
  | @label name hname =>
    have hlabel : parseLabel ("(" ++ name ++ ")") = .ok name :=
      parseLabel_eq_ok_iff.mpr ⟨hname, rfl⟩
    have hkind : TokenKind.of ("(" ++ name ++ ")") = .label := by
      rw [String.append_assoc, TokenKind.of_paren]
    simp only [parse, hkind, hlabel]
    rfl
  | @address operand text hoperand =>
    have hrest : String.ofList ("@" ++ text).toList.tail = text := by simp
    simp only [parse, TokenKind.of_at, hrest, hoperand.parse_eq_ok]
    rfl
  | @compute dest comp jump text hdest =>
    have hd := Mnemonic.formed_destination hdest
    have hc := Mnemonic.formed_computation comp
    have hj := Mnemonic.formed_jump jump
    refine parse_of_means ?_ (.full hd.piece hc.piece hj.piece) ⟨hdest, rfl, rfl⟩
    simp only [String.append_assoc]
    exact TokenKind.of_formed hd _
  | @store dest comp text hdest =>
    have hd := Mnemonic.formed_destination hdest
    have hc := Mnemonic.formed_computation comp
    refine parse_of_means ?_ (.store hd.piece hc.piece) ⟨hdest, rfl, rfl⟩
    rw [String.append_assoc]
    exact TokenKind.of_formed hd _
  | @branch comp jump =>
    have hc := Mnemonic.formed_computation comp
    have hj := Mnemonic.formed_jump jump
    refine parse_of_means ?_ (.branch hc.piece hj.piece) ⟨.null, rfl, rfl⟩
    rw [String.append_assoc]
    exact TokenKind.of_formed hc _

theorem parse_eq_ok_iff {token : String} {s : Statement} :
    parse token = .ok s ↔ Written s token :=
  ⟨written_of_parse, Written.parse_eq_ok⟩

theorem parse_eq_error_iff {token : String} :
    (∃ error, parse token = .error error) ↔ ¬ ∃ s, Written s token := by
  simp only [← parse_eq_ok_iff]
  cases parse token with
  | error error => simp
  | ok s => simp

/-- A label can be put wherever its name can be referred to, and nowhere else. -/
theorem written_label_iff_written_symbol {name : String} :
    (∃ token, Written (.label name) token) ↔
      ∃ token, Written (.code (.address (.symbol name))) token := by
  constructor
  · rintro ⟨_, ⟨hname⟩⟩
    exact ⟨"@" ++ name, .address (.symbol hname)⟩
  · rintro ⟨_, h⟩
    cases h with
    | address hoperand =>
      cases hoperand with
      | symbol hname => exact ⟨"(" ++ name ++ ")", .label hname⟩

/-- Reading a token accepts what the grammar describes and gives the statement written there,
any other token is refused, and labels and references have the same names. -/
theorem parse_accepts_grammar :
    (∀ token s, parse token = .ok s ↔ Written s token) ∧
    (∀ token, (∃ error, parse token = .error error) ↔ ¬ ∃ s, Written s token) ∧
    (∀ name, (∃ token, parse token = .ok (.label name)) ↔
      ∃ token, parse token = .ok (.code (.address (.symbol name)))) := by
  refine ⟨fun token s => parse_eq_ok_iff, fun token => parse_eq_error_iff, fun name => ?_⟩
  simp only [parse_eq_ok_iff]
  exact written_label_iff_written_symbol

end Statement

end HackAssembler
