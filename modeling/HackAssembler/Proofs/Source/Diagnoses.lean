-- SUMMARY: What is wrong with a token that is no statement, and that reading it says just this.
import HackAssembler.Proofs.Source.Grammar

/-!
# Diagnoses

A token that is no statement can be wrong in several ways at once. The diagnosis names the first
of them, in an order of its own: what kind of statement the token starts, whether it has the
shape of one, and then its parts from the left. The text that it quotes is the part that is
wrong, character by character. Like the grammar, it is told here without regard to how tokens
are read.
-/

namespace HackAssembler

/-! ## Failures -/

section Except

variable {ε α β : Type}

theorem bind_eq_error_iff {x : Except ε α} {f : α → Except ε β} {e : ε} :
    (x >>= f) = .error e ↔ x = .error e ∨ ∃ a, x = .ok a ∧ f a = .error e := by
  cases x with
  | error e => simp [bind, Except.bind]
  | ok a => simp [bind, Except.bind]

theorem exists_eq_error_iff {x : Except ε α} : (∃ e, x = .error e) ↔ ¬ ∃ a, x = .ok a := by
  cases x with
  | error e => simp
  | ok a => simp

end Except

/-! ## Operands -/

namespace Operand

/-- What is wrong with the text behind an `@`. -/
inductive Diagnosed : String → SourceError → Prop where
  | missing : Diagnosed "" (.malformedAddress "@")
  /-- The number is too large, however many zeros it starts with. -/
  | large {digits : List Char} (hne : digits ≠ []) (hdigits : ∀ c ∈ digits, IsDigit c)
      (hvalue : 32767 < decimalValue digits) :
      Diagnosed (String.ofList digits) (.addressOutOfRange (String.ofList digits))
  /-- The text is neither a number nor a name. -/
  | unnamed {s : String} (hne : s ≠ "") (hother : ∃ c ∈ s.toList, ¬ IsDigit c)
      (hname : ¬ IsName s) : Diagnosed s (.invalidSymbol s)

theorem diagnosed_of_parse {s : String} {error : SourceError} (h : parse s = .error error) :
    Diagnosed s error := by
  unfold parse at h
  split at h
  · rename_i hempty
    obtain rfl := Except.error.inj h
    rw [hempty]
    exact .missing
  · rename_i hne
    split at h
    · rename_i hdigits
      simp only at h
      split at h
      · cases h
      · rename_i hvalue
        obtain rfl := Except.error.inj h
        rw [ofDigitChars_eq_decimalValue, Memory.toNat_maxAddress, Nat.not_le] at hvalue
        have hlarge := Diagnosed.large (mt String.toList_eq_nil_iff.mp hne)
          (fun c hc => isDigit_iff.mp (List.all_eq_true.mp hdigits c hc)) hvalue
        rwa [String.ofList_toList] at hlarge
    · rename_i hdigits
      split at h
      · cases h
      · rename_i hname
        obtain rfl := Except.error.inj h
        refine .unnamed hne ?_ (mt isSymbol_iff.mpr hname)
        simpa [isDigit_iff] using hdigits

theorem Diagnosed.parse_eq_error {s : String} {error : SourceError} (h : Diagnosed s error) :
    parse s = .error error := by
  cases h with
  | missing => rfl
  | @large digits hne hdigits hvalue =>
    have hempty : String.ofList digits ≠ "" := by simpa using hne
    have hall : (String.ofList digits).toList.all Char.isDigit = true := by
      rw [String.toList_ofList, List.all_eq_true]
      exact fun c hc => isDigit_iff.mpr (hdigits c hc)
    have hnumber : ¬ Nat.ofDigitChars 10 (String.ofList digits).toList 0 ≤ 32767 := by
      rw [String.toList_ofList, ofDigitChars_eq_decimalValue]
      omega
    simp only [parse, if_neg hempty, if_pos hall, Memory.toNat_maxAddress]
    exact if_neg hnumber
  | unnamed hne hother hname =>
    have hdigits : ¬ s.toList.all Char.isDigit = true := by
      simpa [isDigit_iff] using hother
    simp only [parse, if_neg hne, if_neg hdigits, if_neg (mt isSymbol_iff.mp hname)]

theorem parse_eq_error_iff {s : String} {error : SourceError} :
    parse s = .error error ↔ Diagnosed s error :=
  ⟨diagnosed_of_parse, Diagnosed.parse_eq_error⟩

end Operand

/-! ## Labels -/

/-- What is wrong with a token that starts a label. -/
inductive Label.Diagnosed : String → SourceError → Prop where
  /-- The label is not closed, or there is nothing in it. -/
  | shape {token : String} (hshape : ∀ name, name ≠ "" → token ≠ "(" ++ name ++ ")") :
      Diagnosed token (.malformedLabel token)
  | unnamed {name : String} (hne : name ≠ "") (hname : ¬ IsName name) :
      Diagnosed ("(" ++ name ++ ")") (.invalidSymbol name)

theorem parseLabel_eq_error_iff {token : String} {error : SourceError} :
    parseLabel token = .error error ↔ Label.Diagnosed token error := by
  constructor
  · intro h
    unfold parseLabel at h
    split at h
    · rename_i hnone
      obtain rfl := Except.error.inj h
      refine .shape fun name _ htoken => ?_
      rw [enclosed?_eq_some_iff.mpr htoken] at hnone
      cases hnone
    · rename_i hempty
      obtain rfl := Except.error.inj h
      -- `()` is closed, but what it holds is empty, and the shape asks for a name
      refine .shape fun name hne htoken => ?_
      rw [enclosed?_eq_some_iff.mpr htoken] at hempty
      exact hne (Option.some.inj hempty)
    · rename_i name hne henclosed
      split at h
      · cases h
      · rename_i hname
        obtain rfl := Except.error.inj h
        rw [enclosed?_eq_some_iff.mp henclosed]
        exact .unnamed hne (mt isSymbol_iff.mpr hname)
  · intro h
    cases h with
    | shape hshape =>
      unfold parseLabel
      split
      · rfl
      · rfl
      · rename_i name hne henclosed
        exact absurd (enclosed?_eq_some_iff.mp henclosed) (hshape name hne)
    | @unnamed name hne hname =>
      have henclosed : enclosed? ("(" ++ name ++ ")") = some name := enclosed?_eq_some_iff.mpr rfl
      simp [parseLabel, henclosed, mt isSymbol_iff.mp hname]

/-! ## Compute instructions -/

namespace ComputeText

theorem split_eq_error_iff {token : String} {error : SourceError} :
    split token = .error error ↔
      (∀ text, ¬ Written text token) ∧ error = .malformedCompute token := by
  -- splitting has one error to give, so it fails with it as soon as it fails at all
  have hmalformed : ∀ e, split token = .error e → e = .malformedCompute token := by
    intro e h
    rw [split_eq] at h
    split at h
    · exact (Except.error.inj h).symm
    · split at h
      · cases h
      · cases h
      · cases h
      · exact (Except.error.inj h).symm
  have hfails : (∃ e, split token = .error e) ↔ ∀ text, ¬ Written text token := by
    simp only [exists_eq_error_iff, split_eq_ok_iff, not_exists]
  constructor
  · intro h
    exact ⟨hfails.mp ⟨error, h⟩, hmalformed error h⟩
  · rintro ⟨hshape, rfl⟩
    obtain ⟨e, he⟩ := hfails.mpr hshape
    rw [he, hmalformed e he]

/-- The text of a field. -/
def ofField (text : ComputeText) : Field → String
  | .dest => text.dest
  | .comp => text.comp
  | .jump => text.jump

end ComputeText

namespace Field

/-- The fields that are written in front of a field. -/
def earlier : Field → List Field
  | dest => []
  | comp => [dest]
  | jump => [dest, comp]

/-- The mnemonics of a field. -/
def IsMnemonic (s : String) : Field → Prop
  | dest => ∃ r : Destination, r.Written s
  | comp => ∃ c : Computation, s = c.text
  | jump => ∃ j : Jump, s = j.text

theorem check_eq_error_iff {α : Type} {field : Field} {text : String}
    {result : Except MnemonicError α} {error : SourceError} :
    field.check text result = .error error ↔
      (¬ ∃ a, result = .ok a) ∧ error = .unknownMnemonic field text := by
  cases result with
  | error e => simp [check, eq_comm]
  | ok a => simp [check]

end Field

/-- A field is the first one whose text is not a mnemonic. -/
structure ComputeText.FirstUnknown (text : ComputeText) (field : Field) : Prop where
  known : ∀ other ∈ field.earlier, other.IsMnemonic (text.ofField other)
  unknown : ¬ field.IsMnemonic (text.ofField field)

namespace Code

/-- What is wrong with a token that is taken for a compute instruction. -/
inductive Diagnosed : String → SourceError → Prop where
  | shape {token : String} (hshape : ∀ text, ¬ ComputeText.Written text token) :
      Diagnosed token (.malformedCompute token)
  | field {token : String} {text : ComputeText} (field : Field) (hwritten : text.Written token)
      (hfirst : text.FirstUnknown field) :
      Diagnosed token (.unknownMnemonic field (text.ofField field))

theorem parseCompute_eq_error_iff {token : String} {error : SourceError} :
    parseCompute token = .error error ↔ Diagnosed token error := by
  simp only [parseCompute, bind_eq_error_iff, ComputeText.split_eq_error_iff,
    ComputeText.split_eq_ok_iff, Field.check_eq_error_iff, Field.check_eq_ok_iff,
    Destination.parse_eq_ok_iff, Computation.parse_eq_ok_iff, Jump.parse_eq_ok_iff]
  -- the checks are made from the left, and each one that passes is a field known to the next
  constructor
  · rintro (⟨hshape, rfl⟩ | ⟨text, hwritten, hfields⟩)
    · exact .shape hshape
    · rcases hfields with ⟨hdest, rfl⟩ | ⟨r, hdest, hfields⟩
      · exact .field .dest hwritten ⟨List.forall_mem_nil _, hdest⟩
      · rcases hfields with ⟨hcomp, rfl⟩ | ⟨c, hcomp, hfields⟩
        · have hknown : ∀ other ∈ [.dest], Field.IsMnemonic (text.ofField other) other :=
            List.forall_mem_singleton.mpr ⟨r, hdest⟩
          exact .field .comp hwritten ⟨hknown, hcomp⟩
        · rcases hfields with ⟨hjump, rfl⟩ | ⟨j, hjump, hok⟩
          · have hknown : ∀ other ∈ [.dest, .comp], Field.IsMnemonic (text.ofField other) other :=
              List.forall_mem_cons.mpr ⟨⟨r, hdest⟩, List.forall_mem_singleton.mpr ⟨c, hcomp⟩⟩
            exact .field .jump hwritten ⟨hknown, hjump⟩
          · cases hok
  · intro h
    cases h with
    | shape hshape => exact .inl ⟨hshape, rfl⟩
    | @field text field hwritten hfirst =>
      obtain ⟨hknown, hunknown⟩ := hfirst
      refine .inr ⟨text, hwritten, ?_⟩
      cases field with
      | dest => exact .inl ⟨hunknown, rfl⟩
      | comp =>
        obtain ⟨r, hdest⟩ := hknown .dest (by decide)
        exact .inr ⟨r, hdest, .inl ⟨hunknown, rfl⟩⟩
      | jump =>
        obtain ⟨r, hdest⟩ := hknown .dest (by decide)
        obtain ⟨c, hcomp⟩ := hknown .comp (by decide)
        exact .inr ⟨r, hdest, .inr ⟨c, hcomp, .inl ⟨hunknown, rfl⟩⟩⟩

end Code

/-! ## Statements -/

namespace TokenKind

theorem eq_paren_of_label {token : String} (h : of token = .label) :
    token = "(" ++ String.ofList token.toList.tail := by
  unfold of at h
  split at h
  · cases h
  · rename_i hhead
    obtain ⟨rest, hrest⟩ := List.head?_eq_some_iff.mp hhead
    refine String.toList_injective ?_
    simp [hrest]
  · cases h

/-- A token is taken for a compute instruction unless its first character says otherwise. -/
theorem of_eq_compute_iff {token : String} :
    of token = .compute ↔ (∀ s, token ≠ "@" ++ s) ∧ ∀ s, token ≠ "(" ++ s := by
  constructor
  · intro h
    refine ⟨?_, ?_⟩
    · rintro s rfl
      rw [of_at] at h
      cases h
    · rintro s rfl
      rw [of_paren] at h
      cases h
  · rintro ⟨hat, hparen⟩
    cases h : of token with
    | address => exact absurd (eq_at_of_address h) (hat _)
    | label => exact absurd (eq_paren_of_label h) (hparen _)
    | compute => rfl

end TokenKind

namespace Statement

/-- What is wrong with a token. -/
inductive Diagnosed : String → SourceError → Prop where
  | address {s : String} {error : SourceError} (hoperand : Operand.Diagnosed s error) :
      Diagnosed ("@" ++ s) error
  | label {s : String} {error : SourceError} (hlabel : Label.Diagnosed ("(" ++ s) error) :
      Diagnosed ("(" ++ s) error
  | compute {token : String} {error : SourceError} (hat : ∀ s, token ≠ "@" ++ s)
      (hparen : ∀ s, token ≠ "(" ++ s) (hcode : Code.Diagnosed token error) : Diagnosed token error

theorem diagnosed_of_parse {token : String} {error : SourceError}
    (h : parse token = .error error) : Diagnosed token error := by
  unfold parse at h
  split at h
  · rename_i hkind
    rcases bind_eq_error_iff.mp h with hoperand | ⟨operand, -, hok⟩
    · rw [TokenKind.eq_at_of_address hkind]
      exact .address (Operand.parse_eq_error_iff.mp hoperand)
    · cases hok
  · rename_i hkind
    rcases bind_eq_error_iff.mp h with hlabel | ⟨name, -, hok⟩
    · have htoken := TokenKind.eq_paren_of_label hkind
      rw [htoken] at hlabel ⊢
      exact .label (parseLabel_eq_error_iff.mp hlabel)
    · cases hok
  · rename_i hkind
    rcases bind_eq_error_iff.mp h with hcode | ⟨code, -, hok⟩
    · obtain ⟨hat, hparen⟩ := TokenKind.of_eq_compute_iff.mp hkind
      exact .compute hat hparen (Code.parseCompute_eq_error_iff.mp hcode)
    · cases hok

theorem Diagnosed.parse_eq_error {token : String} {error : SourceError}
    (h : Diagnosed token error) : parse token = .error error := by
  cases h with
  | @address s error hoperand =>
    have hrest : String.ofList ("@" ++ s).toList.tail = s := by simp
    simp only [parse, TokenKind.of_at, hrest, hoperand.parse_eq_error]
    rfl
  | label hlabel =>
    simp only [parse, TokenKind.of_paren, parseLabel_eq_error_iff.mpr hlabel]
    rfl
  | compute hat hparen hcode =>
    simp only [parse, TokenKind.of_eq_compute_iff.mpr ⟨hat, hparen⟩,
      Code.parseCompute_eq_error_iff.mpr hcode]
    rfl

/-- Reading a token that is no statement gives its diagnosis, and each such token has one diagnosis
exactly. -/
theorem parse_gives_diagnosis :
    (∀ token error, parse token = .error error ↔ Diagnosed token error) ∧
    (∀ token, (¬ ∃ s, Written s token) ↔ ∃! error, Diagnosed token error) := by
  have hiff : ∀ token error, parse token = .error error ↔ Diagnosed token error :=
    fun token error => ⟨diagnosed_of_parse, Diagnosed.parse_eq_error⟩
  refine ⟨hiff, fun token => ?_⟩
  rw [← parse_eq_error_iff]
  constructor
  · rintro ⟨error, herror⟩
    refine ⟨error, (hiff token error).mp herror, fun other hother => ?_⟩
    have hsame := (hiff token other).mpr hother
    rw [herror] at hsame
    exact (Except.error.inj hsame).symm
  · rintro ⟨error, herror, -⟩
    exact ⟨error, (hiff token error).mpr herror⟩

end Statement

end HackAssembler
