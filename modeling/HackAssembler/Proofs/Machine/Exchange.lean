-- SUMMARY: Which of the data that are read as instructions stand for words, and that no instruction is lost as data.
import HackAssembler.Machine.Exchange
import HackAssembler.Proofs.Machine.Words
import HackAssembler.Proofs.Text.Pieces

/-!
# Data and words

Every instruction can be written as data and read back. So the data that are read make more than
the instructions that words decode to: a number above the largest address is read as an address
instruction, and a flag in hexadecimal may set bits of a destination that no register has. These
two are all that can go wrong. Data that keep away from both make an instruction whose word decodes
to it again, and other data make none.
-/

namespace HackAssembler

namespace Destination

/-! ## Flags one by one -/

/-- The flags in a text, as they stand between its bars. -/
def pieces (s : String) : List (List Char) :=
  (s.toList.splitOn '|').map Text.trim

theorem pieces_eq_singleton_nil_iff {s : String} : pieces s = [[]] ↔ Text.trim s.toList = [] := by
  unfold pieces
  rw [List.map_eq_singleton_iff]
  constructor
  · rintro ⟨piece, hsplit, hblank⟩
    rw [(List.splitOn_eq_singleton_iff.mp hsplit).2, hblank]
  · intro hblank
    have hfree : '|' ∉ s.toList := fun hmem => absurd (Text.trim_eq_nil_iff.mp hblank _ hmem) (by decide)
    exact ⟨s.toList, List.splitOn_eq_singleton hfree, hblank⟩

/-- Take in one more flag. -/
def addFlag? (r : Destination) (flag : List Char) : Option Destination :=
  (ofFlag? flag).map r.union

theorem ofFlags?_eq (s : String) :
    ofFlags? s = if pieces s = [[]] then some empty else (pieces s).foldlM addFlag? empty := by
  simp only [ofFlags?, List.isEmpty_iff, ← pieces_eq_singleton_nil_iff, pieces, List.foldlM_map]
  rfl

/-! ## Stray bits -/

/-- A flag in hexadecimal with a bit above those of the registers. -/
def Stray (flag : List Char) : Prop :=
  ∃ digits byte, flag = '0' :: 'x' :: digits ∧ hexByte? digits = some byte ∧ 8 ≤ byte.toNat

theorem other_ofByte_eq_zero_iff {byte : BitVec 8} : (ofByte byte).other = 0 ↔ byte.toNat < 8 := by
  revert byte
  decide +kernel

theorem other_eq_zero_iff_of_ofFlag? {flag : List Char} {r : Destination}
    (h : ofFlag? flag = some r) : r.other = 0 ↔ ¬ Stray flag := by
  unfold ofFlag? at h
  split at h
  case h_1 | h_2 | h_3 =>
    obtain rfl := Option.some.inj h
    simp [Stray]
  case h_4 digits =>
    obtain ⟨byte, hbyte, rfl⟩ := Option.map_eq_some_iff.mp h
    rw [other_ofByte_eq_zero_iff]
    constructor
    · rintro hlow ⟨_, other, hflag, hother, hhigh⟩
      cases hflag
      obtain rfl := Option.some.inj (hbyte.symm.trans hother)
      omega
    · exact fun hstray => Nat.lt_of_not_le fun hhigh => hstray ⟨digits, byte, rfl, hbyte, hhigh⟩
  case h_5 => cases h

theorem other_union_eq_zero_iff {r s : Destination} :
    (r.union s).other = 0 ↔ r.other = 0 ∧ s.other = 0 :=
  BitVec.or_eq_zero_iff

theorem other_eq_zero_iff_of_foldlM {flags : List (List Char)} {r s : Destination}
    (h : flags.foldlM addFlag? r = some s) :
    s.other = 0 ↔ r.other = 0 ∧ ∀ flag ∈ flags, ¬ Stray flag := by
  induction flags generalizing r with
  | nil =>
    obtain rfl := Option.some.inj h
    simp
  | cons flag flags ih =>
    obtain ⟨r', hadd, hrest⟩ := Option.bind_eq_some_iff.mp h
    obtain ⟨bits, hflag, rfl⟩ := Option.map_eq_some_iff.mp hadd
    rw [ih hrest, other_union_eq_zero_iff, other_eq_zero_iff_of_ofFlag? hflag,
      List.forall_mem_cons, and_assoc]

/-- A destination is a set of registers exactly if none of its flags is stray. -/
theorem other_eq_zero_iff_of_ofFlags? {s : String} {r : Destination} (h : ofFlags? s = some r) :
    r.other = 0 ↔ ∀ flag ∈ pieces s, ¬ Stray flag := by
  rw [ofFlags?_eq] at h
  split at h
  · rename_i hblank
    obtain rfl := Option.some.inj h
    simp [hblank, Stray, empty]
  · rw [other_eq_zero_iff_of_foldlM h]
    exact and_iff_right rfl

/-! ## Flags that are printed -/

/-- The flag for bits that are not those of registers. -/
def otherFlag (other : BitVec 5) : List Char :=
  '0' :: 'x' :: Nat.toDigits 16 (other ++ 0#3).toNat

/-- The flags of a destination one by one. -/
def printed (r : Destination) : List (List Char) :=
  r.letters.map ([·]) ++ if r.other = 0 then [] else [otherFlag r.other]

theorem toList_flags (r : Destination) : r.flags.toList = [' ', '|', ' '].intercalate r.printed := by
  unfold flags printed
  rw [String.toList_intercalate, List.map_append, List.map_map]
  congr 2
  · refine List.map_congr_left fun c _ => ?_
    exact String.toList_singleton c
  · split
    · rfl
    · simp [Text.Numeral.text, otherFlag]

/-- A character that may stand in a printed flag. -/
def isMark (c : Char) : Bool :=
  c ≠ '|' && !Text.isBlank c

theorem isMark_iff {c : Char} : isMark c = true ↔ c ≠ '|' ∧ Text.isBlank c = false := by
  simp [isMark]

theorem all_isMark_letters (r : Destination) : r.letters.all isMark = true := by
  obtain ⟨a, d, m, other⟩ := r
  cases a <;> cases d <;> cases m <;> rfl

theorem all_isMark_otherFlag (other : BitVec 5) : (otherFlag other).all isMark = true := by
  revert other
  decide +kernel

theorem marks_of_mem_printed {r : Destination} {flag : List Char} (h : flag ∈ r.printed) :
    flag ≠ [] ∧ ∀ c ∈ flag, isMark c = true := by
  rcases List.mem_append.mp h with hletter | hother
  · obtain ⟨c, hc, rfl⟩ := List.mem_map.mp hletter
    have hmark : isMark c = true := List.all_eq_true.mp r.all_isMark_letters c hc
    exact ⟨List.cons_ne_nil _ _, by simpa using hmark⟩
  · split at hother
    · cases hother
    · obtain rfl := List.mem_singleton.mp hother
      exact ⟨List.cons_ne_nil _ _, List.all_eq_true.mp (all_isMark_otherFlag r.other)⟩

theorem pieces_flags (r : Destination) :
    pieces r.flags = if r.printed = [] then [[]] else r.printed := by
  unfold pieces
  rw [toList_flags]
  split
  · rename_i hnone
    rw [hnone]
    rfl
  · rename_i hsome
    refine Text.map_trim_splitOn_intercalate (by decide) hsome fun flag hflag => ?_
    have hmarks := (marks_of_mem_printed hflag).2
    exact ⟨fun hbar => (isMark_iff.mp (hmarks _ hbar)).1 rfl, fun c hc => (isMark_iff.mp (hmarks c hc)).2⟩

theorem ofFlag?_otherFlag (other : BitVec 5) : ofFlag? (otherFlag other) = some { other } := by
  revert other
  decide +kernel

theorem foldlM_letters (r : Destination) :
    (r.letters.map ([·])).foldlM addFlag? empty = some { r with other := 0 } := by
  obtain ⟨a, d, m, other⟩ := r
  cases a <;> cases d <;> cases m <;> rfl

theorem foldlM_printed (r : Destination) : r.printed.foldlM addFlag? empty = some r := by
  rw [printed, List.foldlM_append, foldlM_letters]
  split
  · rename_i hother
    rw [← hother]
    rfl
  · simp [addFlag?, ofFlag?_otherFlag, union]

/-- No bit of a destination is lost. -/
@[simp] theorem ofFlags?_flags (r : Destination) : ofFlags? r.flags = some r := by
  have hprinted : r.printed ≠ [[]] := by
    intro h
    exact (marks_of_mem_printed (h ▸ List.mem_singleton_self [])).1 rfl
  have hread := r.foldlM_printed
  rw [ofFlags?_eq, pieces_flags]
  split
  · rename_i hnone
    rw [hnone] at hread
    exact hread
  · exact hread

end Destination

@[simp] theorem Computation.ofName?_name (comp : Computation) : ofName? comp.name = some comp := by
  have hall : ∀ comp ∈ all, ofName? comp.name = some comp := by decide +kernel
  exact hall comp comp.mem_all

@[simp] theorem Jump.ofName?_name (jump : Jump) : ofName? jump.name = some jump := by
  have hall : ∀ jump ∈ all, ofName? jump.name = some jump := by decide +kernel
  exact hall jump jump.mem_all

/-! ## Data -/

namespace Datum

open Destination

theorem word?_eq_some_iff {d : Datum} {w : Word} : d.word? = some w ↔ d = .integer w.toNat := by
  constructor
  · intro h
    unfold word? at h
    split at h
    · split at h
      · rename_i n hn
        obtain rfl := Option.some.inj h
        rw [BitVec.toNat_ofNat, Nat.mod_eq_of_lt hn]
        rfl
      · cases h
    · cases h
  · rintro rfl
    have hread : (integer w.toNat).word? =
        if w.toNat < 65536 then some (BitVec.ofNat 16 w.toNat) else none := rfl
    rw [hread, if_pos w.isLt, BitVec.ofNat_toNat, BitVec.setWidth_eq]

/-- Data that keep to the bits of their class: a number that is an address, and flags without stray
bits. -/
inductive Fits : Datum → Prop where
  | address {n : Int} (hn : n ≤ 32767) : Fits (.record [("A", .integer n)])
  | compute {fields : List (String × Datum)} {flags : String}
      (hdest : field? fields "dest" = some (.text flags))
      (hflags : ∀ flag ∈ pieces flags, ¬ Stray flag) : Fits (.record [("C", .record fields)])

theorem fits_address_iff {n : Int} : Fits (.record [("A", .integer n)]) ↔ n ≤ 32767 := by
  constructor
  · intro h
    generalize hd : record [("A", .integer n)] = d at h
    cases h with
    | address hn =>
      obtain rfl : n = _ := by simpa using hd
      exact hn
    | compute => simp at hd
  · exact .address

theorem fits_compute_iff {fields : List (String × Datum)} {flags : String}
    (hdest : field? fields "dest" = some (.text flags)) :
    Fits (.record [("C", .record fields)]) ↔ ∀ flag ∈ pieces flags, ¬ Stray flag := by
  constructor
  · intro h
    generalize hd : record [("C", .record fields)] = d at h
    cases h with
    | address => simp at hd
    | compute hdest' hflags =>
      obtain rfl : fields = _ := by simpa using hd
      obtain rfl := Datum.text.inj (Option.some.inj (hdest.symm.trans hdest'))
      exact hflags
  · exact .compute hdest

theorem text?_eq_some_iff {d : Datum} {s : String} : d.text? = some s ↔ d = .text s := by
  cases d <;> simp [text?]

end Datum

namespace Instruction

open Datum

theorem exists_flags_of_ofFields? {fields : List (String × Datum)} {i : Instruction}
    (h : ofFields? fields = some i) :
    ∃ flags dest comp jump, field? fields "dest" = some (.text flags) ∧
      Destination.ofFlags? flags = some dest ∧ i = .compute dest comp jump := by
  unfold ofFields? at h
  simp only [Option.bind_eq_bind, Option.bind_eq_some_iff] at h
  obtain ⟨text, hdest, flags, htext, dest, hflags, -, -, -, -, comp, -, -, -, -, -, jump, -, hi⟩ := h
  rw [text?_eq_some_iff.mp htext] at hdest
  exact ⟨flags, dest, comp, jump, hdest, hflags, (Option.some.inj hi).symm⟩

/-- What is read as an instruction keeps to its own bits of a word exactly if the data do so. -/
theorem fits_iff_encodable {d : Datum} {i : Instruction} (h : ofDatum? d = some i) :
    d.Fits ↔ i.Encodable := by
  unfold ofDatum? at h
  split at h
  · rename_i value
    obtain ⟨w, hw, rfl⟩ := Option.map_eq_some_iff.mp h
    obtain rfl := word?_eq_some_iff.mp hw
    rw [fits_address_iff]
    exact Int.ofNat_le
  · rename_i fields
    obtain ⟨flags, dest, comp, jump, hdest, hflags, rfl⟩ := exists_flags_of_ofFields? h
    rw [fits_compute_iff hdest, ← Destination.other_eq_zero_iff_of_ofFlags? hflags]
    rfl
  · cases h

/-! ## Data that are printed -/

/-- Every instruction is read back from its data, also if words do not decode to it. -/
theorem ofDatum?_toDatum (i : Instruction) : ofDatum? i.toDatum = some i := by
  cases i with
  | address value =>
    have hvalue : (integer value.toNat).word? = some value := word?_eq_some_iff.mpr rfl
    simp [toDatum, ofDatum?, hvalue]
  | compute dest comp jump =>
    simp [toDatum, ofDatum?, ofFields?, field?, List.lookup_cons, text?, name?]

/-! ## Data and decoding -/

theorem decode?_encode_iff {i : Instruction} : decode? i.encode = some i ↔ i.Encodable := by
  rw [decode?_eq_some_iff]
  exact and_iff_left rfl

/-- An instruction that is read from data is the one that its word decodes to exactly if the data keep
to the bits of their class. For an address instruction this is to say that it holds an address, and
that its word is not of the other class. -/
theorem decodes_iff_fits {d : Datum} {i : Instruction} (h : ofDatum? d = some i) :
    (decode? i.encode = some i ↔ d.Fits) ∧
    ∀ value, i = .address value →
      (value ≤ Memory.maxAddress ↔ d.Fits) ∧ (i.encode.msb = false ↔ d.Fits) := by
  have hfits : d.Fits ↔ i.Encodable := fits_iff_encodable h
  constructor
  · rw [hfits, decode?_encode_iff]
  · rintro value rfl
    rw [hfits]
    exact ⟨Iff.rfl, Word.msb_eq_false_iff⟩

/-- A flag in hexadecimal may stand for registers, and then nothing is wrong with it. -/
theorem decodes_iff_fits_hex :
    let d : Datum := .record [("C", .record
      [("dest", .text "A | 0x2"), ("comp", .text "One"), ("jump", .record [("JGT", .null)])])]
    let i : Instruction := .compute { a := true, d := true } .one .gt
    ofDatum? d = some i ∧ d.Fits ∧ decode? i.encode = some i := by
  intro d i
  have hread : ofDatum? d = some i := by decide +kernel
  have hdecode : decode? i.encode = some i := by decide +kernel
  exact ⟨hread, (decodes_iff_fits hread).1.mp hdecode, hdecode⟩

/-- The first word above the addresses is read as an address instruction, but words do not decode to
it. -/
theorem data_not_always_words :
    ¬ ∀ d i, ofDatum? d = some i →
      (∀ value, i = .address value → value ≤ Memory.maxAddress) ∧ decode? i.encode = some i := by
  intro h
  have hread : ofDatum? (.record [("A", .integer 32768)]) = some (.address 32768) :=
    ofDatum?_toDatum (.address 32768)
  exact absurd ((h _ _ hread).1 32768 rfl) (by decide)

/-- A number that is read as an address instruction may be the word of a jump. -/
example : (ofDatum? (.record [("A", .integer 60039)])).bind (decode? ·.encode) =
    some (.compute .empty .zero .always) := by decide +kernel

end Instruction

end HackAssembler
