-- SUMMARY: The lines of a file are the lines of its text: cutting bytes and cutting characters agree.
import HackAssembler.Proofs.Text.Pieces

/-!
# Bytes and characters

A file is cut into lines as a row of bytes, and a text as a row of characters. In UTF-8 both
cuts fall on the same places, since no other character has the byte of a line feed in it. So
all lines of a file are text exactly if the file is text, and they are the lines of that text.
-/

namespace HackAssembler.Text

/-! ## Encoded characters -/

/-- The bytes of a row of characters. -/
def encode (chars : List Char) : List UInt8 :=
  chars.flatMap String.utf8EncodeChar

theorem fromUTF8?_eq_some_iff {content : ByteArray} {s : String} :
    String.fromUTF8? content = some s ↔ content = s.toUTF8 := by
  unfold String.fromUTF8?
  constructor
  · intro h
    split at h
    · obtain rfl := Option.some.inj h
      rfl
    · cases h
  · rintro rfl
    rw [String.toUTF8_eq_toByteArray, dif_pos s.isValidUTF8]
    rfl

theorem decode?_eq_some_iff {bytes : List UInt8} {chars : List Char} :
    decode? bytes = some chars ↔ bytes = encode chars := by
  simp only [decode?, Option.map_eq_some_iff, fromUTF8?_eq_some_iff]
  constructor
  · rintro ⟨s, hbytes, rfl⟩
    exact List.toByteArray_inj.mp (hbytes.trans String.utf8Encode_toList.symm)
  · rintro rfl
    exact ⟨String.ofList chars, rfl, String.toList_ofList⟩

theorem decode?_data (content : ByteArray) :
    decode? content.data.toList = (String.fromUTF8? content).map String.toList := by
  have hcontent : content.data.toList.toByteArray = content :=
    ByteArray.ext (by rw [List.data_toByteArray, Array.toArray_toList])
  rw [decode?, hcontent]

/-- A byte of a character either is the whole character or has its high bit set. -/
theorem toNat_of_mem_utf8EncodeChar {c : Char} {b : UInt8} (h : b ∈ String.utf8EncodeChar c) :
    b.toNat = c.toNat ∨ 128 ≤ b.toNat := by
  have hcode : c.val.toNat = c.toNat := rfl
  unfold String.utf8EncodeChar at h
  simp only [hcode] at h
  split at h
  · obtain rfl := List.mem_singleton.mp h
    left
    rw [UInt8.toNat_ofNat']
    omega
  · right
    split at h
    · simp only [List.mem_cons, List.not_mem_nil, or_false] at h
      rcases h with rfl | rfl <;> rw [UInt8.toNat_ofNat'] <;> omega
    · split at h
      · simp only [List.mem_cons, List.not_mem_nil, or_false] at h
        rcases h with rfl | rfl | rfl <;> rw [UInt8.toNat_ofNat'] <;> omega
      · simp only [List.mem_cons, List.not_mem_nil, or_false] at h
        rcases h with rfl | rfl | rfl | rfl <;> rw [UInt8.toNat_ofNat'] <;> omega

/-- Only a line feed has the byte of a line feed in it. -/
theorem lineFeed_mem_encode_iff {chars : List Char} : lineFeed ∈ encode chars ↔ '\n' ∈ chars := by
  have hcode : lineFeed.toNat = '\n'.toNat := rfl
  unfold encode
  rw [List.mem_flatMap]
  constructor
  · rintro ⟨c, hc, hbyte⟩
    rcases toNat_of_mem_utf8EncodeChar hbyte with heq | hhigh
    · rwa [← Char.toNat_inj.mp (hcode.symm.trans heq)] at hc
    · rw [hcode] at hhigh
      exact absurd hhigh (by decide)
  · intro hmem
    exact ⟨'\n', hmem, by decide⟩

/-! ## Cutting -/

theorem encode_append (l l' : List Char) : encode (l ++ l') = encode l ++ encode l' :=
  List.flatMap_append

/-- Joining lines and encoding them may be done in either order. -/
theorem encode_intercalate (rows : List (List Char)) :
    encode (['\n'].intercalate rows) = [lineFeed].intercalate (rows.map encode) := by
  induction rows with
  | nil => rfl
  | cons row rows ih =>
    cases rows with
    | nil => simp
    | cons next rows =>
      have hfeed : encode ['\n'] = [lineFeed] := by decide
      rw [List.map_cons, List.map_cons, List.intercalate_cons_cons, List.intercalate_cons_cons,
        ← List.map_cons, ← ih, encode_append, encode_append, hfeed]

theorem splitOn_encode (chars : List Char) :
    (encode chars).splitOn lineFeed = (chars.splitOn '\n').map encode := by
  obtain ⟨-, hfree, hjoin⟩ := List.splitOn_eq_iff.mp (rfl : chars.splitOn '\n' = _)
  refine List.splitOn_eq_iff.mpr ⟨by simp, ?_, ?_⟩
  · intro piece hpiece
    obtain ⟨row, hrow, rfl⟩ := List.mem_map.mp hpiece
    exact mt lineFeed_mem_encode_iff.mp (hfree row hrow)
  · rw [← encode_intercalate, ← hjoin]

theorem mapM_decode?_eq_some_iff {pieces : List (List UInt8)} {rows : List (List Char)} :
    pieces.mapM decode? = some rows ↔ pieces = rows.map encode := by
  induction pieces generalizing rows with
  | nil => cases rows <;> simp
  | cons piece pieces ih =>
    rw [List.mapM_cons]
    cases rows with
    | nil => simp [Option.bind_eq_some_iff]
    | cons row rows => simp [Option.bind_eq_some_iff, ih, decode?_eq_some_iff]

/-- The pieces of some bytes are all text exactly if the bytes are, and then they are its pieces. -/
theorem mapM_decode?_splitOn (bytes : List UInt8) :
    (bytes.splitOn lineFeed).mapM decode? = (decode? bytes).map (·.splitOn '\n') := by
  cases hchars : decode? bytes with
  | some chars =>
    obtain rfl := decode?_eq_some_iff.mp hchars
    exact mapM_decode?_eq_some_iff.mpr (splitOn_encode chars)
  | none =>
    rw [Option.map_none, Option.eq_none_iff_forall_ne_some]
    intro rows hrows
    have hpieces := mapM_decode?_eq_some_iff.mp hrows
    have hbytes : bytes = encode (['\n'].intercalate rows) := by
      rw [encode_intercalate, ← hpieces, List.intercalate_splitOn]
    rw [decode?_eq_some_iff.mpr hbytes] at hchars
    cases hchars

/-- All lines of a file are text exactly if the file is, and then they are the lines of its text. -/
theorem readLines?_eq (content : ByteArray) :
    readLines? content = (String.fromUTF8? content).map lines := by
  unfold readLines?
  rw [mapM_decode?_splitOn, decode?_data]
  cases String.fromUTF8? content with
  | none => rfl
  | some s => rfl

end HackAssembler.Text
