-- SUMMARY: Destinations as words of letters: in which order they may be written, and in which they are printed.
import HackAssembler.Proofs.Machine.Mnemonics

/-!
# Words of letters

A destination is a set, and the letters of a set may be written in any order. One order is
that of the printed text. So every word that is read comes back as one of its own
permutations, and always as the same one.
-/

namespace HackAssembler.Destination

variable {s t : List Char} {r : Destination}

/-! ## Order -/

theorem Distinct.of_perm (h : Distinct s) (hperm : s.Perm t) : Distinct t where
  nodup := hperm.nodup_iff.mp h.nodup
  letter := fun c hc => h.letter c (hperm.mem_iff.mpr hc)

theorem ofLetters_congr (h : ∀ c, c ∈ s ↔ c ∈ t) : ofLetters s = ofLetters t := by
  simp only [ofLetters, h]

theorem Written.eq_null_or_letters {w : String} (h : Written r w) :
    w = "null" ∧ r = empty ∨ w ≠ "" ∧ Distinct w.toList ∧ r = ofLetters w.toList := by
  cases h with
  | null => exact .inl ⟨rfl, rfl⟩
  | letters hne hs => exact .inr (by simpa using ⟨hne, hs⟩)

/-- The letters of a word may change places. The word `null` is not made of letters. -/
theorem Written.of_perm {w v : String} (h : Written r w) (hnull : w ≠ "null")
    (hperm : w.toList.Perm v.toList) : Written r v := by
  rcases h.eq_null_or_letters with ⟨heq, -⟩ | ⟨hne, hw, rfl⟩
  · exact absurd heq hnull
  · have hne' : v ≠ "" := by
      rintro rfl
      exact hne (String.toList_eq_nil_iff.mp hperm.eq_nil)
    rw [ofLetters_congr fun c => hperm.mem_iff]
    exact .of_letters hne' (hw.of_perm hperm)

/-! ## Printing -/

theorem distinct_letters (r : Destination) : Distinct r.letters := by
  obtain ⟨a, d, m, other⟩ := r
  cases a <;> cases d <;> cases m <;> exact ⟨by simp [letters], by simp [letters]⟩

theorem sublist_letters (r : Destination) : r.letters.Sublist ['A', 'D', 'M'] := by
  obtain ⟨a, d, m, other⟩ := r
  cases a <;> cases d <;> cases m <;> simp [letters]

theorem ofLetters_letters (h : r.other = 0) : ofLetters r.letters = r := by
  obtain ⟨a, d, m, other⟩ := r
  obtain rfl : other = 0 := h
  cases a <;> cases d <;> cases m <;> rfl

theorem mem_letters_ofLetters {c : Char} :
    c ∈ (ofLetters s).letters ↔ c ∈ ['A', 'D', 'M'] ∧ c ∈ s := by
  simp only [letters, ofLetters, decide_eq_true_eq, List.mem_append, List.mem_ite_nil_right,
    List.mem_cons, List.not_mem_nil, or_false]
  grind

theorem perm_letters (h : Distinct s) : (ofLetters s).letters.Perm s := by
  refine (List.perm_ext_iff_of_nodup (distinct_letters _).nodup h.nodup).mpr fun c => ?_
  rw [mem_letters_ofLetters]
  exact and_iff_right_of_imp (h.letter c)

theorem text_of_letters_ne_nil (h : r.letters ≠ []) : r.text = String.ofList r.letters := by
  have hne : r ≠ empty := by
    rintro rfl
    exact h rfl
  simp [text, isEmpty, hne]

theorem Written.other_eq {w : String} (h : Written r w) : r.other = 0 := by
  cases h <;> rfl

/-- A destination is printed in one of the ways in which it may be written. -/
theorem written_text (h : r.other = 0) : r.Written r.text := by
  by_cases hempty : r = empty
  · subst hempty
    exact .null
  · have hne : r.letters ≠ [] := by
      intro hnil
      have hr := ofLetters_letters h
      rw [hnil] at hr
      exact hempty hr.symm
    have hwritten : (ofLetters r.letters).Written (String.ofList r.letters) :=
      .letters hne r.distinct_letters
    rwa [ofLetters_letters h, ← text_of_letters_ne_nil hne] at hwritten

/-- What is read as a word of letters is printed as the same letters in printing order. -/
theorem toList_text_ofLetters (hne : s ≠ []) (h : Distinct s) :
    (ofLetters s).text.toList.Perm s ∧ (ofLetters s).text.toList.Sublist ['A', 'D', 'M'] := by
  have hperm : (ofLetters s).letters.Perm s := perm_letters h
  have hletters : (ofLetters s).letters ≠ [] := by
    intro hnil
    rw [hnil] at hperm
    exact hne hperm.nil_eq.symm
  rw [text_of_letters_ne_nil hletters, String.toList_ofList]
  exact ⟨hperm, sublist_letters _⟩

/-! ## Reading -/

/-- A text is read as a destination exactly if it is `null` or a word of different letters, and what is
read is the set of its letters. The order of the letters plays no part. What is printed is the
permutation of the word in printing order, or `null` again, and it is read as the same set. -/
theorem parse_takes_words (w : String) :
    (∀ r, parse w = .ok r ↔
      w = "null" ∧ r = empty ∨
        w ≠ "" ∧ (∀ c ∈ w.toList, c ∈ ['A', 'D', 'M']) ∧ w.toList.Nodup ∧
          r = ofLetters w.toList) ∧
    (∀ v, w ≠ "null" → v ≠ "null" → w.toList.Perm v.toList →
      ∀ r, parse w = .ok r ↔ parse v = .ok r) ∧
    ∀ r, parse w = .ok r →
      (w = "null" ∧ r.text = "null" ∨
        r.text.toList.Perm w.toList ∧ r.text.toList.Sublist ['A', 'D', 'M']) ∧
      parse r.text = .ok r := by
  simp only [parse_eq_ok_iff]
  refine ⟨fun r => ⟨fun h => ?_, ?_⟩, fun v hw hv hperm r => ⟨fun h => ?_, fun h => ?_⟩,
    fun r h => ⟨?_, written_text h.other_eq⟩⟩
  · rcases h.eq_null_or_letters with hnull | ⟨hne, hletters, hr⟩
    · exact .inl hnull
    · exact .inr ⟨hne, hletters.letter, hletters.nodup, hr⟩
  · rintro (⟨rfl, rfl⟩ | ⟨hne, hletter, hnodup, rfl⟩)
    · exact .null
    · exact .of_letters hne ⟨hnodup, hletter⟩
  · exact h.of_perm hw hperm
  · exact h.of_perm hv hperm.symm
  · rcases h.eq_null_or_letters with ⟨hnull, rfl⟩ | ⟨hne, hletters, rfl⟩
    · exact .inl ⟨hnull, rfl⟩
    · exact .inr (toList_text_ofLetters (mt String.toList_eq_nil_iff.mp hne) hletters)

theorem parse_takes_words_mda :
    let r : Destination := { a := true, d := true, m := true }
    parse "MDA" = .ok r ∧ parse "DAM" = .ok r ∧
      r.text.toList.Perm "MDA".toList ∧ r.text.toList.Sublist ['A', 'D', 'M'] ∧
      parse r.text = .ok r := by
  intro r
  obtain ⟨hread, horder, hprint⟩ := parse_takes_words "MDA"
  have h : parse "MDA" = .ok r :=
    (hread r).mpr (.inr ⟨by decide, by simp, by decide, by decide⟩)
  have hother : parse "DAM" = .ok r :=
    (horder "DAM" (by decide) (by decide) (by decide) r).mp h
  obtain ⟨hnull | hword, hback⟩ := hprint r h
  · exact absurd hnull.1 (by decide)
  · exact ⟨h, hother, hword.1, hword.2, hback⟩

end HackAssembler.Destination
