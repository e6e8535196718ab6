-- SUMMARY: Appended code: when it leaves the words and the names in front of it as they are.
import HackAssembler.Proofs.Assembly.Binary
import HackAssembler.Proofs.Assembly.Concatenation

/-!
# Appending

Lines may be appended to a source as long as they define no label that is referenced in front
of them. Such a reference used to be a variable and would become a label. Everything else
stays: the labels and variables of the source keep their addresses, and so its words are the
first ones of the longer source. The labels of the appended lines are bound before any variable
is, so the longer table does not start with the shorter one, but it has all of its entries.
-/

namespace HackAssembler

namespace Source

variable {p q : List String} {name : String} {i : Nat}

theorem label?_append_of_left (hi : label? p i = some name) : label? (p ++ q) i = some name := by
  rw [label?_append_left (lt_length_of_label? hi), hi]

theorem WellLabelled.of_append (h : WellLabelled (p ++ q)) : WellLabelled p where
  readable line hline := h.readable line (List.mem_append_left q hline)
  label_free i name hi := h.label_free i name (label?_append_of_left hi)
  label_once i j name hi hj :=
    h.label_once i j name (label?_append_of_left hi) (label?_append_of_left hj)
  label_fits i name hi := by
    have hfits := h.label_fits i name (label?_append_of_left hi)
    rwa [position_append_left (Nat.le_of_lt (lt_length_of_label? hi))] at hfits

/-! ## Names in front -/

theorem isVariable_append_iff (hname : name ∉ labelNames q) :
    IsVariable (p ++ q) name ↔ IsVariable p name := by
  simp [isVariable_iff, labelNames_append, hname]

section Free

variable (hfree : ∀ name ∈ references p, name ∉ labelNames q)

include hfree

theorem filter_references_append {names : List String} (hnames : names ⊆ references p) :
    (names.filter fun name => IsVariable (p ++ q) name) =
      names.filter fun name => IsVariable p name := by
  refine List.filter_congr fun name hname => ?_
  rw [decide_eq_decide]
  exact isVariable_append_iff (hfree name (hnames hname))

theorem exists_variableNames_append :
    ∃ rest, variableNames (p ++ q) = variableNames p ++ rest := by
  unfold variableNames
  rw [references_append, List.filter_append,
    filter_references_append hfree (List.Subset.refl _), List.eraseDups_append]
  exact ⟨_, rfl⟩

theorem WellFormed.of_append (h : WellFormed (p ++ q)) : WellFormed p where
  toWellLabelled := h.toWellLabelled.of_append
  variables_fit := by
    obtain ⟨rest, hrest⟩ := exists_variableNames_append hfree
    have hfit := h.variables_fit
    rw [hrest, List.length_append] at hfit
    omega

theorem variablesBefore_append (hname : name ∈ references p) :
    variablesBefore (p ++ q) name = variablesBefore p name := by
  obtain ⟨pre, post, hsplit, hpre⟩ := List.eq_append_cons_of_mem hname
  have hsubset : pre ⊆ references p := by
    rw [hsplit]
    exact List.subset_append_left _ _
  -- the first reference lies in front of the appended lines, so these are not looked at
  unfold variablesBefore
  rw [references_append, hsplit, List.append_assoc, List.cons_append,
    List.takeWhile_ne_append_cons hpre, List.takeWhile_ne_append_cons hpre,
    filter_references_append hfree hsubset]

theorem address_append (h : WellLabelled (p ++ q)) (hname : name ∈ references p) :
    address (p ++ q) name = address p name := by
  -- what the name is in the first part decides, and the appended lines do not turn it into a label
  rcases exists_lookup_or_label_or_isVariable p name with ⟨a, ha⟩ | ⟨i, hi⟩ | hvariable
  · rw [address_of_predefined ha, address_of_predefined ha]
  · rw [h.address_of_label (label?_append_of_left hi), h.of_append.address_of_label hi,
      position_append_left (Nat.le_of_lt (lt_length_of_label? hi))]
  · have hvariable' := (isVariable_append_iff (hfree name hname)).mpr hvariable
    rw [address_of_variable hvariable', address_of_variable hvariable,
      variablesBefore_append hfree hname]

theorem word_append (h : WellLabelled (p ++ q)) {c : Located Code} (hc : c ∈ instructions p) :
    word (p ++ q) c.item = word p c.item := by
  match hitem : c.item with
  | .address (.literal value) => rfl
  | .compute dest comp jump => rfl
  | .address (.symbol name) =>
    refine address_append hfree h (List.mem_filterMap.mpr ⟨c, hc, ?_⟩)
    rw [hitem]
    rfl

end Free

theorem labelEntry_append {l : Located String} (hl : l ∈ labels p) :
    labelEntry (p ++ q) l = labelEntry p l := by
  have hlt := lt_length_of_label? (mem_labels.mp hl)
  rw [labelEntry, labelEntry, position_append_left (Nat.le_of_lt hlt)]

end Source

/-! ## Words and entries in front -/

open Source

section Append

variable {p q : List String} {a b : Assembly}

theorem Assembly.Holds.words_isPrefix (ha : a.Holds (p ++ q)) (hb : b.Holds p)
    (hfree : ∀ name ∈ references p, name ∉ labelNames q) : b.words <+: a.words := by
  rw [← List.prefix_map_iff_of_injective (fun _ _ => BitVec.eq_of_toNat_eq), ha.words_eq,
    hb.words_eq, instructions_append, List.map_append]
  have hwords : (Source.instructions p).map (fun c => word (p ++ q) c.item) =
      (Source.instructions p).map fun c => word p c.item :=
    List.map_congr_left fun c hc => word_append hfree ha.wellFormed.toWellLabelled hc
  rw [hwords]
  exact List.prefix_append _ _

theorem Assembly.Holds.entries_subset (ha : a.Holds (p ++ q)) (hb : b.Holds p)
    (hfree : ∀ name ∈ references p, name ∉ labelNames q) :
    b.symbols.entries ⊆ a.symbols.entries := by
  have hlabels : (labels p).map (labelEntry (p ++ q)) = (labels p).map (labelEntry p) :=
    List.map_congr_left fun l hl => labelEntry_append hl
  obtain ⟨rest, hvariables⟩ := exists_variableNames_append hfree
  rw [ha.entries_eq, hb.entries_eq, labels_append, List.map_append, hlabels, hvariables,
    List.mapIdx_append]
  intro e he
  simp only [List.mem_append] at he ⊢
  tauto

/-- If a source assembles, and no label of its second part is referenced in the first, then the
first part assembles by itself. Its words are the first ones of the whole source, and every name
that it binds has the same address and kind there. -/
theorem assembleLines_of_append (ha : assembleLines (p ++ q) = .ok a)
    (hfree : ∀ name ∈ references p, name ∉ labelNames q) :
    ∃ b, assembleLines p = .ok b ∧ b.words <+: a.words ∧
      ∀ e ∈ b.symbols.entries, e ∈ a.symbols.entries := by
  have hwhole : a.Holds (p ++ q) := Assembly.holds_of_assembleLines ha
  obtain ⟨b, hb⟩ := exists_assembleLines (hwhole.wellFormed.of_append hfree)
  have hpart : b.Holds p := Assembly.holds_of_assembleLines hb
  exact ⟨b, hb, hwhole.words_isPrefix hpart hfree, fun _ he =>
    hwhole.entries_subset hpart hfree he⟩

end Append

/-- The appended lines define a label and use a variable of their own. In the longer table the label
comes in front of the variable `i`, which keeps its address. -/
theorem assembleLines_of_append_loop :
    let p := ["(TOP)", "@i", "M=M+1", "@TOP"]
    let q := ["0;JMP", "(END)", "@j", "@END", "@i"]
    (∀ name ∈ references p, name ∉ labelNames q) ∧
    ∃ a b, assembleLines (p ++ q) = .ok a ∧ assembleLines p = .ok b ∧
      a.symbols.entries.drop 23 =
        [("TOP", ⟨0, .label 0⟩), ("END", ⟨4, .label 5⟩), ("i", ⟨16, .var⟩), ("j", ⟨17, .var⟩)] ∧
      b.words <+: a.words ∧ ∀ e ∈ b.symbols.entries, e ∈ a.symbols.entries := by
  intro p q
  have hfree : ∀ name ∈ references p, name ∉ labelNames q := by decide +kernel
  obtain ⟨a, ha, hentries⟩ := exists_of_map_toOption
    (show (assembleLines (p ++ q)).toOption.map (·.symbols.entries.drop 23) =
      some [("TOP", ⟨0, .label 0⟩), ("END", ⟨4, .label 5⟩), ("i", ⟨16, .var⟩), ("j", ⟨17, .var⟩)] by
        decide +kernel)
  obtain ⟨b, hb, hwords, hsubset⟩ := assembleLines_of_append ha hfree
  exact ⟨hfree, a, b, ha, hb, hentries, hwords, hsubset⟩

/-- A label that is referenced in front of it takes the place of a variable. -/
example :
    (assembleLines ["@i"]).toOption.map Assembly.words = some [16] ∧
    (assembleLines (["@i"] ++ ["(i)"])).toOption.map Assembly.words = some [1] := by
  decide +kernel

end HackAssembler
