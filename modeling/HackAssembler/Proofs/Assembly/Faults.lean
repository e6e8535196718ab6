-- SUMMARY: The error report of the first pass: which lines are faulty, and what is said of each.
import HackAssembler.Proofs.Assembly.Labels

/-!
# The report of the first pass

The pass goes on behind errors, so what it says of a line depends on what it has stored and
counted by then. Here the same is told from the lines alone: when a line is faulty, and with
which error. The pass succeeds if there is no faulty line, and otherwise it reports each of
them once, from the top down.
-/

namespace HackAssembler

namespace Source

/-! ## Faulty lines -/

/-- What can be wrong with a line. A label is tested for its place first, then against the predefined
names, and last against the labels in front of it, of which the first counts. Only lines that hold a
statement are counted or compared with, whether or not their labels were accepted. -/
inductive Faulty (lines : List String) (i : Nat) : SourceError → Prop where
  | unreadable {error : SourceError} (hline : statement? lines i = some (.error error)) :
      Faulty lines i error
  | tooFar {name : String} (hlabel : label? lines i = some name)
      (hfar : 32767 < position lines i) : Faulty lines i (.addressOutOfRange name)
  | predefined {name : String} (hlabel : label? lines i = some name)
      (hfits : position lines i ≤ 32767) (hname : name ∈ Memory.predefined.map Prod.fst) :
      Faulty lines i (.duplicateLabel name none)
  | again {name : String} {first : Nat} (hlabel : label? lines i = some name)
      (hfits : position lines i ≤ 32767) (hname : name ∉ Memory.predefined.map Prod.fst)
      (hearlier : first < i) (hdefined : label? lines first = some name)
      (hfirst : ∀ j < first, label? lines j ≠ some name) :
      Faulty lines i (.duplicateLabel name (some first))

section Faulty

variable {lines : List String} {i : Nat} {error : SourceError}

theorem Faulty.fault?_eq (h : Faulty lines i error) : fault? lines i = some error := by
  cases h with
  | unreadable hline => simp only [fault?, hline]
  | tooFar hlabel hfar => rw [fault?_of_label hlabel, labelFault?, if_pos hfar]
  | predefined hlabel hfits hname =>
    rw [fault?_of_label hlabel, labelFault?, if_neg (Nat.not_lt.mpr hfits), if_pos hname]
  | again hlabel hfits hname hearlier hdefined hfirst =>
    have hdefinition := definition?_eq_some_iff.mpr ⟨hearlier, hdefined, hfirst⟩
    rw [fault?_of_label hlabel, labelFault?, if_neg (Nat.not_lt.mpr hfits), if_neg hname,
      hdefinition]
    rfl

theorem faulty_of_labelFault? {name : String} (hlabel : label? lines i = some name)
    (h : labelFault? lines i name = some error) : Faulty lines i error := by
  unfold labelFault? at h
  by_cases hfar : 32767 < position lines i
  · rw [if_pos hfar] at h
    obtain rfl := Option.some.inj h
    exact .tooFar hlabel hfar
  · have hfits : position lines i ≤ 32767 := Nat.not_lt.mp hfar
    rw [if_neg hfar] at h
    -- the tests come in the order in which the errors take precedence
    by_cases hname : name ∈ Memory.predefined.map Prod.fst
    · rw [if_pos hname] at h
      obtain rfl := Option.some.inj h
      exact .predefined hlabel hfits hname
    · rw [if_neg hname] at h
      obtain ⟨first, hdefinition, rfl⟩ := Option.map_eq_some_iff.mp h
      obtain ⟨hearlier, hdefined, hfirst⟩ := definition?_eq_some_iff.mp hdefinition
      exact .again hlabel hfits hname hearlier hdefined hfirst

theorem faulty_iff : Faulty lines i error ↔ fault? lines i = some error := by
  constructor
  · exact Faulty.fault?_eq
  · intro h
    match hline : statement? lines i with
    | none => simp [fault?, hline] at h
    | some (.ok (.code code)) => simp [fault?, hline] at h
    | some (.ok (.label name)) =>
      have hlabel : label? lines i = some name := label?_eq_some_iff.mpr hline
      exact faulty_of_labelFault? hlabel (fault?_of_label hlabel ▸ h)
    | some (.error e) =>
      simp only [fault?, hline, Option.some.injEq] at h
      exact .unreadable (h ▸ hline)

/-- A line that a source does not have is not faulty. -/
theorem Faulty.lt_length (h : Faulty lines i error) : i < lines.length := by
  by_contra hge
  have hline : lines[i]? = none := List.getElem?_eq_none (Nat.not_lt.mp hge)
  have hfault := h.fault?_eq
  simp [fault?, statement?, hline] at hfault

end Faulty

/-! ## The report -/

/-- What is found line by line comes in the order of the lines, once for each line at most. -/
theorem pairwise_before {α : Type} (item? : Nat → Option α) (n : Nat) :
    (before (fun i => (item? i).map (Located.mk i)) n).Pairwise fun a b => a.line < b.line := by
  refine List.pairwise_lt_range.filterMap _ ?_
  intro i j hlt a ha b hb
  obtain ⟨_, -, rfl⟩ := Option.map_eq_some_iff.mp ha
  obtain ⟨_, -, rfl⟩ := Option.map_eq_some_iff.mp hb
  exact hlt

theorem mem_faults {lines : List String} {i : Nat} {error : SourceError} :
    ⟨i, error⟩ ∈ faults lines ↔ Faulty lines i error := by
  unfold faults
  rw [mem_before, faulty_iff]
  constructor
  · rintro ⟨j, -, hj⟩
    obtain ⟨e, hfault, he⟩ := Option.map_eq_some_iff.mp hj
    obtain ⟨rfl, rfl⟩ := Located.mk.inj he
    exact hfault
  · intro hfault
    exact ⟨i, (faulty_iff.mpr hfault).lt_length, by rw [hfault]; rfl⟩

theorem faults_eq_nil_iff_forall_not_faulty {lines : List String} :
    faults lines = [] ↔ ∀ i error, ¬ Faulty lines i error := by
  rw [List.eq_nil_iff_forall_not_mem]
  exact ⟨fun h i error => mt mem_faults.mpr (h ⟨i, error⟩), fun h e => mt mem_faults.mp (h _ _)⟩

/-- The first pass succeeds exactly if no line is faulty. Otherwise it reports every faulty line with
its error, in the order of the lines and none twice. -/
theorem ofLines_reports_faulty_lines (lines : List String) :
    ((∃ p, Program.ofLines lines = .ok p) ↔ ∀ i error, ¬ Faulty lines i error) ∧
    ((∃ i error, Faulty lines i error) →
      ∃ errors, Program.ofLines lines = .error errors ∧
        errors.Pairwise (fun e f => e.line < f.line) ∧
        ∀ i error, ⟨i, error⟩ ∈ errors ↔ Faulty lines i error) := by
  rw [Program.ofLines_eq, ← faults_eq_nil_iff_forall_not_faulty]
  constructor
  · by_cases hfaults : faults lines = []
    · simp [hfaults]
    · simp [hfaults]
  · rintro ⟨i, error, hfaulty⟩
    have hfaults : faults lines ≠ [] := List.ne_nil_of_mem (mem_faults.mpr hfaulty)
    rw [if_neg hfaults]
    exact ⟨faults lines, rfl, pairwise_before _ _, fun _ _ => mem_faults⟩

example : faults ["@1", "D=;JMP", "(L)", "(L)", "(SP)"] =
    [⟨1, .malformedCompute "D=;JMP"⟩, ⟨3, .duplicateLabel "L" (some 2)⟩,
     ⟨4, .duplicateLabel "SP" none⟩] := by decide +kernel

end Source

end HackAssembler
