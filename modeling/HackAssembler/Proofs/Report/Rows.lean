-- SUMMARY: The rows of a listing, told one by one: which instruction stands on which row.
import HackAssembler.Report.Listing

/-!
# Rows of a listing

A listing is made in one sweep that waits for the line of the next instruction. As long as
the instructions come in the order of their lines, no instruction is missed that way: each row
shows the instruction on its line, as if it had been looked for among all of them.
-/

namespace HackAssembler

namespace Listing

/-- The row of a line, with the first instruction on it. -/
def rowAt (items : List Item) (source : String × Nat) : Row where
  line := source.2
  raw := source.1
  item := items.find? fun item => item.code.line = source.2

/-- The lines of the items rise from one to the next. -/
def Rising (items : List Item) : Prop :=
  items.Pairwise fun a b => a.code.line < b.code.line

theorem rowAt_cons_of_ne {item : Item} {raw : String} {line : Nat} (h : item.code.line ≠ line)
    (rest : List Item) : rowAt (item :: rest) (raw, line) = rowAt rest (raw, line) := by
  simp [rowAt, h]

/-- The instructions that are still to be placed belong on the lines that are still to come. -/
theorem rows_foldl_step (lines : List String) (n : Nat) (items : List Item) (rows : Array Row)
    (hrising : Rising items) (hpending : ∀ item ∈ items, n ≤ item.code.line) :
    ((lines.zipIdx n).foldl step { rows, pending := items }).rows.toList =
      rows.toList ++ (lines.zipIdx n).map (rowAt items) := by
  -- by induction on the lines; that the items rise is what keeps those that wait ahead of them
  induction lines generalizing n items rows with
  | nil => simp
  | cons raw lines ih =>
    rw [List.zipIdx_cons, List.foldl_cons, List.map_cons]
    match items with
    | [] =>
      simp only [step]
      rw [ih (n + 1) [] _ hrising (by simp), Array.toList_push, List.append_assoc]
      rfl
    | item :: rest =>
      have hrest : Rising rest := (List.pairwise_cons.mp hrising).2
      have hlater : ∀ other ∈ rest, item.code.line < other.code.line :=
        (List.pairwise_cons.mp hrising).1
      have hitem : n ≤ item.code.line := hpending item List.mem_cons_self
      simp only [step]
      by_cases hline : item.code.line = n
      · -- the instruction is placed, and the rows further on do not show it again
        have hnext : ∀ other ∈ rest, n + 1 ≤ other.code.line := fun other hother => by
          have := hlater other hother
          omega
        have hrows : (lines.zipIdx (n + 1)).map (rowAt rest) =
            (lines.zipIdx (n + 1)).map (rowAt (item :: rest)) := by
          refine List.map_congr_left fun source hsource => ?_
          have hle : n + 1 ≤ source.2 := List.le_snd_of_mem_zipIdx hsource
          exact (rowAt_cons_of_ne (by omega) rest).symm
        rw [if_pos hline, ih (n + 1) rest _ hrest hnext, Array.toList_push, List.append_assoc, hrows]
        simp [rowAt, hline]
      · have hlt : n < item.code.line := Nat.lt_of_le_of_ne hitem (Ne.symm hline)
        have hnext : ∀ other ∈ item :: rest, n + 1 ≤ other.code.line :=
          List.forall_mem_cons.mpr ⟨hlt, fun other hother => by
            have := hlater other hother
            omega⟩
        have hnone : (item :: rest).find? (fun other => other.code.line = n) = none := by
          rw [List.find?_eq_none]
          intro other hother
          have := hnext other hother
          simp only [decide_eq_true_eq]
          omega
        rw [if_neg hline, ih (n + 1) (item :: rest) _ hrising hnext, Array.toList_push,
          List.append_assoc]
        simp only [rowAt, hnone, List.singleton_append]

/-- Each row of a listing shows the instruction on its line. -/
theorem rowsOf_eq {a : Assembly} (hrising : Rising a.items) (lines : List String) :
    rowsOf lines a = lines.zipIdx.map (rowAt a.items) := by
  rw [rowsOf, rows_foldl_step lines 0 a.items #[] hrising (fun _ _ => Nat.zero_le _)]
  rfl

theorem length_rowsOf {a : Assembly} (hrising : Rising a.items) (lines : List String) :
    (rowsOf lines a).length = lines.length := by
  rw [rowsOf_eq hrising, List.length_map, List.length_zipIdx]

theorem getElem?_rowsOf {a : Assembly} (hrising : Rising a.items) (lines : List String) (i : Nat) :
    (rowsOf lines a)[i]? = lines[i]?.map fun raw => rowAt a.items (raw, i) := by
  rw [rowsOf_eq hrising, List.getElem?_map, List.getElem?_zipIdx, Option.map_map, Nat.zero_add]
  rfl

/-- There is one instruction on a line at most, so it does not matter that the first one is taken. -/
theorem Rising.find?_eq_some_iff {items : List Item} (h : Rising items) {line : Nat} {item : Item} :
    items.find? (fun other => other.code.line = line) = some item ↔
      item ∈ items ∧ item.code.line = line := by
  constructor
  · intro hfind
    have hline := List.find?_some hfind
    exact ⟨List.mem_of_find?_eq_some hfind, by simpa using hline⟩
  · rintro ⟨hmem, rfl⟩
    induction items with
    | nil => cases hmem
    | cons first rest ih =>
      obtain ⟨hfirst, hrest⟩ := List.pairwise_cons.mp h
      rcases List.mem_cons.mp hmem with rfl | hmem
      · simp
      · rw [List.find?_cons_of_neg (by simpa using Nat.ne_of_lt (hfirst item hmem)), ih hrest hmem]

end Listing

/-! ## The instructions of an assembly -/

namespace Assembly

variable {a : Assembly}

theorem getElem?_items {k : Nat} {item : Item} :
    a.items[k]? = some item ↔
      a.code[k]? = some item.code ∧ a.instructions[k]? = some item.instruction ∧
        item.counter = k := by
  obtain ⟨counter, code, instruction⟩ := item
  simp only [items, List.getElem?_map, List.getElem?_zipIdx, Nat.zero_add, Option.map_map,
    Option.map_eq_some_iff, List.getElem?_zip_eq_some, Function.comp_apply, Item.mk.injEq]
  constructor
  · rintro ⟨⟨c, i⟩, ⟨hcode, hinstruction⟩, rfl, rfl, rfl⟩
    exact ⟨hcode, hinstruction, rfl⟩
  · rintro ⟨hcode, hinstruction, rfl⟩
    exact ⟨(code, instruction), ⟨hcode, hinstruction⟩, rfl, rfl, rfl⟩

theorem mem_items {item : Item} :
    item ∈ a.items ↔
      a.code[item.counter]? = some item.code ∧
        a.instructions[item.counter]? = some item.instruction := by
  constructor
  · intro hmem
    obtain ⟨k, hk⟩ := List.mem_iff_getElem?.mp hmem
    obtain ⟨hcode, hinstruction, rfl⟩ := getElem?_items.mp hk
    exact ⟨hcode, hinstruction⟩
  · rintro ⟨hcode, hinstruction⟩
    exact List.mem_of_getElem? (getElem?_items.mpr ⟨hcode, hinstruction, rfl⟩)

theorem map_code_items (hlength : a.code.length = a.instructions.length) :
    a.items.map Item.code = a.code := by
  have hfst : (a.code.zip a.instructions).map Prod.fst = a.code :=
    List.map_fst_zip (Nat.le_of_eq hlength)
  have hzip := List.zipIdx_map_fst 0 (a.code.zip a.instructions)
  calc a.items.map Item.code
      = (a.code.zip a.instructions).zipIdx.map (Prod.fst ∘ Prod.fst) := List.map_map
    _ = ((a.code.zip a.instructions).zipIdx.map Prod.fst).map Prod.fst := List.map_map.symm
    _ = a.code := by rw [hzip, hfst]

theorem rising_items (hlength : a.code.length = a.instructions.length)
    (hcode : a.code.Pairwise fun c d => c.line < d.line) : Listing.Rising a.items := by
  rw [← map_code_items hlength, List.pairwise_map] at hcode
  exact hcode

end Assembly

end HackAssembler
