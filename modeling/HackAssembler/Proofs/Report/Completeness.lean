-- SUMMARY: The listing of an assembly beside any lines: every instruction on its row, and none twice.
import HackAssembler.Proofs.Report.Agreement

/-!
# A listing beside any lines

A listing may be printed beside other lines than those of its source, and beside fewer or more of
them. Their text plays no part in where the instructions go: each stands on the row with the
number of its line, as long as there is such a row. So from top to bottom the rows count the
instructions from zero, whatever stands on the rows in between.
-/

namespace HackAssembler

namespace Listing

/-! ## Placed and pending instructions -/

/-- The instructions that have a row, followed by those that wait for one. -/
def items (l : Listing) : List Item :=
  l.rows.toList.filterMap Row.item ++ l.pending

/-- A line takes the next instruction or leaves it waiting. None is lost, and none is passed over. -/
theorem items_step (l : Listing) (source : String × Nat) : (l.step source).items = l.items := by
  obtain ⟨raw, line⟩ := source
  obtain ⟨rows, pending⟩ := l
  cases pending with
  | nil => simp [step, items]
  | cons item rest =>
    by_cases hline : item.code.line = line
    · simp [step, items, hline]
    · simp [step, items, hline]

theorem items_foldl_step (l : Listing) (sources : List (String × Nat)) :
    (sources.foldl step l).items = l.items := by
  induction sources generalizing l with
  | nil => rfl
  | cons source sources ih => rw [List.foldl_cons, ih, items_step]

/-- The rows show the instructions of an assembly in order, as far as they come. -/
theorem filterMap_item_isPrefix (lines : List String) (a : Assembly) :
    (rowsOf lines a).filterMap Row.item <+: a.items :=
  ⟨_, items_foldl_step { pending := a.items } lines.zipIdx⟩

end Listing

/-! ## Counters -/

namespace Assembly

theorem map_counter_items (a : Assembly) :
    a.items.map Item.counter = List.range a.items.length := by
  have hcounters : a.items.map Item.counter = (a.code.zip a.instructions).zipIdx.map Prod.snd :=
    List.map_map
  rw [hcounters, List.zipIdx_map_snd, List.range_eq_range']
  simp [items]

end Assembly

namespace Listing

/-- From top to bottom, the rows with an instruction count from zero. -/
theorem map_counter_rowsOf (lines : List String) (a : Assembly) :
    ((rowsOf lines a).filterMap Row.item).map Item.counter =
      List.range ((rowsOf lines a).countP fun r => r.item.isSome) := by
  -- the rows show a prefix of the items, and a prefix of a range is a range
  have hprefix := (filterMap_item_isPrefix lines a).map Item.counter
  rw [a.map_counter_items, List.prefix_iff_eq_take, List.take_range, List.length_map,
    List.length_filterMap_eq_countP] at hprefix
  have hle := (filterMap_item_isPrefix lines a).length_le
  rw [List.length_filterMap_eq_countP] at hle
  rwa [Nat.min_eq_left hle] at hprefix

end Listing

/-! ## Rows -/

namespace Assembly.OfLines

variable {source : List String} {a : Assembly} {lines : List String} {i : Nat} {r : Row}

/-- A row shows the instruction whose line has its number. -/
theorem item_eq_some_iff (h : a.OfLines source) (hr : (Listing.rowsOf lines a)[i]? = some r)
    {item : Item} :
    r.item = some item ↔
      a.code[item.counter]? = some item.code ∧
        a.instructions[item.counter]? = some item.instruction ∧ item.code.line = i := by
  rw [Listing.getElem?_rowsOf h.rising_items] at hr
  obtain ⟨raw, -, rfl⟩ := Option.map_eq_some_iff.mp hr
  simp only [Listing.rowAt, h.rising_items.find?_eq_some_iff, mem_items, and_assoc]

theorem exists_item_iff (h : a.OfLines source) (hr : (Listing.rowsOf lines a)[i]? = some r)
    {k : Nat} :
    (∃ item, r.item = some item ∧ item.counter = k) ↔ ∃ c, a.code[k]? = some c ∧ c.line = i := by
  simp only [h.item_eq_some_iff hr]
  constructor
  · rintro ⟨item, ⟨hcode, -, hline⟩, rfl⟩
    exact ⟨item.code, hcode, hline⟩
  · rintro ⟨c, hcode, hline⟩
    obtain ⟨instruction, hinstruction, -⟩ := h.built.exists_instruction hcode
    exact ⟨⟨k, c, instruction⟩, ⟨hcode, hinstruction, hline⟩, rfl⟩

end Assembly.OfLines

/-! ## The listing -/

/-- For every source that assembles and any lines to be printed beside it, the listing has one row for
each line between its header and its footer. A row shows the instruction with the number `k`
exactly if that comes from the line of the row, so every instruction whose line is printed is on one row
exactly; its text shows `k` and the digits of the word, and all other rows keep the place of both
empty. From top to bottom, the numbers start at zero and leave none out. -/
theorem listing_shows_instructions {source : List String} {a : Assembly}
    (ha : assembleLines source = .ok a) (path : String) (lines : List String) :
    let rows := Listing.rowsOf lines a
    Listing.render path lines a =
      Text.unlines (Listing.header path :: rows.map (Row.text a.symbols) ++ [Listing.footer]) ∧
    rows.length = lines.length ∧
    (∀ (i : Nat) r, rows[i]? = some r →
      r.line = i ∧ lines[i]? = some r.raw ∧
      (∀ k, (∃ item, r.item = some item ∧ item.counter = k) ↔
        ∃ c, a.code[k]? = some c ∧ c.line = i) ∧
      (∀ item, r.item = some item →
        a.code[item.counter]? = some item.code ∧
        a.instructions[item.counter]? = some item.instruction ∧
        r.text a.symbols =
          Row.lead i item ++ item.code.item.coloured a.symbols ++ " " ++ r.comment ∧
        item.ShownIn (r.text a.symbols)) ∧
      (r.item = none → r.text a.symbols = Row.margin i ++ r.label a.symbols ++ r.comment)) ∧
    (∀ (k : Nat) c, a.code[k]? = some c → c.line < lines.length →
      ∃! i : Nat, ∃ r, rows[i]? = some r ∧ ∃ item, r.item = some item ∧ item.counter = k) ∧
    (rows.filterMap Row.item).map Item.counter =
      List.range (rows.countP fun r => r.item.isSome) := by
  have h : a.OfLines source := Assembly.ofLines_of_assembleLines ha
  intro rows
  have hlength : rows.length = lines.length := Listing.length_rowsOf h.rising_items lines
  refine ⟨rfl, hlength, ?_, ?_, Listing.map_counter_rowsOf lines a⟩
  · intro i r hr
    have hrow := hr
    rw [Listing.getElem?_rowsOf h.rising_items] at hrow
    obtain ⟨raw, hraw, heq⟩ := Option.map_eq_some_iff.mp hrow
    have hline : r.line = i := heq ▸ rfl
    have htext : r.raw = raw := heq ▸ rfl
    refine ⟨hline, htext ▸ hraw, fun k => h.exists_item_iff hr, ?_, ?_⟩
    · intro item hitem
      obtain ⟨hcode, hinstruction, -⟩ := (h.item_eq_some_iff hr).mp hitem
      have htext := Row.text_of_item_eq_some hitem a.symbols
      refine ⟨hcode, hinstruction, hline ▸ htext, ?_⟩
      rw [htext]
      exact item.shownIn_row r.line _ r.comment
    · intro hnone
      exact hline ▸ Row.text_of_item_eq_none hnone a.symbols
  · intro k c hcode hlt
    -- the row of its line is one that shows it, and any other row has another line
    have hr : rows[c.line]? = some rows[c.line] := List.getElem?_eq_getElem (hlength ▸ hlt)
    refine ⟨c.line, ⟨_, hr, (h.exists_item_iff hr).mpr ⟨c, hcode, rfl⟩⟩, ?_⟩
    rintro i ⟨r, hi, hshown⟩
    obtain ⟨d, hd, hline⟩ := (h.exists_item_iff hi).mp hshown
    obtain rfl : c = d := Option.some.inj (hcode.symm.trans hd)
    exact hline.symm

/-- Beside three lines of some other text, the instructions from the first three lines are shown. -/
theorem listing_shows_instructions_beside_other_lines :
    ∃ a r item, assembleLines ["@END", "// wait", "0;JMP", "(END)", "@END"] = .ok a ∧
      ((Listing.rowsOf ["(OTHER)", "", "D=A"] a).filterMap Row.item).map Item.counter = [0, 1] ∧
      (Listing.rowsOf ["(OTHER)", "", "D=A"] a)[2]? = some r ∧ r.item = some item ∧
      item.ShownIn (r.text a.symbols) ∧
      r.text a.symbols =
        "[0001] 1110101010000111 |    3:   \x1b[32m0\x1b[39m;\x1b[31mJMP\x1b[39m " := by
  obtain ⟨a, ha, hshown⟩ := exists_of_map_toOption
    (show (assembleLines ["@END", "// wait", "0;JMP", "(END)", "@END"]).toOption.map (fun a =>
        let rows := Listing.rowsOf ["(OTHER)", "", "D=A"] a
        (rows.countP fun r => r.item.isSome,
          rows[2]?.map fun r => (r.item.isSome, r.text a.symbols))) =
      some (2, some (true,
        "[0001] 1110101010000111 |    3:   \x1b[32m0\x1b[39m;\x1b[31mJMP\x1b[39m ")) by
      decide +kernel)
  obtain ⟨hcount, hrow⟩ := Prod.mk.inj hshown
  obtain ⟨r, hr, hpair⟩ := Option.map_eq_some_iff.mp hrow
  obtain ⟨hsome, htext⟩ := Prod.mk.inj hpair
  obtain ⟨item, hitem⟩ := Option.isSome_iff_exists.mp hsome
  obtain ⟨-, -, hrows, -, hcounters⟩ := listing_shows_instructions ha "" ["(OTHER)", "", "D=A"]
  obtain ⟨-, -, -, hshows, -⟩ := hrows 2 r hr
  rw [hcount] at hcounters
  exact ⟨a, r, item, ha, hcounters, hr, hitem, (hshows item hitem).2.2.2, htext⟩

end HackAssembler
