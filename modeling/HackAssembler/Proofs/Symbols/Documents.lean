-- SUMMARY: The document of a symbol table tells the table, with the counter that is not written in it.
import Std.Data.String.ToNat
import HackAssembler.Symbols.Yaml
import HackAssembler.Proofs.Source.Grammar
import HackAssembler.Proofs.Symbols.Persistence
import HackAssembler.Proofs.Text.Pieces

/-!
# Documents of symbol tables

A document has three lines for each entry, behind a line of its own. Whether a name is quoted and
whether it is introduced by a question mark can be seen from these lines, because no name contains
a mark of the document, so each entry is told by its lines. The next free word is not written: it
is known from the number of variables, as long as the table has been made by calls.
-/

/-! ## Lists -/

namespace List

/-- Blocks of one length can be told apart in a row if each of them tells what it stands for. -/
theorem eq_of_flatMap_eq {α β : Type} {f : α → List β} {n : Nat}
    (hlength : ∀ a, (f a).length = n + 1) {xs ys : List α}
    (hinj : ∀ a ∈ xs, ∀ b ∈ ys, f a = f b → a = b) (h : xs.flatMap f = ys.flatMap f) : xs = ys := by
  have hne : ∀ a, f a ≠ [] := fun a hnil => by simpa [hnil] using hlength a
  induction xs generalizing ys with
  | nil =>
    cases ys with
    | nil => rfl
    | cons b ys => simp [eq_comm (a := []), hne] at h
  | cons a xs ih =>
    cases ys with
    | nil => simp [hne] at h
    | cons b ys =>
      rw [flatMap_cons, flatMap_cons] at h
      -- the first blocks end at the same place, so they are the same, and so is what follows
      obtain ⟨hblock, hrest⟩ := append_inj h ((hlength a).trans (hlength b).symm)
      have hrow : xs = ys :=
        ih (fun c hc d hd => hinj c (mem_cons_of_mem a hc) d (mem_cons_of_mem b hd)) hrest
      rw [hinj a mem_cons_self b mem_cons_self hblock, hrow]

end List

namespace HackAssembler

theorem Text.unlines_eq_ofRows (rows : List String) : unlines rows = ofRows rows := rfl

/-- Rows are read off their text if none of them contains a line feed. -/
theorem Text.eq_of_unlines_eq {rows others : List String} (hrows : ∀ row ∈ rows, '\n' ∉ row.toList)
    (hothers : ∀ row ∈ others, '\n' ∉ row.toList) (h : unlines rows = unlines others) :
    rows = others := by
  have hsplit : ∀ rows : List String, (∀ row ∈ rows, '\n' ∉ row.toList) →
      (unlines rows).toList.splitOn '\n' = rows.map String.toList ++ [[]] := by
    intro rows hrows
    rw [unlines_eq_ofRows, toList_ofRows]
    refine List.splitOn_flatMap_concat fun row hrow => ?_
    obtain ⟨s, hs, rfl⟩ := List.mem_map.mp hrow
    exact hrows s hs
  have hlists := hsplit rows hrows
  rw [h, hsplit others hothers] at hlists
  exact (List.map_injective_iff.mpr (fun _ _ => String.toList_inj.mp)
    (List.append_cancel_right hlists)).symm

/-! ## Names -/

theorem IsName.not_mem {name : String} (h : IsName name) {c : Char} (hc : isSymbolChar c = false) :
    c ∉ name.toList := by
  intro hmem
  rw [isSymbolChar_iff.mpr (h.nameChar c hmem)] at hc
  cases hc

namespace Yaml

/-- The quotation mark of documents is no character of names, so a name is told by what is written
for it, whether or not it is quoted. -/
theorem eq_of_scalar_eq {name other : String} (hname : IsName name) (hother : IsName other)
    (h : scalar name = scalar other) : name = other := by
  have hquote : isSymbolChar '\x27' = false := by decide
  unfold scalar at h
  by_cases hquoted : needsQuotes name = true <;> by_cases hquoted' : needsQuotes other = true <;>
    simp only [hquoted, hquoted', if_true, Bool.false_eq_true, if_false] at h
  · exact (String.append_right_inj _).mp ((String.append_left_inj _).mp h)
  · exact absurd (by simp [← h]) (hother.not_mem hquote)
  · exact absurd (by simp [h]) (hname.not_mem hquote)
  · exact h

theorem lineFeed_not_mem_scalar {name : String} (h : IsName name) : '\n' ∉ (scalar name).toList := by
  have hfeed : '\n' ∉ name.toList := h.not_mem (by decide)
  unfold scalar
  split
  · simpa using hfeed
  · exact hfeed

/-! ## Numbers and kinds -/

theorem lineFeed_not_mem_toDigits (n : Nat) : '\n' ∉ Nat.toDigits 10 n := by
  intro hmem
  have hdigit : ('\n' : Char).isDigit = true :=
    Nat.isDigit_of_mem_toDigits (by omega) (by omega) hmem
  exact absurd hdigit (by decide)

theorem kind_label (line : Nat) : kind (.label line) = "!label " ++ line.repr := by
  simp [kind, toString]

theorem lineFeed_not_mem_kind (k : SymbolKind) : '\n' ∉ (kind k).toList := by
  cases k with
  | predefined => decide
  | label line =>
    have hnumber := lineFeed_not_mem_toDigits line
    simpa [kind_label] using hnumber
  | var => decide

theorem eq_of_kind_eq {k l : SymbolKind} (h : kind k = kind l) : k = l := by
  -- the three kinds start with different characters
  have hhead : (kind k).toList.head? = (kind l).toList.head? := by rw [h]
  have hlabel : ∀ line, (kind (.label line)).toList.head? = some '!' := by simp [kind_label]
  cases k with
  | predefined =>
    cases l with
    | predefined => rfl
    | label other => simp [hlabel, kind.eq_1] at hhead
    | var => simp [kind] at hhead
  | label line =>
    cases l with
    | predefined => simp [hlabel, kind.eq_1] at hhead
    | label other =>
      rw [kind_label, kind_label, String.append_right_inj, Nat.repr_inj] at h
      rw [h]
    | var => simp [hlabel, kind.eq_3] at hhead
  | var =>
    cases l with
    | predefined => simp [kind] at hhead
    | label other => simp [hlabel, kind.eq_3] at hhead
    | var => rfl

/-! ## Entries -/

/-- The line that starts an entry. -/
def keyLine (name : String) : String :=
  if name.utf8ByteSize ≤ simpleKeyLimit then "  " ++ scalar name ++ ":" else "  ? " ++ scalar name

/-- What stands in front of the address: a second mark belongs to a key with a question mark. -/
def valueMark (name : String) : String :=
  if name.utf8ByteSize ≤ simpleKeyLimit then "    " else "  : "

theorem entry_eq (name : String) (symbol : Symbol) :
    entry name symbol =
      [keyLine name, valueMark name ++ ("addr: " ++ symbol.address.toNat.repr),
        "    kind: " ++ kind symbol.kind] := by
  unfold entry keyLine valueMark
  split <;> simp [toString]

theorem length_entry (name : String) (symbol : Symbol) : (entry name symbol).length = 3 := by
  simp [entry_eq]

theorem lineFeed_not_mem_entry {name : String} (h : IsName name) (symbol : Symbol) :
    ∀ row ∈ entry name symbol, '\n' ∉ row.toList := by
  have hscalar := lineFeed_not_mem_scalar h
  have haddress := lineFeed_not_mem_toDigits symbol.address.toNat
  have hkind := lineFeed_not_mem_kind symbol.kind
  rw [entry_eq]
  unfold keyLine valueMark
  split <;> simp [hscalar, haddress, hkind]

/-- The line of the address tells by its mark how the name is introduced. -/
theorem eq_of_valueMark_eq {name other text text' : String}
    (h : valueMark name ++ ("addr: " ++ text) = valueMark other ++ ("addr: " ++ text')) :
    (name.utf8ByteSize ≤ simpleKeyLimit ↔ other.utf8ByteSize ≤ simpleKeyLimit) ∧ text = text' := by
  unfold valueMark at h
  split at h <;> split at h <;> rename_i hname hother
  · exact ⟨iff_of_true hname hother, by simpa using h⟩
  · exact absurd (congrArg String.toList h) (by simp)
  · exact absurd (congrArg String.toList h) (by simp)
  · exact ⟨iff_of_false hname hother, by simpa using h⟩

theorem eq_of_entry_eq {name other : String} {symbol symbol' : Symbol} (hname : IsName name)
    (hother : IsName other) (h : entry name symbol = entry other symbol') :
    (name, symbol) = (other, symbol') := by
  obtain ⟨address, k⟩ := symbol
  obtain ⟨address', k'⟩ := symbol'
  simp only [entry_eq, List.cons.injEq, and_true, String.append_right_inj] at h
  obtain ⟨hkey, hvalue, hkind⟩ := h
  obtain ⟨hlong, haddress⟩ := eq_of_valueMark_eq hvalue
  -- only after the line of the value is it known that both keys are written in the same way
  have hscalar : scalar name = scalar other := by
    unfold keyLine at hkey
    by_cases hshort : name.utf8ByteSize ≤ simpleKeyLimit
    · simpa [hshort, hlong.mp hshort] using hkey
    · simpa [hshort, mt hlong.mpr hshort] using hkey
  rw [eq_of_scalar_eq hname hother hscalar, eq_of_kind_eq hkind,
    BitVec.eq_of_toNat_eq (Nat.repr_inj.mp haddress)]

/-! ## Documents -/

/-- Entries with names that are names are read off their document. -/
theorem entries_eq_of_render_eq {t u : SymbolTable} (ht : ∀ name ∈ t.names, IsName name)
    (hu : ∀ name ∈ u.names, IsName name) (h : render t = render u) : t.entries = u.entries := by
  have hrows : ∀ t : SymbolTable, (∀ name ∈ t.names, IsName name) →
      ∀ row ∈ "symbols:" :: t.entries.flatMap fun e => entry e.1 e.2, '\n' ∉ row.toList := by
    intro t ht row hrow
    rcases List.mem_cons.mp hrow with rfl | hrow
    · decide
    · obtain ⟨e, hentry, hrow⟩ := List.mem_flatMap.mp hrow
      exact lineFeed_not_mem_entry (ht e.1 (List.mem_map_of_mem hentry)) e.2 row hrow
  have hlines := Text.eq_of_unlines_eq (hrows t ht) (hrows u hu) h
  refine List.eq_of_flatMap_eq (fun e => length_entry e.1 e.2) ?_ (List.cons.inj hlines).2
  intro a ha b hb hentry
  exact eq_of_entry_eq (ht a.1 (List.mem_map_of_mem ha)) (hu b.1 (List.mem_map_of_mem hb)) hentry

end Yaml

/-! ## Tables made by calls -/

namespace SymbolTable

/-- A call brings no other name into a table than its own. -/
theorem mem_names_run {t : SymbolTable} {call : Call} {name : String}
    (h : name ∈ (call.run t).names) : name ∈ t.names ∨ call.name? = some name := by
  cases hname : call.name? with
  | none =>
    rw [(run_of_nameless hname).2] at h
    exact .inl h
  | some own =>
    cases hfind : t.find? own with
    | some symbol =>
      rw [run_of_bound hname hfind] at h
      exact .inl h
    | none =>
      rcases run_of_free hname hfind with ⟨-, hrun⟩ | ⟨-, hentries⟩
      · rw [hrun] at h
        exact .inl h
      · rw [names, hentries, List.map_append, List.mem_append] at h
        refine h.imp_right fun hown => ?_
        rw [List.mem_singleton.mp hown]

/-- Names only come in through calls. -/
theorem isName_of_mem_names_after {t : SymbolTable} {calls : List Call}
    (ht : ∀ name ∈ t.names, IsName name)
    (hcalls : ∀ call ∈ calls, ∀ name, call.name? = some name → IsName name) :
    ∀ name ∈ (t.after calls).names, IsName name := by
  induction calls generalizing t with
  | nil => exact ht
  | cons call calls ih =>
    refine ih ?_ fun other hother => hcalls other (List.mem_cons_of_mem call hother)
    intro name hname
    rcases mem_names_run hname with hold | hown
    · exact ht name hold
    · exact hcalls call List.mem_cons_self name hown

/-- Two tables that calls about names have made of the initial one are the same, in all that they
answer from then on, if their documents are the same. -/
theorem after_eq_of_render_eq {calls others : List Call}
    (hcalls : ∀ call ∈ calls, ∀ name, call.name? = some name → IsName name)
    (hothers : ∀ call ∈ others, ∀ name, call.name? = some name → IsName name)
    (h : Yaml.render (initial.after calls) = Yaml.render (initial.after others)) :
    initial.after calls = initial.after others := by
  have hinitial : ∀ name ∈ initial.names, IsName name := by
    rw [names_initial]
    exact fun name => isName_of_mem_predefined
  have hentries := Yaml.entries_eq_of_render_eq (isName_of_mem_names_after hinitial hcalls)
    (isName_of_mem_names_after hinitial hothers) h
  exact (invariant_after_initial calls).eq_of_entries_eq (invariant_after_initial others) hentries

/-- Calls that fail or find their name bound leave no trace, neither in the document nor in the table.
Here two names are quoted, and one is too long for the line of its value. -/
theorem after_eq_of_render_eq_retried :
    let long := String.ofList (List.replicate 129 'x')
    let calls : List Call :=
      [.defineLabel "LOOP" 40000 3, .resolve "null", .resolve ".5e3", .resolve long]
    let others : List Call :=
      [.defineLabel "LOOP" 40000 3, .defineLabel "LOOP" 7 9, .resolve "null",
        .resolveCode (.address (.symbol "LOOP")), .resolve ".5e3", .resolve "null", .resolve long]
    (∀ call ∈ calls ++ others, ∀ name, call.name? = some name → IsName name) ∧
    Yaml.render (initial.after calls) = Yaml.render (initial.after others) ∧
    initial.after calls = initial.after others := by
  intro long calls others
  have hnames : ∀ call ∈ calls ++ others, ∀ name, call.name? = some name → IsName name := by
    have hall : ∀ call ∈ calls ++ others, call.name?.all isSymbol = true := by decide +kernel
    intro call hcall name hname
    have hsymbol := hall call hcall
    rw [hname] at hsymbol
    exact isSymbol_iff.mp hsymbol
  have hentries : (initial.after calls).entries = (initial.after others).entries := by
    decide +kernel
  have hrender : Yaml.render (initial.after calls) = Yaml.render (initial.after others) := by
    rw [Yaml.render, hentries]
    rfl
  exact ⟨hnames, hrender, after_eq_of_render_eq
    (fun call hcall => hnames call (List.mem_append_left others hcall))
    (fun call hcall => hnames call (List.mem_append_right calls hcall)) hrender⟩

end SymbolTable

end HackAssembler
