-- SUMMARY: Which runs keep their source, and which replace it by its own binary.
import HackAssembler.Proofs.Command.Extensions
import HackAssembler.Proofs.Command.Outcomes

/-!
# The source of a run

Without a path for the binary, it goes beside the source, under the name of the source with
another extension. The two paths lead through the same directory, so they meet at one place only
if they are the same path. That is so for a source that has the extension already. Such a source
is replaced by its own binary.
-/

namespace HackAssembler

/-! ## Components -/

namespace FileTree

variable {t : FileTree} {path : String} {place : Place} {rows : List (List Char)} {name : List Char}

theorem split_of_components {above : List String} {last : String}
    (h : (t.pathFrom path).2 = above ++ [last]) :
    path.toList.splitOn '/' = above.map String.toList ++ [last.toList] := by
  have hlist := congrArg (List.map String.toList) h
  simpa [pathFrom, Function.comp_def] using hlist

/-- A path with a last component starts at the root if its first component is empty. -/
theorem head?_eq_slash_iff {path : List Char} (hsplit : path.splitOn '/' = rows ++ [name])
    (hne : name ≠ []) : path.head? = some '/' ↔ rows.head? = some [] := by
  obtain ⟨⟨hrows, hname⟩, rfl⟩ := List.splitOn_eq_concat_iff.mp hsplit
  match rows with
  | [] =>
    -- the name is the whole path, and no name starts with a slash
    obtain ⟨c, rest, rfl⟩ := List.exists_cons_of_ne_nil hne
    simp only [List.mem_cons, not_or] at hname
    simpa using fun heq => hname.1 heq.symm
  | [] :: _ => simp
  | (c :: row) :: _ =>
    have hc : '/' ∉ c :: row := hrows _ List.mem_cons_self
    simp only [List.mem_cons, not_or] at hc
    simpa using fun heq => hc.1 heq.symm

/-- The last component has no part in where a path starts. -/
theorem start_eq {path' : String} {name' : List Char}
    (hsplit : path.toList.splitOn '/' = rows ++ [name]) (hne : name ≠ [])
    (hsplit' : path'.toList.splitOn '/' = rows ++ [name']) (hne' : name' ≠ []) :
    (t.pathFrom path').1 = (t.pathFrom path).1 := by
  simp only [pathFrom, head?_eq_slash_iff hsplit hne, head?_eq_slash_iff hsplit' hne']

theorem isFileName_iff {last : String} : Path.IsFileName last.toList ↔ last ∉ upwards := by
  have heq : ∀ s : String, last = s ↔ last.toList = s.toList := fun s => String.toList_inj.symm
  simp only [Path.IsFileName, Path.isVoid, Bool.or_eq_false_iff, decide_eq_false_iff_not, upwards,
    List.mem_cons, List.not_mem_nil, or_false, not_or, heq, and_assoc]
  exact Iff.rfl

/-- With another extension, a path leads through the same directory to the renamed file. -/
theorem LeadsTo.withExtension {directory directory' : Place} {last last' extension : String}
    (h : t.LeadsTo path directory last) (hname : Path.IsFileName last.toList)
    (hextension : '/' ∉ extension.toList)
    (h' : t.LeadsTo (Path.withExtension path extension) directory' last') :
    directory' = directory ∧ last'.toList = Path.rename last.toList extension.toList := by
  obtain ⟨above, hcomponents, hwalk, -, -⟩ := h
  obtain ⟨above', hcomponents', hwalk', -, -⟩ := h'
  have hsplit := split_of_components hcomponents
  have hsplit' := Path.splitOn_withExtension hsplit hname hextension
  have hstart := start_eq (t := t) hsplit hname.ne_nil hsplit' (Path.rename_ne_nil _ _)
  obtain ⟨habove, hlast⟩ :=
    List.append_inj' (hsplit'.symm.trans (split_of_components hcomponents')) rfl
  -- the same components above, walked from the same start, end in the same directory
  obtain rfl : above = above' := List.map_injective_iff.mpr (fun _ _ => String.toList_inj.mp) habove
  rw [hstart, hwalk] at hwalk'
  exact ⟨(Option.some.inj hwalk').symm, (List.singleton_inj.mp hlast).symm⟩

/-- A path and its path with an extension lead to the same file only if the file has the extension. -/
theorem hasExtension_of_target? {extension : String} (hplace : t.locate? path = some place)
    (hfile : t.isDirectory place = false) (hslash : '/' ∉ extension.toList)
    (hdot : '.' ∉ extension.toList)
    (htarget : t.target? (Path.withExtension path extension) = some place) :
    Path.HasExtension path extension := by
  obtain ⟨-, directory, last, hleads, henter⟩ := locate?_eq_some_iff.mp hplace
  obtain ⟨directory', last', hleads', hlast', -, rfl⟩ := target?_eq_some_iff.mp htarget
  obtain ⟨above, hcomponents, -, hdir, -⟩ := id hleads
  have hsplit := split_of_components hcomponents
  by_cases hupwards : last ∈ upwards
  · rw [enter_upwards hdir hupwards] at henter
    by_cases hparent : last = ".."
    · -- the path with the extension is the same path, and it names nothing new
      subst hparent
      rw [Path.withExtension_parent hsplit (by simp) extension] at hleads'
      obtain ⟨above', hcomponents', -, -, -⟩ := hleads'
      obtain ⟨-, hlast⟩ := List.append_inj' (hcomponents.symm.trans hcomponents') rfl
      rw [← List.singleton_inj.mp hlast] at hlast'
      exact absurd hupwards hlast'
    · -- a step that stays leads to a directory, and the source is none
      rw [if_neg hparent] at henter
      rw [← Option.some.inj henter, hdir] at hfile
      cases hfile
  · -- both paths lead through one directory, so it comes down to the names in it
    have hname : Path.IsFileName last.toList := isFileName_iff.mpr hupwards
    obtain ⟨rfl, hrename⟩ := hleads.withExtension hname hslash hleads'
    rw [enter_name hdir hupwards] at henter
    obtain ⟨-, -, hsame⟩ := Option.map_eq_some_iff.mp henter
    obtain rfl := List.singleton_inj.mp (List.append_cancel_left hsame)
    exact Path.hasExtension_of_rename hsplit hname hdot hrename.symm

end FileTree

/-! ## Runs -/

namespace Arguments

variable {args : Arguments} {t : FileTree} {place : Place}

/-- A run keeps its source if the paths that are given lead to other places, and the source has not
itself the extension of a binary where the path of the binary is left out. -/
theorem source_survives {content : ByteArray} (hplace : t.locate? args.input = some place)
    (hfile : t.find? place = some (.file content))
    (houtput : ∀ path, args.output = some path → t.target? path ≠ some place)
    (hsymbols : ∀ path, args.symbols = some path → t.target? path ≠ some place)
    (hname : args.output = none → ¬ Path.HasExtension args.input "hack") :
    (args.run.runOn t).2.find? place = some (.file content) := by
  -- what is stored goes to two paths only, so neither of them may lead to the source
  rw [args.storesOnly_run.find?_runOn, hfile]
  rintro path (rfl | hpath)
  · cases hgiven : args.output with
    | some path =>
      have hpath : args.outputPath = path := by simp [outputPath, hgiven]
      rw [hpath]
      exact houtput path hgiven
    | none =>
      have hpath : args.outputPath = Path.withExtension args.input "hack" := by
        simp [outputPath, hgiven]
      have hdirectory : t.isDirectory place = false := by simp [FileTree.isDirectory, hfile]
      rw [hpath]
      exact fun htarget => hname hgiven <|
        FileTree.hasExtension_of_target? hplace hdirectory (by decide) (by decide) htarget
  · exact hsymbols path hpath

theorem source_survives_asm :
    let t := FileTree.ofTexts [("p.asm", "@1\n"), ("p.hack", "old")]
    let args : Arguments := { input := "p.asm" }
    ¬ Path.HasExtension args.input "hack" ∧
      (args.run.runOn t).2.find? ["w", "p.asm"] = some (.file "@1\n".toUTF8) := by
  intro t args
  have hname : ¬ Path.HasExtension args.input "hack" := fun h =>
    absurd (h.withExtension (by decide)) (by decide)
  refine ⟨hname, source_survives (by decide +kernel) rfl ?_ ?_ fun _ => hname⟩
  · intro path hpath
    cases hpath
  · intro path hpath
    cases hpath

/-- A source that has the extension of a binary is replaced by its own binary. -/
theorem source_replaced {source : String} {a : Assembly}
    (hplace : t.target? args.input = some place)
    (hfile : t.find? place = some (.file source.toUTF8))
    (hassemble : HackAssembler.assemble source = .ok a) (houtput : args.output = none)
    (hsymbols : args.symbols = none) (hname : Path.HasExtension args.input "hack") :
    (args.run.runOn t).1.exitCode = 0 ∧
      (args.run.runOn t).2.find? place = some (.file a.binary.toUTF8) := by
  have hpath : args.outputPath = args.input := by
    simp only [outputPath, houtput, Option.getD_none]
    exact hname.withExtension (by decide)
  have hload := (FileTree.hasText_of_target? hplace hfile).load
  have hbinary : t.store args.outputPath a.binary = (.ok (), t.put place (.file a.binary.toUTF8)) := by
    rw [hpath]
    exact FileTree.store_of_plain hplace (FileTree.plain_of_file hfile)
  -- a run ends in one way only, and here is one
  obtain ⟨hcode, htree⟩ :=
    (args.ended_run t).unique (.assembled hload hassemble (.binary hbinary hsymbols))
  rw [htree, FileTree.find?_put, if_pos rfl]
  exact ⟨hcode, rfl⟩

theorem source_not_always_kept :
    ¬ ∀ (args : Arguments) (t : FileTree) (place : Place) (content : ByteArray),
      t.locate? args.input = some place → t.find? place = some (.file content) →
      (∀ path, args.output = some path → t.target? path ≠ some place) →
      (∀ path, args.symbols = some path → t.target? path ≠ some place) →
      (args.run.runOn t).2.find? place = some (.file content) := by
  intro h
  let t := FileTree.ofTexts [("p.hack", "@1\n")]
  let args : Arguments := { input := "p.hack" }
  have hkept := h args t ["w", "p.hack"] "@1\n".toUTF8 (by decide +kernel) rfl
    (fun _ hpath => nomatch hpath) fun _ hpath => nomatch hpath
  have hname : Path.HasExtension "p.hack" "hack" :=
    ⟨[], ['p'], by decide, by decide, by decide⟩
  obtain ⟨a, hassemble, hbinary⟩ := exists_of_map_toOption
    (show (HackAssembler.assemble "@1\n").toOption.map Assembly.binary = some "0000000000000001\n" by
      decide +kernel)
  have hreplaced : (args.run.runOn t).2.find? ["w", "p.hack"] = some (.file a.binary.toUTF8) :=
    (source_replaced (by decide +kernel) rfl hassemble rfl rfl hname).2
  -- the file would have to hold both texts, and they differ in length
  have hbytes := Node.file.inj (Option.some.inj (hkept.symm.trans hreplaced))
  rw [hbinary] at hbytes
  exact absurd (congrArg ByteArray.size hbytes) (by decide +kernel)

end Arguments

end HackAssembler
