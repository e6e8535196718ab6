-- SUMMARY: What failure and success of a run mean for the files: nothing stored, or all of it and nothing else.
import HackAssembler.Proofs.Assembly.Binary
import HackAssembler.Proofs.Command.Runs

/-!
# Failure and success of a run

A source that cannot be loaded, or that one of the two passes refuses, makes the run fail before
it stores anything. A run that succeeds has stored what the library makes of the text of the
source, each part under its own path, and has changed no other place.
-/

namespace HackAssembler

/-! ## Failure -/

/-- Answers to the loading of a source that lead to no assembly. -/
inductive Refused : Except LoadError (List String) → Prop where
  | unopened : Refused (.error .cannotOpen)
  | unreadable : Refused (.error .cannotRead)
  | unplaced {lines : List String} {errors : SourceErrors}
      (h : Program.ofLines lines = .error errors) : Refused (.ok lines)
  | unlinked {lines : List String} {p : Program} {errors : SourceErrors}
      (hplaced : Program.ofLines lines = .ok p) (h : p.link = .error errors) : Refused (.ok lines)

/-- The file under a path is no source that can be assembled. -/
inductive FileTree.Unfit (t : FileTree) (path : String) : Prop where
  | missing (h : (t.locate? path).bind t.find? = none)
  | unreadable (h : t.load path = .error .cannotRead)
  | notText {place : Place} {content : ByteArray} (hplace : t.locate? path = some place)
      (hfile : t.find? place = some (.file content)) (h : String.fromUTF8? content = none)
  | unplaced {lines : List String} {errors : SourceErrors} (hload : t.load path = .ok lines)
      (h : Program.ofLines lines = .error errors)
  | unlinked {lines : List String} {p : Program} {errors : SourceErrors}
      (hload : t.load path = .ok lines) (hplaced : Program.ofLines lines = .ok p)
      (h : p.link = .error errors)

theorem FileTree.Unfit.refused {t : FileTree} {path : String} (h : t.Unfit path) :
    Refused (t.load path) := by
  cases h with
  | missing h =>
    simp only [load, h]
    exact .unopened
  | unreadable h =>
    rw [h]
    exact .unreadable
  | notText hplace hfile h =>
    rw [load_of_file hplace hfile, h]
    exact .unreadable
  | unplaced hload h =>
    rw [hload]
    exact .unplaced h
  | unlinked hload hplaced h =>
    rw [hload]
    exact .unlinked hplaced h

theorem Refused.exists_errors {lines : List String} (h : Refused (.ok lines)) :
    ∃ errors, assembleLines lines = .error errors := by
  cases h with
  | unplaced h => exact ⟨_, by rw [assembleLines_eq, h]; rfl⟩
  | unlinked hplaced h => exact ⟨_, by rw [assembleLines_eq, hplaced]; exact h⟩

namespace Arguments

/-- An assembly that has failed ends the run, whatever events are put into its outcome. -/
theorem exists_conclude_eq_done (args : Arguments) {lines : List String}
    {result : Except SourceErrors Assembly} {errors : SourceErrors} (h : result = .error errors)
    (events : List Event) :
    ∃ outcome, outcome.exitCode = 1 ∧
      (do return { ← args.conclude lines result with events }) = Script.done outcome := by
  subst h
  exact ⟨_, rfl, rfl⟩

/-- Whatever the file system is, a source that is refused is the only thing that the run asks for. -/
theorem exists_next_done_of_refused (args : Arguments) :
    ∃ next, args.run = .load args.input next ∧
      ∀ answer, Refused answer → ∃ outcome, outcome.exitCode = 1 ∧ next answer = .done outcome := by
  refine ⟨_, rfl, fun answer hrefused => ?_⟩
  match answer with
  | .error .cannotOpen => exact ⟨_, rfl, rfl⟩
  | .error .cannotRead => exact ⟨_, rfl, rfl⟩
  | .ok lines =>
    obtain ⟨errors, hassemble⟩ := hrefused.exists_errors
    exact args.exists_conclude_eq_done hassemble (bothPasses lines).events

/-- If the source cannot be loaded or assembled, the run ends with exit code 1 after it has asked for
the source and for nothing else, and it leaves every file tree as it was. -/
theorem run_of_unfit (args : Arguments) :
    (∃ next, args.run = .load args.input next ∧
      ∀ answer, Refused answer → ∃ outcome, outcome.exitCode = 1 ∧ next answer = .done outcome) ∧
    ∀ t : FileTree, t.Unfit args.input →
      (args.run.runOn t).1.exitCode = 1 ∧ (args.run.runOn t).2 = t := by
  obtain ⟨next, hrun, hnext⟩ := args.exists_next_done_of_refused
  refine ⟨⟨next, hrun, hnext⟩, fun t hunfit => ?_⟩
  obtain ⟨outcome, hcode, hdone⟩ := hnext (t.load args.input) hunfit.refused
  have hrunOn : args.run.runOn t = (next (t.load args.input)).runOn t := by rw [hrun]; rfl
  rw [hrunOn, hdone]
  exact ⟨hcode, rfl⟩

theorem run_of_unfit_bad_mnemonic :
    let t := FileTree.ofTexts [("Bad.asm", "@1\nD=;JMP\n"), ("Bad.hack", "0000000000000001\n")]
    let args : Arguments := { input := "Bad.asm" }
    t.Unfit args.input ∧ (args.run.runOn t).1.exitCode = 1 ∧ (args.run.runOn t).2 = t ∧
      t.HasText args.outputPath "0000000000000001\n" := by
  intro t args
  have hsource : t.HasText "Bad.asm" "@1\nD=;JMP\n" := ⟨["w", "Bad.asm"], by decide +kernel, rfl⟩
  have hunfit : t.Unfit args.input :=
    .unplaced hsource.load ((Program.ofLines_eq _).trans (if_neg (by decide +kernel)))
  exact ⟨hunfit, ((run_of_unfit args).2 t hunfit).1, ((run_of_unfit args).2 t hunfit).2,
    ["w", "Bad.hack"], by decide +kernel, rfl⟩

/-! ## Success -/

/-- The source, the binary and the symbols are in different places, and none of them is a directory or
a device. -/
structure Apart (args : Arguments) (t : FileTree) : Prop where
  input : ∀ place, t.locate? args.input = some place → t.Plain place
  output : ∀ place, t.target? args.outputPath = some place →
    t.Plain place ∧ t.locate? args.input ≠ some place
  symbols : ∀ path, args.symbols = some path → ∀ place, t.target? path = some place →
    t.Plain place ∧ t.locate? args.input ≠ some place ∧ t.target? args.outputPath ≠ some place

/-- What is in the files after a source has been assembled. -/
structure Completed (args : Arguments) (t t' : FileTree) (source : String) (a : Assembly) : Prop where
  input : t.HasText args.input source
  assembled : HackAssembler.assemble source = .ok a
  output : t'.HasText args.outputPath a.binary
  symbols : ∀ path, args.symbols = some path → t'.HasText path (Yaml.render a.symbols)
  rest : ∀ place, (∀ path, args.StoresAt path → t.target? path ≠ some place) →
    t'.find? place = t.find? place

variable {args : Arguments} {t : FileTree}

/-- Storing the binary leaves the place of the symbols as it was. -/
theorem Apart.plain_symbols (hapart : args.Apart t) {answer : Except StoreError Unit} {text : String}
    {t' : FileTree} (hstore : t.store args.outputPath text = (answer, t')) {path : String}
    (hsymbols : args.symbols = some path) {place : Place} (h : t'.target? path = some place) :
    t'.Plain place := by
  rw [FileTree.target?_of_store hstore] at h
  obtain ⟨hplain, -, hother⟩ := hapart.symbols path hsymbols place h
  unfold FileTree.Plain
  rwa [FileTree.find?_of_store hstore hother]

theorem completed_of_written {source : String} {a : Assembly} {t' : FileTree} (hapart : args.Apart t)
    (hinput : t.HasText args.input source) (hassemble : HackAssembler.assemble source = .ok a)
    (hwritten : args.Written a t 0 t')
    (hrest : ∀ place, (∀ path, args.StoresAt path → t.target? path ≠ some place) →
      t'.find? place = t.find? place) :
    args.Completed t t' source a := by
  cases hwritten with
  | binary hbinary hsymbols =>
    obtain ⟨place, htarget, hfile⟩ :=
      FileTree.exists_file_of_store (fun place h => (hapart.output place h).1) hbinary
    exact {
      input := hinput
      assembled := hassemble
      output := FileTree.hasText_of_target? htarget hfile
      symbols := fun path hpath => by simp [hsymbols] at hpath
      rest := hrest }
  | @symbols path t₁ t₂ hbinary hsymbols hyaml =>
    obtain ⟨place, htarget, hfile⟩ :=
      FileTree.exists_file_of_store (fun place h => (hapart.output place h).1) hbinary
    -- the symbols are stored last, and elsewhere, so the binary outlives them
    have hother : t₁.target? path ≠ some place := by
      intro h
      rw [FileTree.target?_of_store hbinary] at h htarget
      exact (hapart.symbols path hsymbols place h).2.2 htarget
    obtain ⟨place', htarget', hfile'⟩ := FileTree.exists_file_of_store
      (fun place => hapart.plain_symbols hbinary hsymbols) hyaml
    exact {
      input := hinput
      assembled := hassemble
      output := FileTree.hasText_of_target? ((FileTree.target?_of_store hyaml _).trans htarget)
        ((FileTree.find?_of_store hyaml hother).trans hfile)
      symbols := fun path hpath => by
        obtain rfl := Option.some.inj (hsymbols.symm.trans hpath)
        exact FileTree.hasText_of_target? htarget' hfile'
      rest := hrest }

/-- A source that can be assembled, with places for the files it yields, makes the run succeed. -/
theorem exitCode_run_of_apart {source : String} {a : Assembly} (hapart : args.Apart t)
    (hinput : t.HasText args.input source) (hassemble : HackAssembler.assemble source = .ok a)
    (hplaces : ∀ path, args.StoresAt path → (t.target? path).isSome) :
    (args.run.runOn t).1.exitCode = 0 := by
  obtain ⟨place, htarget⟩ := Option.isSome_iff_exists.mp (hplaces _ (.inl rfl))
  have hbinary : t.store args.outputPath a.binary = (.ok (), t.put place (.file a.binary.toUTF8)) :=
    FileTree.store_of_plain htarget (hapart.output place htarget).1
  -- a run has one end, so it is enough to find an end with exit code 0
  have hwritten : ∃ t', args.Written a t 0 t' := by
    cases hsymbols : args.symbols with
    | none => exact ⟨_, .binary hbinary hsymbols⟩
    | some path =>
      obtain ⟨place', htarget'⟩ := Option.isSome_iff_exists.mp (hplaces path (.inr hsymbols))
      rw [← FileTree.target?_of_store hbinary] at htarget'
      have hplain := hapart.plain_symbols hbinary hsymbols htarget'
      exact ⟨_, .symbols hbinary hsymbols (FileTree.store_of_plain htarget' hplain)⟩
  obtain ⟨t', hwritten⟩ := hwritten
  exact ((args.ended_run t).unique (.assembled hinput.load hassemble hwritten)).1

/-- A run that succeeds has assembled the text of its source. What the files hold afterwards is the
binary and the symbols of this assembly, and a listing makes no difference to them. -/
theorem run_stores_assembly (hapart : args.Apart t) :
    ((args.run.runOn t).1.exitCode = 0 →
      ∃ source a, args.Completed t (args.run.runOn t).2 source a) ∧
    ∀ dump, ({ args with dump }.run.runOn t).2 = (args.run.runOn t).2 := by
  have hended := args.ended_run t
  constructor
  · intro hcode
    rw [hcode] at hended
    cases hended with
    | assembled hload hassemble hwritten =>
      obtain ⟨source, hinput, rfl⟩ := FileTree.exists_hasText_of_load hapart.input hload
      exact ⟨source, _, completed_of_written hapart hinput hassemble hwritten fun place =>
        args.storesOnly_run.find?_runOn⟩
  · intro dump
    exact (({ args with dump }.ended_run t).of_dump.unique hended).2

/-- The old text of the binary is replaced, and the file of the symbols is new. -/
theorem run_stores_assembly_loop :
    let source := "(LOOP)\r\n@i\r\nM=0\n@LOOP\n0;JMP"
    let t := FileTree.ofTexts [("Loop.asm", source), ("Loop.hack", "old")]
    let args : Arguments := { input := "Loop.asm", symbols := some "Loop.yaml", dump := true }
    let t' := (args.run.runOn t).2
    args.Apart t ∧ (args.run.runOn t).1.exitCode = 0 ∧
      (∃ source a, args.Completed t t' source a) ∧
      t'.HasText "Loop.hack"
        "0000000000010000\n1110101010001000\n0000000000000000\n1110101010000111\n" ∧
      t'.HasText "Loop.yaml" (Yaml.render .initial ++
        "  LOOP:\n    addr: 0\n    kind: !label 0\n  i:\n    addr: 16\n    kind: variable\n") := by
  intro source t args t'
  have hlocate : t.locate? args.input = some ["w", "Loop.asm"] := by decide +kernel
  have houtput : t.target? args.outputPath = some ["w", "Loop.hack"] := by decide +kernel
  have hsymbols : t.target? "Loop.yaml" = some ["w", "Loop.yaml"] := by decide +kernel
  have hapart : args.Apart t := by
    refine ⟨fun place h => ?_, fun place h => ?_, fun path hpath place h => ?_⟩
    · obtain rfl := Option.some.inj (hlocate.symm.trans h)
      decide +kernel
    · obtain rfl := Option.some.inj (houtput.symm.trans h)
      exact ⟨by decide +kernel, by rw [hlocate]; decide⟩
    · cases hpath
      obtain rfl := Option.some.inj (hsymbols.symm.trans h)
      exact ⟨by decide +kernel, by rw [hlocate]; decide, by rw [houtput]; decide⟩
  have hpath : args.outputPath = "Loop.hack" := by decide +kernel
  obtain ⟨a, hassemble, htexts⟩ := exists_of_map_toOption
    (show (HackAssembler.assemble source).toOption.map (fun a => (a.binary, Yaml.render a.symbols)) =
      some ("0000000000010000\n1110101010001000\n0000000000000000\n1110101010000111\n",
        Yaml.render .initial ++
          "  LOOP:\n    addr: 0\n    kind: !label 0\n  i:\n    addr: 16\n    kind: variable\n") by
      decide +kernel)
  obtain ⟨hbinary, hyaml⟩ := Prod.mk.inj htexts
  have hinput : t.HasText args.input source := ⟨_, hlocate, rfl⟩
  have hcode : (args.run.runOn t).1.exitCode = 0 := by
    refine exitCode_run_of_apart hapart hinput hassemble fun path hpath => ?_
    obtain rfl | hpath := hpath
    · rw [houtput]
      rfl
    · cases hpath
      rw [hsymbols]
      rfl
  obtain ⟨source', a', hcompleted⟩ := (run_stores_assembly hapart).1 hcode
  -- the source that was assembled is the text of the file, so the assembly is the one above
  obtain rfl : source = source' := hinput.unique hcompleted.input
  obtain rfl : a = a' := Except.ok.inj (hassemble.symm.trans hcompleted.assembled)
  refine ⟨hapart, hcode, ⟨_, _, hcompleted⟩, ?_, ?_⟩
  · rw [← hpath, ← hbinary]
    exact hcompleted.output
  · rw [← hyaml]
    exact hcompleted.symbols "Loop.yaml" rfl

end Arguments

end HackAssembler
