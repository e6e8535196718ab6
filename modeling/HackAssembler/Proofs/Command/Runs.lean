-- SUMMARY: How a run of the command ends, and what it has stored by then.
import HackAssembler.Command.Run
import HackAssembler.Proofs.Command.Files

/-!
# Runs of the command

A run of the command ends in one of a few ways. Each of them fixes the exit code and what became
of the file tree; what is printed, and with it the listing, has no part in either. A source that
cannot be assembled is found out before the first file is stored.
-/

namespace HackAssembler

/-! ## Scripts -/

namespace Script

variable {α β : Type}

theorem runOn_pure (result : α) (t : FileTree) : (pure result : Script α).runOn t = (result, t) :=
  rfl

theorem runOn_bind (s : Script α) (k : α → Script β) (t : FileTree) :
    (s >>= k).runOn t = (k (s.runOn t).1).runOn (s.runOn t).2 := by
  induction s generalizing t with
  | done result => rfl
  | load path next ih => exact ih (t.load path) t
  | store path text next ih => exact ih (t.store path text).1 (t.store path text).2

theorem runOn_loadFile (path : String) (t : FileTree) :
    (loadFile path).runOn t = (t.load path, t) :=
  rfl

theorem runOn_storeFile (path text : String) (t : FileTree) :
    (storeFile path text).runOn t = t.store path text :=
  rfl

/-- Whatever the answers are, a script stores files under certain paths only. -/
def StoresOnly (allowed : String → Prop) : Script α → Prop
  | done _ => True
  | load _ next => ∀ answer, (next answer).StoresOnly allowed
  | store path _ next => allowed path ∧ ∀ answer, (next answer).StoresOnly allowed

theorem StoresOnly.bind {allowed : String → Prop} {s : Script α} {k : α → Script β}
    (hs : s.StoresOnly allowed) (hk : ∀ result, (k result).StoresOnly allowed) :
    (s >>= k).StoresOnly allowed := by
  induction s with
  | done result => exact hk result
  | load path next ih => exact fun answer => ih answer (hs answer)
  | store path text next ih => exact ⟨hs.1, fun answer => ih answer (hs.2 answer)⟩

/-- A run changes no place but those that the paths of its files stand for. -/
theorem StoresOnly.find?_runOn {allowed : String → Prop} {s : Script α}
    (hs : s.StoresOnly allowed) {t : FileTree} {place : Place}
    (hplace : ∀ path, allowed path → t.target? path ≠ some place) :
    (s.runOn t).2.find? place = t.find? place := by
  induction s generalizing t with
  | done result => rfl
  | load path next ih => exact ih (t.load path) (hs (t.load path)) hplace
  | store path text next ih =>
    -- what is stored first does not move the targets of the paths that are stored after it
    cases hstore : t.store path text with
    | mk answer t' =>
      have hrun : ((store path text next).runOn t).2 = ((next answer).runOn t').2 := by
        simp only [runOn, hstore]
      have hrest := ih answer (hs.2 answer) (t := t') fun other h => by
        rw [FileTree.target?_of_store hstore]
        exact hplace other h
      rw [hrun, hrest, FileTree.find?_of_store hstore (hplace path hs.1)]

end Script

namespace Arguments

/-! ## Ways to end -/

/-- What becomes of an assembly: the exit code, and the tree after its files are stored. -/
inductive Written (args : Arguments) (a : Assembly) (t : FileTree) : Nat → FileTree → Prop where
  | binaryRefused {error : StoreError} {t' : FileTree}
      (hbinary : t.store args.outputPath a.binary = (.error error, t')) : Written args a t 1 t'
  | binary {t' : FileTree} (hbinary : t.store args.outputPath a.binary = (.ok (), t'))
      (hsymbols : args.symbols = none) : Written args a t 0 t'
  | symbolsRefused {path : String} {error : StoreError} {t' t'' : FileTree}
      (hbinary : t.store args.outputPath a.binary = (.ok (), t'))
      (hsymbols : args.symbols = some path)
      (hyaml : t'.store path (Yaml.render a.symbols) = (.error error, t'')) : Written args a t 1 t''
  | symbols {path : String} {t' t'' : FileTree}
      (hbinary : t.store args.outputPath a.binary = (.ok (), t'))
      (hsymbols : args.symbols = some path)
      (hyaml : t'.store path (Yaml.render a.symbols) = (.ok (), t'')) : Written args a t 0 t''

/-- The ways in which a run ends, with the exit code and the tree that is left. -/
inductive Ended (args : Arguments) (t : FileTree) : Nat → FileTree → Prop where
  | unread {error : LoadError} (hload : t.load args.input = .error error) : Ended args t 1 t
  | rejected {lines : List String} {errors : SourceErrors} (hload : t.load args.input = .ok lines)
      (hassemble : assembleLines lines = .error errors) : Ended args t 1 t
  | assembled {lines : List String} {a : Assembly} {code : Nat} {t' : FileTree}
      (hload : t.load args.input = .ok lines) (hassemble : assembleLines lines = .ok a)
      (hwritten : args.Written a t code t') : Ended args t code t'

variable (args : Arguments) (t : FileTree)

theorem written_writeSymbols {a : Assembly} {t' : FileTree}
    (hbinary : t.store args.outputPath a.binary = (.ok (), t')) (printed : String)
    (lines : List String) :
    args.Written a t ((args.writeSymbols printed lines a).runOn t').1.exitCode
      ((args.writeSymbols printed lines a).runOn t').2 := by
  unfold writeSymbols
  cases hsymbols : args.symbols with
  | none => exact .binary hbinary hsymbols
  | some path =>
    simp only [Script.runOn_bind, Script.runOn_storeFile]
    cases hyaml : t'.store path (Yaml.render a.symbols) with
    | mk answer t'' =>
      match answer with
      | .error error => exact .symbolsRefused hbinary hsymbols hyaml
      | .ok () => exact .symbols hbinary hsymbols hyaml

theorem written_write (printed : String) (lines : List String) (a : Assembly) :
    args.Written a t ((args.write printed lines a).runOn t).1.exitCode
      ((args.write printed lines a).runOn t).2 := by
  simp only [write, Script.runOn_bind, Script.runOn_storeFile]
  cases hbinary : t.store args.outputPath a.binary with
  | mk answer t' =>
    match answer with
    | .error .cannotCreate => exact .binaryRefused hbinary
    | .error .cannotWrite => exact .binaryRefused hbinary
    | .ok () => exact args.written_writeSymbols t hbinary _ lines

theorem ended_run :
    args.Ended t (args.run.runOn t).1.exitCode (args.run.runOn t).2 := by
  simp only [run, Script.runOn_bind, Script.runOn_loadFile]
  cases hload : t.load args.input with
  | error error =>
    cases error with
    | cannotOpen => exact .unread hload
    | cannotRead => exact .unread hload
  | ok lines =>
    simp only [conclude, Script.runOn_bind, Script.runOn_pure]
    cases hassemble : (bothPasses lines).result with
    | error errors => exact .rejected hload hassemble
    | ok a => exact .assembled hload hassemble (args.written_write t _ lines a)

/-! ## Files that are stored -/

/-- The paths that a run may store files under. -/
def StoresAt (path : String) : Prop :=
  path = args.outputPath ∨ args.symbols = some path

theorem storesOnly_writeSymbols (printed : String) (lines : List String) (a : Assembly) :
    (args.writeSymbols printed lines a).StoresOnly args.StoresAt := by
  unfold writeSymbols
  cases hsymbols : args.symbols with
  | none => trivial
  | some path =>
    refine ⟨.inr hsymbols, fun answer => ?_⟩
    cases answer <;> trivial

theorem storesOnly_write (printed : String) (lines : List String) (a : Assembly) :
    (args.write printed lines a).StoresOnly args.StoresAt := by
  refine ⟨.inl rfl, fun answer => ?_⟩
  match answer with
  | .error .cannotCreate => trivial
  | .error .cannotWrite => trivial
  | .ok () => exact args.storesOnly_writeSymbols _ lines a

theorem storesOnly_conclude (lines : List String) (result : Except SourceErrors Assembly) :
    (args.conclude lines result).StoresOnly args.StoresAt := by
  cases result with
  | error errors => trivial
  | ok a => exact args.storesOnly_write _ lines a

theorem storesOnly_run : args.run.StoresOnly args.StoresAt := by
  intro answer
  match answer with
  | .error .cannotOpen => trivial
  | .error .cannotRead => trivial
  | .ok lines => exact (args.storesOnly_conclude lines _).bind fun outcome => trivial

/-! ## One way to end -/

section Unique

variable {args t}

theorem Written.unique {a : Assembly} {code code' : Nat} {t₁ t₂ : FileTree}
    (h₁ : args.Written a t code t₁) (h₂ : args.Written a t code' t₂) : code = code' ∧ t₁ = t₂ := by
  cases h₁ <;> cases h₂ <;> simp_all

theorem Ended.unique {code code' : Nat} {t₁ t₂ : FileTree} (h₁ : args.Ended t code t₁)
    (h₂ : args.Ended t code' t₂) : code = code' ∧ t₁ = t₂ := by
  cases h₁ with
  | unread hload => cases h₂ <;> simp_all
  | rejected hload hassemble => cases h₂ <;> simp_all
  | assembled hload hassemble hwritten =>
    cases h₂ with
    | unread hload' => simp_all
    | rejected hload' hassemble' => simp_all
    | assembled hload' hassemble' hwritten' =>
      -- both have assembled the same lines, and differ at most in how the files were taken
      obtain rfl := Except.ok.inj (hload.symm.trans hload')
      obtain rfl := Except.ok.inj (hassemble.symm.trans hassemble')
      exact hwritten.unique hwritten'

theorem Ended.of_dump {dump : Bool} {code : Nat} {t' : FileTree}
    (h : { args with dump }.Ended t code t') : args.Ended t code t' := by
  cases h with
  | unread hload => exact .unread hload
  | rejected hload hassemble => exact .rejected hload hassemble
  | assembled hload hassemble hwritten =>
    refine .assembled hload hassemble ?_
    cases hwritten with
    | binaryRefused hbinary => exact .binaryRefused hbinary
    | binary hbinary hsymbols => exact .binary hbinary hsymbols
    | symbolsRefused hbinary hsymbols hyaml => exact .symbolsRefused hbinary hsymbols hyaml
    | symbols hbinary hsymbols hyaml => exact .symbols hbinary hsymbols hyaml

end Unique

end Arguments

end HackAssembler
