import HavokScript.Command.Run
import HavokScript.Proofs.Outcome
import HavokScript.Proofs.Settings.Search

/-!
# The settings in force

A run goes by the settings of the nearest settings file, from the directory of its input upwards, or by
the standard ones (`FileView.Gives`), and over them by its flags (`Flags.Over`). Looking for them leaves
the files as they are (`Command.settingsFor_run`).

An output path of the settings is opened as it is written, or below the directory of the settings file
(`Settings.Opens`).
-/

namespace HavokScript

/-- A step on a file system. -/
abbrev FileStep (ε α : Type) := ExceptT ε (StateM FileSystem) α

namespace FileStep

variable {ε α β : Type} {step : FileStep ε α} {f : α → FileStep ε β} {fs fs' : FileSystem}

theorem bind_ok {x : α} (h : step fs = (.ok x, fs')) : (step >>= f) fs = f x fs' := by
  change ExceptT.bindCont f (step fs).1 (step fs).2 = _
  rw [h]
  rfl

theorem bind_error {e : ε} (h : step fs = (.error e, fs')) :
    (step >>= f) fs = (.error e, fs') := by
  change ExceptT.bindCont f (step fs).1 (step fs).2 = _
  rw [h]
  rfl

theorem adapt_eq {δ : Type} {result : Except ε α} (h : step fs = (result, fs')) (g : ε → δ) :
    (step.adapt g : FileStep δ α) fs = (result.mapError g, fs') := by
  change (((step fs).1.mapError g, (step fs).2) : Except δ α × FileSystem) = _
  rw [h]

end FileStep

/-! ## Files and flags -/

/-- The settings that files give for an input: those in the nearest settings file, from the directory of
the input upwards, or the standard ones if there is no such file. -/
inductive FileView.Gives (view : FileView) (input : Bytes) : Settings → Prop
  | nearest {d : Path} {s : Settings}
      (hnearest : view.Nearest (Path.absolute view.here (Path.directory input)) d)
      (hloaded : view.loaded d = .ok s) : Gives view input s
  | standard
      (hnone : ∀ d, d.Above (Path.absolute view.here (Path.directory input)) → view.has d = false) :
      Gives view input .standard

/-- Flags go over settings: a path that a flag gives replaces the one of the settings, and a switch only
turns something off. Logging is left open. -/
structure Flags.Over (flags : Flags) (given s : Settings) : Prop where
  listing : s.listingPath = flags.outDis.getD given.listingPath
  source : s.sourcePath = flags.outDec.getD given.sourcePath
  exported : s.exportPath = flags.outExport.getD given.exportPath
  tree : s.treePath = flags.dumpTree.getD given.treePath
  structured : s.structured ↔ given.structured ∧ flags.noStructure = false
  inlined : s.inlined ↔ given.inlined ∧ flags.noInline = false
  useCounts : s.showUseCounts ↔ given.showUseCounts ∧ flags.noUseCounts = false
  directory : s.directory = given.directory

theorem Flags.over_override (flags : Flags) (given : Settings) :
    flags.Over given (flags.override given) := by
  constructor <;> simp [override]

/-- The settings for an input are those that files give, with the flags over them. If there are none, it
is for a settings file. -/
theorem Command.settingsFor_run (flags : Flags) (input : Bytes) (fs : FileSystem) :
    ∃ result, (settingsFor flags input : FileStep CommandError Settings) fs = (result, fs) ∧
      Outcome (fun s => ∃ given, fs.view.Gives input given ∧ flags.Over given s)
        (fun e => ∃ cause, e = .settings cause) result := by
  have hfind := FileStep.adapt_eq (Settings.find_run fs.shows (Path.directory input))
    CommandError.settings
  unfold settingsFor
  cases hfound : (Path.absolute fs.view.here (Path.directory input)).ancestors.find? fs.view.has with
  | none =>
    rw [hfound] at hfind
    refine ⟨_, FileStep.bind_ok hfind, .standard, .standard ?_, flags.over_override _⟩
    exact FileView.find?_ancestors_eq_none.mp hfound
  | some d =>
    have hnearest := FileView.find?_ancestors_eq_some.mp hfound
    rw [hfound, FileView.outcome] at hfind
    cases hloaded : fs.view.loaded d with
    | error cause =>
      rw [hloaded] at hfind
      exact ⟨_, FileStep.bind_error hfind, cause, rfl⟩
    | ok given =>
      rw [hloaded] at hfind
      exact ⟨_, FileStep.bind_ok hfind, given, .nearest hnearest hloaded, flags.over_override given⟩

/-! ## Paths -/

namespace Settings

/-- A path of the settings is opened as it is written, but a relative one below the directory of the
settings file, if there is one. -/
inductive Opens (s : Settings) (path : Bytes) : Bytes → Prop
  | written (h : s.directory = [] ∨ Path.isAbsolute path) : Opens s path path
  | below (hdirectory : s.directory ≠ []) (hrelative : Path.isAbsolute path = false) :
      Opens s path (Path.ofBytes (s.directory ++ Path.slash :: path)).text

theorem opens_iff {s : Settings} {path : Bytes} (hpath : path ≠ []) {opened : Bytes} :
    s.Opens path opened ↔ opened = s.resolve path := by
  unfold resolve resolveIn
  by_cases h : s.directory = [] ∨ Path.isAbsolute path
  · rw [if_pos (.inr h.symm)]
    constructor
    · rintro (_ | ⟨hdirectory, hrelative⟩)
      · rfl
      · rcases h with h | h
        · exact absurd h hdirectory
        · rw [hrelative] at h
          cases h
    · rintro rfl
      exact .written h
  · rw [if_neg (by tauto)]
    rw [not_or, Bool.not_eq_true] at h
    rw [Path.join, if_neg h.1, if_neg hpath]
    constructor
    · rintro (⟨hwritten⟩ | _)
      · rw [h.2] at hwritten
        exact absurd hwritten (by simp [h.1])
      · rfl
    · rintro rfl
      exact .below h.1 h.2

end Settings

end HavokScript
