import HavokScript.Proofs.Path
import HavokScript.Settings.Search

/-!
# The nearest settings file

A search for settings goes up from a directory to the one above until it finds a settings file, and
ends at the directory that is above itself (`Ascends`). From a clean path every such walk ends, and it
ends at the first of the path and the directories above it that has the file (`ascends_iff`): the
deepest one that has it (`find?_ancestors_eq_some`). The settings of that directory are loaded, whether
they can be used or not (`loadFirst_run`), so the nearest file wins (`find_nearest`).

Files are seen through a `FileView`: where there is something, and what can be read. A settings file may
be there and not be readable, as a directory with its name.
-/

namespace HavokScript

/-- What files show to someone who only looks. -/
structure FileView where
  /-- the current directory -/
  here : Bytes
  /-- whether there is something at a path -/
  present : Bytes → Bool
  /-- the content of a file, if it can be read -/
  content? : Bytes → Option Bytes
  here_absolute : Path.isAbsolute here = true

/-- In a state the files show a view, and looking at them leaves the state as it is. -/
structure Shows {σ : Type} [MonadFiles (StateM σ)] (s : σ) (view : FileView) : Prop where
  here : (MonadFiles.currentDirectory : StateM σ Bytes) s = (view.here, s)
  present : ∀ path, (MonadFiles.present path : StateM σ Bool) s = (view.present path, s)
  content : ∀ path, (MonadFiles.read? path : StateM σ (Option Bytes)) s = (view.content? path, s)

/-- What a file system shows. -/
def FileSystem.view (fs : FileSystem) : FileView where
  here := (⟨true, fs.here⟩ : Path).text
  present := fs.present
  content? := fs.read?
  here_absolute := Path.isAbsolute_text rfl

theorem FileSystem.shows (fs : FileSystem) : Shows fs fs.view :=
  ⟨rfl, fun _ => rfl, fun _ => rfl⟩

namespace FileView

variable (view : FileView)

/-- Whether a directory has a settings file. -/
def has (d : Path) : Bool := view.present (Path.join d.text Settings.fileName)

/-- The deepest directory with a settings file, of a path and the directories above it. -/
structure Nearest (p d : Path) : Prop where
  above : d.Above p
  has : view.has d = true
  deepest : ∀ e, e.Above p → view.has e = true → e.names.length ≤ d.names.length

/-- The settings in the file of a directory, or why they cannot be used. -/
def loaded (d : Path) : Except SettingsError Settings :=
  match view.content? (Path.join d.text Settings.fileName) with
  | none => .error (.unreadable (Path.join d.text Settings.fileName))
  | some content =>
    match Settings.ofBytes? content with
    | none => .error (.malformed (Path.join d.text Settings.fileName))
    | some s => .ok { s with directory := d.text }

/-- What a search gives that ends at a directory, or at none. -/
def outcome : Option Path → Except SettingsError (Option Settings)
  | none => .ok none
  | some d => (view.loaded d).map some

variable {view}

theorem outcome_eq_none {found : Option Path} : view.outcome found = .ok none ↔ found = none := by
  cases found with
  | none => exact iff_of_true rfl rfl
  | some d =>
    rw [outcome]
    cases view.loaded d <;> exact iff_of_false nofun nofun

/-- Settings that were loaded know their directory. -/
theorem directory_of_loaded {d : Path} {s : Settings} (h : view.loaded d = .ok s) :
    s.directory = d.text := by
  unfold loaded at h
  split at h
  · cases h
  · split at h
    · cases h
    · cases h
      rfl

theorem find?_ancestors_eq_none {p : Path} :
    p.ancestors.find? view.has = none ↔ ∀ d, d.Above p → view.has d = false := by
  simp only [List.find?_eq_none, Path.mem_ancestors, Bool.not_eq_true]

theorem Nearest.unique {p d e : Path} (hd : view.Nearest p d) (he : view.Nearest p e) : d = e :=
  hd.above.ext he.above (le_antisymm (he.deepest d hd.above hd.has) (hd.deepest e he.above he.has))

/-- The first directory with a settings file is the deepest, since the deeper ones stand first. -/
theorem nearest_of_find? {p d : Path} (h : p.ancestors.find? view.has = some d) :
    view.Nearest p d := by
  obtain ⟨hhas, nearer, farther, hsplit, hnearer⟩ := List.find?_eq_some_iff_append.mp h
  have habove : d.Above p :=
    Path.mem_ancestors.mp (hsplit ▸ List.mem_append_right _ List.mem_cons_self)
  refine ⟨habove, hhas, fun e he hehas => ?_⟩
  have hmem : e ∈ nearer ++ d :: farther := hsplit ▸ Path.mem_ancestors.mpr he
  have horder := (List.pairwise_append.mp (hsplit ▸ Path.ancestors_pairwise p)).2.1
  rcases List.mem_append.mp hmem with hin | hin
  · exact absurd hehas (by simpa using hnearer e hin)
  · rcases List.mem_cons.mp hin with rfl | hin
    · exact le_rfl
    · exact (List.rel_of_pairwise_cons horder hin).le

theorem find?_ancestors_eq_some {p d : Path} :
    p.ancestors.find? view.has = some d ↔ view.Nearest p d := by
  refine ⟨nearest_of_find?, fun h => ?_⟩
  cases hfound : p.ancestors.find? view.has with
  | none =>
    have hnone := find?_ancestors_eq_none.mp hfound d h.above
    rw [h.has] at hnone
    cases hnone
  | some e => rw [(nearest_of_find? hfound).unique h]

end FileView

namespace Settings

/-! ## Going up -/

/-- The walk from a written directory upwards ends at a directory with a settings file, or at none. -/
inductive Ascends (present : Bytes → Bool) : Bytes → Option Bytes → Prop
  | found {directory : Bytes} (h : present (Path.join directory fileName) = true) :
      Ascends present directory (some directory)
  | top {directory : Bytes} (h : present (Path.join directory fileName) = false)
      (htop : Path.directory directory = directory) : Ascends present directory none
  | up {directory : Bytes} {result : Option Bytes}
      (h : present (Path.join directory fileName) = false)
      (hup : Path.directory directory ≠ directory)
      (rest : Ascends present (Path.directory directory) result) : Ascends present directory result

theorem Ascends.unique {present : Bytes → Bool} {directory : Bytes} {r r' : Option Bytes}
    (h : Ascends present directory r) (h' : Ascends present directory r') : r = r' := by
  induction h with
  | found h =>
    cases h' with
    | found => rfl
    | top h' => exact absurd (h.symm.trans h') (by decide)
    | up h' => exact absurd (h.symm.trans h') (by decide)
  | top h htop =>
    cases h' with
    | found h' => exact absurd (h.symm.trans h') (by decide)
    | top => rfl
    | up _ hup => exact absurd htop hup
  | up h hup _ ih =>
    cases h' with
    | found h' => exact absurd (h.symm.trans h') (by decide)
    | top _ htop => exact absurd htop hup
    | up _ _ rest' => exact ih rest'

variable {view : FileView}

/-- The walk comes by the directories above a path in their order. -/
theorem ascends_find? {p : Path} (hp : p.Absolute) :
    Ascends view.present p.text ((p.ancestors.find? view.has).map Path.text) := by
  obtain ⟨n, hn⟩ : ∃ n, p.names.length = n := ⟨_, rfl⟩
  -- the names left are what makes the walk end: each step up takes one away
  induction n generalizing p with
  | zero =>
    have hroot : p.names = [] := List.eq_nil_of_length_eq_zero hn
    rw [Path.ancestors_of_nil hroot, List.find?_singleton]
    cases hhas : view.has p with
    | true => exact .found hhas
    | false => exact .top hhas ((Path.directory_text_eq_self hp).mpr hroot)
  | succ n ih =>
    have hbelow : p.names ≠ [] := List.ne_nil_of_length_eq_add_one hn
    rw [Path.ancestors_of_ne hbelow, List.find?_cons]
    cases hhas : view.has p with
    | true => exact .found hhas
    | false =>
      have hlength : p.parent.names.length = n := by
        rw [Path.parent, List.length_dropLast, hn, Nat.add_sub_cancel]
      have hrest := ih hp.parent hlength
      rw [← Path.directory_text hp] at hrest
      exact .up hhas (mt (Path.directory_text_eq_self hp).mp hbelow) hrest

theorem ascends_iff {p : Path} (hp : p.Absolute) {r : Option Bytes} :
    Ascends view.present p.text r ↔ r = (p.ancestors.find? view.has).map Path.text := by
  refine ⟨fun h => h.unique (ascends_find? hp), ?_⟩
  rintro rfl
  exact ascends_find? hp

/-! ## Looking and loading -/

section

variable {σ α β : Type} {s : σ}

/-- Looking at files in front of a step. -/
theorem look_bind {look : StateM σ α} {x : α} (h : look s = (x, s))
    (f : α → ExceptT SettingsError (StateM σ) β) :
    ((liftM look : ExceptT SettingsError (StateM σ) α) >>= f) s = f x s := by
  change f (look s).1 (look s).2 = _
  rw [h]

theorem some_bind {step : ExceptT SettingsError (StateM σ) α} {result : Except SettingsError α}
    (h : step s = (result, s)) :
    (step >>= fun x => pure (some x)) s = (result.map some, s) := by
  change ExceptT.bindCont (fun x => (pure (some x) : ExceptT SettingsError (StateM σ) (Option α)))
    (step s).1 (step s).2 = _
  rw [h]
  cases result <;> rfl

variable [MonadFiles (StateM σ)]

theorem load_run (h : Shows s view) {d : Path} (hd : d.Absolute) :
    (load d.text : ExceptT SettingsError (StateM σ) Settings) s = (view.loaded d, s) := by
  unfold load FileView.loaded
  rw [look_bind (h.content _)]
  cases view.content? (Path.join d.text fileName) with
  | none => rfl
  | some content =>
    dsimp only
    cases ofBytes? content with
    | none => rfl
    | some t =>
      dsimp only
      rw [look_bind h.here, Path.absolute_text hd]
      rfl

/-- The first directory with a settings file decides, whether the file can be used or not. -/
theorem loadFirst_run (h : Shows s view) {ps : List Path} (hps : ∀ p ∈ ps, p.Absolute) :
    (loadFirst ps : ExceptT SettingsError (StateM σ) (Option Settings)) s =
      (view.outcome (ps.find? view.has), s) := by
  induction ps with
  | nil => rfl
  | cons p ps ih =>
    rw [List.forall_mem_cons] at hps
    rw [loadFirst, look_bind (h.present _), List.find?_cons]
    change (if view.has p then _ else _ : ExceptT SettingsError (StateM σ) (Option Settings)) s = _
    cases hhas : view.has p with
    | true => exact some_bind (load_run h hps.1)
    | false => exact ih hps.2

/-- A search gives what loading the first directory with a settings file gives, of the start and the
directories above it. -/
theorem find_run (h : Shows s view) (start : Bytes) :
    (find start : ExceptT SettingsError (StateM σ) (Option Settings)) s =
      (view.outcome ((Path.absolute view.here start).ancestors.find? view.has), s) := by
  have hp : (Path.absolute view.here start).Absolute :=
    Path.absolute_absolute view.here_absolute start
  unfold find
  rw [look_bind h.here]
  exact loadFirst_run h fun d hd => hp.above (Path.mem_ancestors.mp hd)

/-- **The nearest settings file wins.** A search for settings starts at a clean path from the root and
goes up directory by directory. The walk always ends, and in one way: at the deepest directory with a
settings file, of the start and the directories above it, or at none. The search gives no settings
exactly if none of them has the file. Else it gives what loading the settings of the nearest one gives:
settings that know this directory, or why the file cannot be used. Farther files do not count. -/
theorem find_nearest (h : Shows s view) (start : Bytes) :
    let p := Path.absolute view.here start
    p.Absolute ∧
    ∃ found result,
      (∀ r, Ascends view.present p.text r ↔ r = found.map Path.text) ∧
      (∀ d, found = some d ↔ view.Nearest p d) ∧
      (find start : ExceptT SettingsError (StateM σ) (Option Settings)) s = (result, s) ∧
      (result = .ok none ↔ ∀ d, d.Above p → view.has d = false) ∧
      ∀ d, found = some d →
        (load d.text : ExceptT SettingsError (StateM σ) Settings) s = (view.loaded d, s) ∧
        result = (view.loaded d).map some ∧
        ∀ t, view.loaded d = .ok t → t.directory = d.text := by
  intro p
  have hp : p.Absolute := Path.absolute_absolute view.here_absolute start
  have hancestors : ∀ d ∈ p.ancestors, d.Absolute := fun d hd => hp.above (Path.mem_ancestors.mp hd)
  refine ⟨hp, p.ancestors.find? view.has, _, fun r => ascends_iff hp,
    fun d => FileView.find?_ancestors_eq_some, find_run h start, ?_, fun d hd => ⟨?_, ?_, ?_⟩⟩
  · rw [FileView.outcome_eq_none, FileView.find?_ancestors_eq_none]
  · exact load_run h (hancestors d (List.mem_of_find?_eq_some hd))
  · rw [hd]
    rfl
  · exact fun t => FileView.directory_of_loaded

end

/-- Directories in each other, with settings in the outermost one and a malformed settings file in the
one below. -/
def shadowed : FileSystem where
  here := [utf8 "game"]
  entries := [([utf8 "game"], .directory),
    ([utf8 "game", fileName], .file (utf8 "[log]\nverbosity = 1\n")),
    ([utf8 "game", utf8 "scripts"], .directory),
    ([utf8 "game", utf8 "scripts", fileName], .file (utf8 "[output")),
    ([utf8 "game", utf8 "scripts", utf8 "ui"], .directory)]

/-- Two levels below the settings the malformed file is in the way. -/
theorem find_nearest_shadowed :
    Shows shadowed shadowed.view ∧
    (find (utf8 "scripts/ui") : ExceptT SettingsError (StateM FileSystem) (Option Settings))
      shadowed = (.error (.malformed (utf8 "/game/scripts/luidec.toml")), shadowed) := by
  refine ⟨shadowed.shows, ?_⟩
  obtain ⟨-, found, result, -, hfound, hrun, -, hloaded⟩ :=
    find_nearest shadowed.shows (utf8 "scripts/ui")
  have hnearest : found = some ⟨true, [utf8 "game", utf8 "scripts"]⟩ :=
    (hfound _).mpr (FileView.nearest_of_find? (by decide +kernel))
  have hmalformed : shadowed.view.loaded ⟨true, [utf8 "game", utf8 "scripts"]⟩ =
      .error (.malformed (utf8 "/game/scripts/luidec.toml")) := by
    decide +kernel
  rw [hrun, (hloaded _ hnearest).2.1, hmalformed]
  rfl

end Settings

end HavokScript
