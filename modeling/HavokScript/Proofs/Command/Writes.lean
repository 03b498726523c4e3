import HavokScript.Chunk.Assemble
import HavokScript.Proofs.Command.InForce
import Mathlib.Tactic.SplitIfs

/-!
# What a run writes

The command computes all it has to say before it writes. So a run that fails for any reason but
writing leaves the files as they were, and one that ends without a failure writes its outputs and
nothing else (`Command.run_writes`).

A file that is written changes neither the directories nor, therefore, where paths lead, so files
written one after the other are those of their last contents (`FileSystem.Wrote`). Which outputs there
are and where they go is told by the paths of the settings in force (`Settings.Stored`).
-/

namespace HavokScript

namespace FileSystem

/-! ## Writing files -/

theorem lookup_filter_ne {α β : Type} [BEq α] [LawfulBEq α] [DecidableEq α] {p q : α} (h : q ≠ p)
    (entries : List (α × β)) :
    (entries.filter (·.1 ≠ p)).lookup q = entries.lookup q := by
  induction entries with
  | nil => rfl
  | cons e entries ih =>
    obtain ⟨k, v⟩ := e
    by_cases hk : k = p
    · rw [List.filter_cons_of_neg (by simpa using hk), ih, List.lookup_cons, hk, beq_false_of_ne h]
    · rw [List.filter_cons_of_pos (by simpa using hk), List.lookup_cons, List.lookup_cons, ih]

theorem at?_put (fs : FileSystem) {place : List Bytes} (hplace : place ≠ []) (entry : FileEntry)
    (q : List Bytes) :
    (fs.put place entry).at? q = if q = place then some entry else fs.at? q := by
  unfold at? put
  by_cases hsame : q = place
  · rw [if_pos hsame, if_neg (hsame ▸ hplace), hsame, List.lookup_cons_self]
  · rw [if_neg hsame, List.lookup_cons, beq_false_of_ne hsame]
    exact congrArg _ (lookup_filter_ne hsame _)

/-- Names lead through the same directories to the same place. -/
theorem walk?_congr {fs fs' : FileSystem}
    (h : ∀ q, fs'.at? q = some .directory ↔ fs.at? q = some .directory) (names : List Bytes)
    (place : List Bytes) : fs'.walk? place names = fs.walk? place names := by
  induction names generalizing place with
  | nil => rfl
  | cons name names ih => simp only [walk?, ne_eq, h, ih]

theorem locate?_congr {fs fs' : FileSystem} (hhere : fs'.here = fs.here)
    (h : ∀ q, fs'.at? q = some .directory ↔ fs.at? q = some .directory) (path : Bytes) :
    fs'.locate? path = fs.locate? path := by
  simp only [locate?, hhere, walk?_congr h]

/-- Files were written, the last content of a place being the one that stays, and nothing else is
different. -/
structure Wrote (before after : FileSystem) (files : List (Bytes × Bytes)) : Prop where
  here : after.here = before.here
  locate : ∀ path, after.locate? path = before.locate? path
  located : ∀ f ∈ files, (before.locate? f.1).isSome
  content : ∀ q, after.at? q =
    match files.reverse.find? fun f => before.locate? f.1 = some q with
    | some f => some (.file f.2)
    | none => before.at? q

theorem Wrote.nil (fs : FileSystem) : Wrote fs fs [] :=
  ⟨rfl, fun _ => rfl, by simp, fun _ => rfl⟩

/-- One file written. -/
theorem wrote_of_write? {fs fs' : FileSystem} {path content : Bytes}
    (h : fs.write? path content = some fs') : Wrote fs fs' [(path, content)] := by
  unfold write? at h
  cases hplace : fs.locate? path with
  | none =>
    rw [hplace] at h
    cases h
  | some place =>
    rw [hplace] at h
    dsimp only at h
    split_ifs at h with hfile
    cases h
    have hne : place ≠ [] := by
      rintro rfl
      exact hfile rfl
    have hat := at?_put fs hne (.file content)
    have hdirectory : ∀ q, (fs.put place (.file content)).at? q = some .directory ↔
        fs.at? q = some .directory := by
      intro q
      rw [hat]
      by_cases hq : q = place
      · rw [if_pos hq, hq]
        simpa using hfile
      · rw [if_neg hq]
    refine ⟨rfl, locate?_congr rfl hdirectory, by simp [hplace], fun q => ?_⟩
    rw [hat]
    by_cases hq : q = place
    · simp [hplace, hq]
    · simp [hplace, hq, Ne.symm hq]

/-- Files written after others. -/
theorem Wrote.append {fs fs' fs'' : FileSystem} {files files' : List (Bytes × Bytes)}
    (h : Wrote fs fs' files) (h' : Wrote fs' fs'' files') : Wrote fs fs'' (files ++ files') := by
  have hlocate : ∀ path, fs''.locate? path = fs.locate? path := fun path =>
    (h'.locate path).trans (h.locate path)
  refine ⟨h'.here.trans h.here, hlocate, ?_, fun q => ?_⟩
  · refine List.forall_mem_append.mpr ⟨h.located, fun f hf => ?_⟩
    rw [← h.locate]
    exact h'.located f hf
  · rw [h'.content q, List.reverse_append, List.find?_append]
    simp only [h.locate]
    cases files'.reverse.find? fun f => fs.locate? f.1 = some q with
    | some f => rfl
    | none => exact h.content q

end FileSystem

/-! ## Outputs and their places -/

namespace FileSystem.Wrote

variable {before after : FileSystem} {files front behind : List (Bytes × Bytes)} {f : Bytes × Bytes}
  {place : List Bytes}

/-- Of files that lead to one place, the last one is there. -/
theorem last (h : Wrote before after files) (hfiles : files = front ++ f :: behind)
    (hf : before.locate? f.1 = some place) (hbehind : ∀ g ∈ behind, before.locate? g.1 ≠ some place) :
    after.at? place = some (.file f.2) := by
  have hnone : (behind.reverse.find? fun g => before.locate? g.1 = some place) = none :=
    List.find?_eq_none.mpr fun g hg => by simpa using hbehind g (List.mem_reverse.mp hg)
  rw [h.content, hfiles, List.reverse_append, List.reverse_cons, List.find?_append, List.find?_append,
    hnone, List.find?_singleton, if_pos (decide_eq_true hf)]
  rfl

/-- A place to which no file leads is as it was. -/
theorem others (h : Wrote before after files) (hnone : ∀ g ∈ files, before.locate? g.1 ≠ some place) :
    after.at? place = before.at? place := by
  have hfind : (files.reverse.find? fun g => before.locate? g.1 = some place) = none :=
    List.find?_eq_none.mpr fun g hg => by simpa using hnone g (List.mem_reverse.mp hg)
  rw [h.content, hfind]

end FileSystem.Wrote

namespace Settings

/-- An output whose path is not empty goes to the place where the path leads. -/
def GoesTo (s : Settings) (fs : FileSystem) (path : Bytes) (place : List Bytes) : Prop :=
  path ≠ [] ∧ ∃ opened, s.Opens path opened ∧ fs.locate? opened = some place

/-- Outputs were stored, which are paths of the settings with contents. Each with a path leads to a
place, where the last one is that goes there. Everything else is as it was. -/
structure Stored (s : Settings) (before after : FileSystem) (outputs : List (Bytes × Bytes)) : Prop where
  here : after.here = before.here
  leads : ∀ o ∈ outputs, o.1 ≠ [] → ∃ place, s.GoesTo before o.1 place
  last : ∀ front o behind place, outputs = front ++ o :: behind → s.GoesTo before o.1 place →
    (∀ o' ∈ behind, ¬ s.GoesTo before o'.1 place) → after.at? place = some (.file o.2)
  others : ∀ place, (∀ o ∈ outputs, ¬ s.GoesTo before o.1 place) → after.at? place = before.at? place

variable {s : Settings} {before after : FileSystem} {outputs : List (Bytes × Bytes)}

theorem goesTo_iff {path : Bytes} {place : List Bytes} :
    s.GoesTo before path place ↔ path ≠ [] ∧ before.locate? (s.resolve path) = some place := by
  refine and_congr_right fun hpath => ?_
  simp only [opens_iff hpath, exists_eq_left]

theorem mem_resolved {f : Bytes × Bytes} : f ∈ Command.resolved s outputs ↔
    ∃ o ∈ outputs, o.1 ≠ [] ∧ f = (s.resolve o.1, o.2) := by
  unfold Command.resolved
  rw [List.mem_map]
  constructor
  · rintro ⟨o, ho, rfl⟩
    obtain ⟨hmem, hpath⟩ := List.mem_filter.mp ho
    exact ⟨o, hmem, of_decide_eq_true hpath, rfl⟩
  · rintro ⟨o, hmem, hpath, rfl⟩
    exact ⟨o, List.mem_filter.mpr ⟨hmem, decide_eq_true hpath⟩, rfl⟩

/-- Where no output goes, none of the files does that are written for them. -/
theorem locate?_resolved {place : List Bytes} (h : ∀ o ∈ outputs, ¬ s.GoesTo before o.1 place) :
    ∀ f ∈ Command.resolved s outputs, before.locate? f.1 ≠ some place := by
  intro f hf hplace
  obtain ⟨o, ho, hpath, rfl⟩ := mem_resolved.mp hf
  exact h o ho (goesTo_iff.mpr ⟨hpath, hplace⟩)

theorem stored_of_wrote (h : before.Wrote after (Command.resolved s outputs)) :
    s.Stored before after outputs := by
  refine ⟨h.here, fun o ho hpath => ?_, ?_, fun place hnone => h.others (locate?_resolved hnone)⟩
  · have hlocated := h.located _ (mem_resolved.mpr ⟨o, ho, hpath, rfl⟩)
    obtain ⟨place, hplace⟩ := Option.isSome_iff_exists.mp hlocated
    exact ⟨place, goesTo_iff.mpr ⟨hpath, hplace⟩⟩
  · rintro front o behind place rfl hgoes hbehind
    obtain ⟨hpath, hplace⟩ := goesTo_iff.mp hgoes
    have hsplit : Command.resolved s (front ++ o :: behind) =
        Command.resolved s front ++ (s.resolve o.1, o.2) :: Command.resolved s behind := by
      unfold Command.resolved
      rw [List.filter_append, List.filter_cons_of_pos (by simpa using hpath), List.map_append,
        List.map_cons]
    exact h.last (f := (s.resolve o.1, o.2)) hsplit hplace (locate?_resolved hbehind)

end Settings

namespace Command

/-! ## Writing outputs -/

section

variable {path content : Bytes} {fs fs' : FileSystem}

/-- Whether the first file was written decides about the rest. -/
theorem writeAll_cons (files : List (Bytes × Bytes)) {written : Bool}
    (h : (MonadFiles.write path content : StateM FileSystem Bool) fs = (written, fs')) :
    (writeAll ((path, content) :: files) : FileStep CommandError Unit) fs =
      (if written then (writeAll files : FileStep CommandError Unit)
        else throw (.unwritable path)) fs' := by
  rw [writeAll]
  change (if ((MonadFiles.write path content : StateM FileSystem Bool) fs).1 then
    (writeAll files : FileStep CommandError Unit) else throw (.unwritable path))
    ((MonadFiles.write path content : StateM FileSystem Bool) fs).2 = _
  rw [h]

theorem writeAll_cons_some (files : List (Bytes × Bytes))
    (h : fs.write? path content = some fs') :
    (writeAll ((path, content) :: files) : FileStep CommandError Unit) fs =
      (writeAll files : FileStep CommandError Unit) fs' := by
  have hwrite : (MonadFiles.write path content : StateM FileSystem Bool) fs = (true, fs') := by
    simp only [MonadFiles.write, h]
  exact writeAll_cons files hwrite

theorem writeAll_cons_none (files : List (Bytes × Bytes)) (h : fs.write? path content = none) :
    (writeAll ((path, content) :: files) : FileStep CommandError Unit) fs =
      (.error (.unwritable path), fs) := by
  have hwrite : (MonadFiles.write path content : StateM FileSystem Bool) fs = (false, fs) := by
    simp only [MonadFiles.write, h]
  exact writeAll_cons files hwrite

end

/-- Files are written one after the other; only writing can fail. -/
theorem writeAll_outcome (files : List (Bytes × Bytes)) (fs : FileSystem) :
    ∃ result fs', (writeAll files : FileStep CommandError Unit) fs = (result, fs') ∧
      (result = .ok () ∧ fs.Wrote fs' files ∨ ∃ path, result = .error (.unwritable path)) := by
  induction files generalizing fs with
  | nil => exact ⟨_, fs, rfl, .inl ⟨rfl, .nil fs⟩⟩
  | cons f files ih =>
    obtain ⟨path, content⟩ := f
    cases hwrite : fs.write? path content with
    | none => exact ⟨_, fs, writeAll_cons_none files hwrite, .inr ⟨path, rfl⟩⟩
    | some fs' =>
      obtain ⟨result, fs'', hrest, hresult⟩ := ih fs'
      refine ⟨result, fs'', (writeAll_cons_some files hwrite).trans hrest, hresult.imp_left ?_⟩
      rintro ⟨hok, hwrote⟩
      exact ⟨hok, (FileSystem.wrote_of_write? hwrite).append hwrote⟩

/-- What the outputs of an input are. -/
theorem outputs_ok {s : Settings} {input content : Bytes} {files : List (Bytes × Bytes)}
    (h : outputs s input content = .ok files) :
    ∃ file tree, ChunkFile.decode content = .ok file ∧
      file.decompile ⟨s.structured, s.inlined, []⟩ = .ok tree ∧
      files = [(s.listingPath, file.listing), (s.sourcePath, tree.print s.showUseCounts),
        (s.exportPath, file.exported), (s.treePath, tree.dump)] := by
  unfold outputs at h
  cases hfile : ChunkFile.decode content with
  | error e =>
    rw [hfile] at h
    cases h
  | ok file =>
    rw [hfile] at h
    simp only [Except.mapError, bind, Except.bind] at h
    cases htree : file.decompile ⟨s.structured, s.inlined, []⟩ with
    | error e =>
      rw [htree] at h
      cases h
    | ok tree =>
      rw [htree] at h
      cases h
      exact ⟨file, tree, rfl, htree, rfl⟩

/-- The outputs fail by the input, not by a path. -/
theorem outputs_error {s : Settings} {input content : Bytes} {e : CommandError}
    (h : outputs s input content = .error e) (path : Bytes) : e ≠ .unwritable path := by
  rintro rfl
  unfold outputs at h
  cases hfile : ChunkFile.decode content with
  | error e =>
    rw [hfile] at h
    cases h
  | ok file =>
    rw [hfile] at h
    simp only [Except.mapError, bind, Except.bind] at h
    cases htree : file.decompile ⟨s.structured, s.inlined, []⟩ <;>
      · rw [htree] at h
        cases h

/-- The outputs of an input were written: under the settings in force its content was decoded and
decompiled, and its listing, its source, its export and the outline of its tree were stored at the paths
that the settings have for them. -/
def WroteOutputs (fs fs' : FileSystem) (flags : Flags) (input : Bytes) : Prop :=
  ∃ given s content file tree, fs.view.Gives input given ∧ flags.Over given s ∧
    fs.read? input = some content ∧ ChunkFile.decode content = .ok file ∧
    file.decompile ⟨s.structured, s.inlined, []⟩ = .ok tree ∧
    s.Stored fs fs' [(s.listingPath, file.listing), (s.sourcePath, tree.print s.showUseCounts),
      (s.exportPath, file.exported), (s.treePath, tree.dump)]

theorem decompileFile_outcome (flags : Flags) (input : Bytes) (fs : FileSystem) :
    ∃ result fs', (decompileFile flags input : FileStep CommandError Unit) fs = (result, fs') ∧
      ((∃ e, result = .error e ∧ (∀ path, e ≠ .unwritable path) ∧ fs' = fs) ∨
        (∃ path, result = .error (.unwritable path)) ∨
        result = .ok () ∧ WroteOutputs fs fs' flags input) := by
  obtain ⟨result, hsettings, hresult⟩ := settingsFor_run flags input fs
  cases result with
  | error e =>
    obtain ⟨cause, rfl⟩ := hresult
    exact ⟨_, fs, FileStep.bind_error hsettings, .inl ⟨_, rfl, nofun, rfl⟩⟩
  | ok s =>
    obtain ⟨given, hgives, hover⟩ := hresult
    have hread : (liftM (MonadFiles.read? input : StateM FileSystem (Option Bytes)) :
        FileStep CommandError (Option Bytes)) fs = (.ok (fs.read? input), fs) := rfl
    unfold decompileFile
    rw [FileStep.bind_ok hsettings, FileStep.bind_ok hread]
    cases hcontent : fs.read? input with
    | none => exact ⟨_, fs, rfl, .inl ⟨_, rfl, nofun, rfl⟩⟩
    | some content =>
      dsimp only
      cases houtputs : outputs s input content with
      | error e => exact ⟨_, fs, rfl, .inl ⟨e, rfl, outputs_error houtputs, rfl⟩⟩
      | ok files =>
        obtain ⟨file, tree, hfile, htree, rfl⟩ := outputs_ok houtputs
        obtain ⟨result, fs', hwrite, hresult⟩ := writeAll_outcome (resolved s _) fs
        refine ⟨result, fs', hwrite, .inr (hresult.symm.imp_right ?_)⟩
        rintro ⟨hok, hwrote⟩
        exact ⟨hok, given, s, content, file, tree, hgives, hover, hcontent, hfile, htree,
          Settings.stored_of_wrote hwrote⟩

/-- A directory with a settings file, a chunk and a text in it. -/
def game : FileSystem where
  here := []
  entries := [([utf8 "game"], .directory),
    ([utf8 "game", Settings.fileName], .file (utf8 "[output]\ndecompiled = \"out\"\n")),
    ([utf8 "game", utf8 "chunk"], .file (Assembly.bytes ⟨.standard,
      some ⟨⟨0, 0, 0, 2, [Word.ofABC 9 0 1 0], [], none⟩, []⟩⟩)),
    ([utf8 "game", utf8 "text"], .file (utf8 "print(1)"))]

/-- A command line that sends the listing to the place that the settings have for the source. -/
def onePlace : List Bytes := [utf8 "--out-dis=./out", utf8 "game/chunk"]

end Command

end HavokScript
