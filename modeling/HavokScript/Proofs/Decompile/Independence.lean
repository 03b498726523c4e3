import HavokScript.Proofs.Chunk.Layouts

/-!
# The source text does not depend on the layout

`sourceText` goes from the bytes of a chunk file to the text of its source, or to the kind of the
failure. If a function is written under two headers that declare the same kind and width of numbers,
and whatever else they declare, the two files give the same (`sourceText_layout`). Three steps lead
there. Both files are read alike, function by function (`decode_layouts`). Functions that are alike
are decompiled to trees that differ in addresses only (`ChunkFile.decompile_alike`). And the text of
a tree has no addresses in it (`Node.print_moved`).

What both files give is a text or a failure that has a kind, if the ends of numeric loops branch
back. An end that leads forward past itself breaks both of them (`sourceText_forwardLoop`).
-/

namespace HavokScript

/-- Why there is no source text: the file cannot be read, or a function cannot be decompiled. -/
inductive SourceFault where
  | decode (fault : DecodeFault)
  | decompile (fault : DecompileFault)
  deriving DecidableEq, Repr

/-- The source text of the chunk file at the front of a byte string, or the kind of the failure. A
failure that breaks off decompiling has no kind. -/
def sourceText (o : Options) (counts : Bool) (data : Bytes) :
    Except (Option SourceFault) Bytes := do
  let f ← (ChunkFile.decode data).mapError fun e => e.cause.fault?.map .decode
  let tree ← (f.decompile o).mapError fun e => e.fault?.map .decompile
  return tree.print counts

/-! ## Equal texts -/

section

variable {f : SourceFunction} {h h' : Header}

theorem Assembly.length_bytes (h : Header) (f : SourceFunction) :
    (Assembly.bytes ⟨h, some f⟩).length = (Assembly.headerBytes h).length +
      (Assembly.function h (Assembly.headerBytes h).length f).length := List.length_append

/-- Two layouts of a function are read alike. -/
theorem decode_layouts (hh : h.Accepted) (hh' : h'.Accepted)
    (htype : h'.numberType = h.numberType) (hsize : h'.numberSize = h.numberSize) (hf : f.Fits h)
    (hf' : f.Fits h') (hlength : (Assembly.bytes ⟨h, some f⟩).length < 2 ^ 63)
    (hlength' : (Assembly.bytes ⟨h', some f⟩).length < 2 ^ 63) :
    Agree (fun d d' => ∃ p p', d.root = some p ∧ d'.root = some p' ∧ p.Alike p')
      (fun e e' => e.cause.fault? = e'.cause.fault?)
      (ChunkFile.decode (Assembly.bytes ⟨h, some f⟩))
      (ChunkFile.decode (Assembly.bytes ⟨h', some f⟩)) := by
  have hread := Decoder.decode_readBack h hh f hf
  have hread' := Decoder.decode_readBack h' hh' f hf'
  rw [Assembly.length_bytes] at hlength hlength'
  have halike := f.readBack_alike htype hsize hlength hlength'
  generalize f.readBack h _ = x at hread halike
  generalize f.readBack h' _ = x' at hread' halike
  generalize ChunkFile.decode (Assembly.bytes ⟨h, some f⟩) = y at hread ⊢
  generalize ChunkFile.decode (Assembly.bytes ⟨h', some f⟩) = y' at hread' ⊢
  cases halike with
  | ok hp =>
    cases hread with
    | ok hroot =>
      cases hread' with
      | ok hroot' => exact .ok ⟨_, _, hroot, hroot', hp⟩
  | error hfault =>
    cases hread with
    | error he =>
      cases hread' with
      | error he' => exact .error (by rw [he, he', hfault])

theorem sourceText_congr {data data' : Bytes} {o : Options} (ho : o.stages = [])
    (hdecode : Agree (fun d d' => ∃ p p', d.root = some p ∧ d'.root = some p' ∧ p.Alike p')
      (fun e e' => e.cause.fault? = e'.cause.fault?) (ChunkFile.decode data)
      (ChunkFile.decode data')) (counts : Bool) :
    sourceText o counts data' = sourceText o counts data := by
  refine (hdecode.bind_eq ?_ ?_).symm
  · intro e e' he
    rw [he]
  · rintro d d' ⟨p, p', hp, hp', halike⟩
    refine (ChunkFile.decompile_alike ho hp hp' halike).bind_eq ?_ ?_
    · intro e e' he
      rw [show e.fault? = e'.fault? from he]
    · intro n n' hn
      rw [← Node.print_moved nowhere counts n, ← hn, Node.print_moved]

end

/-! ## Failures with a kind -/

mutual

/-- The function and all below it, without their closures. -/
def SourceFunction.codes : SourceFunction → List SourceCode
  | ⟨f, closures⟩ => f :: SourceFunction.codesAll closures

/-- The functions and all below them. -/
def SourceFunction.codesAll : List SourceFunction → List SourceCode
  | [] => []
  | f :: fs => f.codes ++ SourceFunction.codesAll fs

end

/-- All ends of numeric loops branch back. -/
def SourceFunction.LoopsBranchBack (f : SourceFunction) : Prop :=
  ∀ c ∈ f.codes, ∀ w ∈ c.words, Opcode.ofCode? (Word.op w) = some .forLoop → Word.sbx w < 0

/-- The function was read from words of one of the functions. -/
def Prototype.ReadFrom (codes : List SourceCode) (p : Prototype) : Prop :=
  p.Decoded ∧ ∃ c ∈ codes, ∀ i ∈ p.instructions.items, i.raw ∈ c.words

theorem Prototype.ReadFrom.mono {codes codes' : List SourceCode} (h : codes ⊆ codes')
    {p : Prototype} : p.ReadFrom codes → p.ReadFrom codes' := by
  rintro ⟨hdecoded, c, hc, hwords⟩
  exact ⟨hdecoded, c, h hc, hwords⟩

theorem SourceCode.readBack_from (h : Header) (n : Nat) (f : SourceCode) :
    Outcome (fun c => ∀ ps, Prototype.ReadFrom [f] ⟨c, ps⟩) (fun _ => True) (f.readBack h n) := by
  refine (words_readBack_outcome h _ f.words).bind fun is his => ?_
  refine (outcome_any _).bind fun ks _ => Outcome.pure fun ps => ?_
  exact ⟨fun i hi => (his i hi).1, f, by simp, fun i hi => (his i hi).2.1⟩

mutual

theorem SourceFunction.readBack_from (h : Header) (n : Nat) (f : SourceFunction) :
    Outcome (fun p => ∀ q ∈ p.walk, q.ReadFrom f.codes) (fun _ => True) (f.readBack h n) := by
  obtain ⟨f, closures⟩ := f
  refine (f.readBack_from h n).bind fun c hc => ?_
  refine (SourceFunction.readBacks_from h _ closures).bind fun ps hps => Outcome.pure ?_
  intro q hq
  rcases Prototype.mem_walk.mp hq with rfl | ⟨p, hp, hq⟩
  · exact (hc _).mono (by simp [SourceFunction.codes])
  · exact (hps p hp q hq).mono (by simp [SourceFunction.codes])

theorem SourceFunction.readBacks_from (h : Header) (n : Nat) (fs : List SourceFunction) :
    Outcome (fun ps => ∀ p ∈ ps, ∀ q ∈ p.walk, q.ReadFrom (SourceFunction.codesAll fs))
      (fun _ => True) (SourceFunction.readBacks h n fs) := by
  cases fs with
  | nil => exact fun _ hp => absurd hp List.not_mem_nil
  | cons f fs =>
    refine (SourceFunction.readBack_from h n f).bind fun p hp => ?_
    refine (SourceFunction.readBacks_from h _ fs).bind fun ps hps => Outcome.pure ?_
    rw [List.forall_mem_cons]
    refine ⟨fun q hq => (hp q hq).mono ?_, fun p' hp' q hq => (hps p' hp' q hq).mono ?_⟩
    · exact List.subset_append_left _ _
    · exact List.subset_append_right _ _

end

theorem DecompileError.Declared.fault {e : DecompileError} (h : e.Declared) :
    ∃ fault, e.fault? = some fault := by
  obtain ⟨address, op, cause, rfl, hcause⟩ := h
  cases cause with
  | missingOperand index => exact absurd hcause id
  | _ => exact ⟨_, rfl⟩

/-- Functions whose loops branch back do not overrun. -/
theorem Prototype.ReadFrom.not_overruns {f : SourceFunction} (hf : f.LoopsBranchBack)
    {p : Prototype} (hp : p.ReadFrom f.codes) (o : Options) : ¬ p.toCode.Overruns o := by
  intro hover
  obtain ⟨hdecoded, c, hc, hwords⟩ := hp
  obtain ⟨i, hi, hop, hoffset⟩ := hdecoded.overruns_forward hover
  have hraw : i.op = Word.op i.raw := by
    obtain ⟨address, hdecode⟩ := hdecoded i hi
    exact Instruction.decode_op hdecode
  have hback := hf c hc i.raw (hwords i hi) (hraw ▸ hop)
  rw [Lower.forLoop_argument (hdecoded i hi) hop] at hoffset
  omega

theorem ChunkFile.decompile_declared {f : SourceFunction} (hf : f.LoopsBranchBack)
    {d : ChunkFile} {p : Prototype} (hp : d.root = some p)
    (hwalk : ∀ q ∈ p.walk, q.ReadFrom f.codes) {o : Options} (ho : o.stages = []) :
    Outcome (fun _ => True) DecompileError.Declared (d.decompile o) := by
  have hfile : d.walk = p.walk := by rw [ChunkFile.walk, hp]
  refine (ChunkFile.decompile_outcome (by rw [hp]; rfl) o).mono (fun _ _ => trivial) ?_
  rintro e (⟨before, q, after, hsplit, -, hq⟩ | ⟨-, hunbound⟩)
  · -- the first function that cannot be declared decides
    have hfrom := hwalk q (by rw [← hfile, hsplit]; simp)
    have hdeclaration := hfrom.1.declaration ho
    rw [hq] at hdeclaration
    rcases hdeclaration with ⟨-, hover⟩ | ⟨-, hdeclared⟩
    · exact absurd hover (hfrom.not_overruns hf o)
    · exact hdeclared
  · exact hunbound.declared

theorem sourceText_cases {f : SourceFunction} (hback : f.LoopsBranchBack) {h : Header}
    (hh : h.Accepted) (hf : f.Fits h) {o : Options} (ho : o.stages = []) (counts : Bool) :
    (∃ text, sourceText o counts (Assembly.bytes ⟨h, some f⟩) = .ok text) ∨
      ∃ fault, sourceText o counts (Assembly.bytes ⟨h, some f⟩) = .error (some fault) := by
  have hread := Decoder.decode_readBack h hh f hf
  have hfrom := f.readBack_from h (Assembly.headerBytes h).length
  unfold sourceText
  generalize ChunkFile.decode _ = x at hread
  generalize f.readBack h _ = v at hread hfrom
  cases hread with
  | @error fault e he =>
    refine .inr ⟨.decode fault, ?_⟩
    show Except.error (e.cause.fault?.map SourceFault.decode) = _
    rw [he]
    rfl
  | @ok p d hroot =>
    have hdecompile := ChunkFile.decompile_declared hback hroot hfrom ho
    change (∃ text, ((d.decompile o).mapError _ >>= fun tree => _) = _) ∨
      ∃ fault, ((d.decompile o).mapError _ >>= fun tree => _) = _
    cases hrun : d.decompile o with
    | ok tree => exact .inl ⟨tree.print counts, rfl⟩
    | error e =>
      rw [hrun] at hdecompile
      obtain ⟨fault, hfault⟩ := hdecompile.fault
      refine .inr ⟨.decompile fault, ?_⟩
      show Except.error (e.fault?.map SourceFault.decompile) = _
      rw [hfault]
      rfl

/-! ## Both layouts -/

/-- **The source text does not depend on the layout.** A function that is written under two accepted
headers with the same number type and number size gives the same source text for both, or a failure
of the same kind. The two may differ in everything else that a header declares: signature, version,
format, byte order, widths, flags, sharing mode and type records. If the ends of numeric loops branch
back, a failure has a kind. Lengths fit their fields, and a byte string has fewer than `2 ^ 63`
bytes. -/
theorem sourceText_layout (f : SourceFunction) (h h' : Header) (hh : h.Accepted) (hh' : h'.Accepted)
    (htype : h'.numberType = h.numberType) (hsize : h'.numberSize = h.numberSize) (hf : f.Fits h)
    (hf' : f.Fits h') (hlength : (Assembly.bytes ⟨h, some f⟩).length < 2 ^ 63)
    (hlength' : (Assembly.bytes ⟨h', some f⟩).length < 2 ^ 63) (o : Options) (ho : o.stages = [])
    (counts : Bool) :
    sourceText o counts (Assembly.bytes ⟨h', some f⟩) =
      sourceText o counts (Assembly.bytes ⟨h, some f⟩) ∧
    (f.LoopsBranchBack →
      (∃ text, sourceText o counts (Assembly.bytes ⟨h, some f⟩) = .ok text) ∨
      ∃ fault, sourceText o counts (Assembly.bytes ⟨h, some f⟩) = .error (some fault)) := by
  have hdecode := decode_layouts hh hh' htype hsize hf hf' hlength hlength'
  exact ⟨sourceText_congr ho hdecode counts, fun hback => sourceText_cases hback hh hf ho counts⟩

/-- A big-endian header of the older revision with sizes of four bytes and a custom type. -/
def Header.bigEndian : Header where
  signature := 0x1B4C7561
  version := 0x52
  format := 13
  endianness := 0
  intSize := 8
  sizeSize := 4
  instructionSize := 4
  numberSize := 8
  numberType := 0
  buildFlags := 3
  sharingMode := 2
  types := some [⟨7, [86, 101, 99, 0]⟩]

/-- A numeric loop that sets a global to its variable, with a closure that only returns. Its
constants hold a number, an address that does not fit four bytes and a string. -/
def SourceFunction.counting : SourceFunction :=
  ⟨⟨0, 1, 0, 6, [Word.ofABx 25 1 0, Word.ofABx 25 2 0, Word.ofABx 25 3 0, Word.ofAsBx 62 1 1,
      Word.ofABx 27 4 2, Word.ofAsBx 63 1 (-2), Word.ofABC 9 0 1 0],
    [⟨.number, .float ⟨0x4004000000000000⟩⟩, ⟨.lightUserdata, .unsigned 0x123456789⟩,
      ⟨.string, .string [97]⟩], some 9⟩,
    [⟨⟨0, 0, 1, 2, [Word.ofABC 9 0 1 0], [], none⟩, []⟩]⟩

theorem Header.Accepted.le_sizeBound {h : Header} (hh : h.Accepted) :
    0x100000000 ≤ h.sizeBound := by
  rcases hh.sizeSize with hsize | hsize <;> rw [Header.sizeBound, hsize] <;> decide

theorem Header.standard_accepted : Header.standard.Accepted :=
  ⟨by decide, by decide, by decide, by decide, by decide, by decide⟩

theorem Header.bigEndian_accepted : Header.bigEndian.Accepted :=
  ⟨by decide, by decide, by decide, by decide, by decide, by decide⟩

theorem SourceFunction.fits_counting {h : Header} (hh : h.Accepted) :
    SourceFunction.counting.Fits h := by
  have hbound := hh.le_sizeBound
  refine .intro ⟨?_, ?_, by decide⟩ (by decide) (List.forall_mem_singleton.mpr ?_)
  · exact Nat.lt_of_lt_of_le (by decide) hbound
  · intro c hc hstring
    have hshort : (Assembly.stringOf c.payload).length + 1 < 0x100000000 := by
      revert c
      simp [Assembly.stringOf]
    omega
  · refine .intro ⟨?_, by simp, by decide⟩ (by decide) (by simp)
    exact Nat.lt_of_lt_of_le (by decide) hbound

theorem sourceText_layout_counting :
    Header.standard.Accepted ∧ Header.bigEndian.Accepted ∧
      SourceFunction.counting.Fits .standard ∧ SourceFunction.counting.Fits .bigEndian ∧
      SourceFunction.counting.LoopsBranchBack ∧
      ∃ text,
        sourceText .standard true (Assembly.bytes ⟨.standard, some .counting⟩) = .ok text ∧
        sourceText .standard true (Assembly.bytes ⟨.bigEndian, some .counting⟩) = .ok text := by
  have hf := SourceFunction.fits_counting Header.standard_accepted
  have hf' := SourceFunction.fits_counting Header.bigEndian_accepted
  have hback : SourceFunction.counting.LoopsBranchBack := by
    have hall : SourceFunction.counting.codes.all fun c => c.words.all fun w =>
        Opcode.ofCode? (Word.op w) != some .forLoop || Word.sbx w < 0 := by
      decide +kernel
    intro c hc w hw hop
    simpa [hop] using List.all_eq_true.mp (List.all_eq_true.mp hall c hc) w hw
  have hok : (sourceText .standard true (Assembly.bytes ⟨.standard, some .counting⟩)).isOk := by
    decide +kernel
  obtain ⟨hsame, hcases⟩ := sourceText_layout .counting .standard .bigEndian
    Header.standard_accepted Header.bigEndian_accepted rfl rfl hf hf' (by decide +kernel)
    (by decide +kernel) .standard rfl true
  refine ⟨Header.standard_accepted, Header.bigEndian_accepted, hf, hf', hback, ?_⟩
  rw [hsame]
  rcases hcases hback with ⟨text, htext⟩ | ⟨fault, hfault⟩
  · exact ⟨text, htext, htext⟩
  · rw [hfault] at hok
    cases hok

theorem SourceFunction.fits_forwardLoop {h : Header} (hh : h.Accepted) {f : SourceFunction}
    (hroot : Assembly.forwardLoop.root = some f) : f.Fits h := by
  cases hroot
  refine .intro ⟨?_, by simp, by decide⟩ (by decide) (by simp)
  exact Nat.lt_of_lt_of_le (by decide) hh.le_sizeBound

/-- With the end of a numeric loop that leads forward past itself, two layouts give neither the same
text nor failures of the same kind. -/
theorem sourceText_forwardLoop :
    ∃ f, Assembly.forwardLoop.root = some f ∧ Header.standard.Accepted ∧
      Header.bigEndian.Accepted ∧ f.Fits .standard ∧ f.Fits .bigEndian ∧
      Options.standard.stages = [] ∧
      ¬ ((∃ text, sourceText .standard false (Assembly.bytes ⟨.standard, some f⟩) = .ok text ∧
          sourceText .standard false (Assembly.bytes ⟨.bigEndian, some f⟩) = .ok text) ∨
        ∃ fault,
          sourceText .standard false (Assembly.bytes ⟨.standard, some f⟩) = .error (some fault) ∧
          sourceText .standard false (Assembly.bytes ⟨.bigEndian, some f⟩) =
            .error (some fault)) := by
  have hbreaks : (match sourceText .standard false (Assembly.bytes Assembly.forwardLoop) with
      | .error none => true
      | _ => false) = true := by
    decide +kernel
  refine ⟨_, rfl, Header.standard_accepted, Header.bigEndian_accepted,
    SourceFunction.fits_forwardLoop Header.standard_accepted rfl,
    SourceFunction.fits_forwardLoop Header.bigEndian_accepted rfl, rfl, ?_⟩
  rintro (⟨text, htext, -⟩ | ⟨fault, hfault, -⟩)
  · rw [show Assembly.forwardLoop = ⟨.standard, some _⟩ from rfl, htext] at hbreaks
    cases hbreaks
  · rw [show Assembly.forwardLoop = ⟨.standard, some _⟩ from rfl, hfault] at hbreaks
    cases hbreaks

end HavokScript
