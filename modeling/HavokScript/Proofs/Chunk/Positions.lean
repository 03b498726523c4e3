import HavokScript.Proofs.Chunk.Decoded
import HavokScript.Proofs.Chunk.Delimited

/-!
# Where decoding stands

A decoder goes through its data from front to back and never changes it, so all it can do from a
position is to end at a later one or to fail. `Decoder.Runs` says this of a step, with what holds of
the value and of the position at which the step ends.

* A failure is `DecodeError.Located`: its offset lies in the data, its cause is one of the five
  declared kinds, and where it names an opcode or a tag, that one stands at the offset
  (`decode_failure_located`).
* A decoded function is `Code.PlacedIn` the bytes it was read from, and the functions of a file are
  `Prototype.Laid` one behind the other in the order of the walk (`Decoder.prototype_runs`).

The width of a size is checked in the header, which is why no number of any other width is ever read
behind it.
-/

namespace HavokScript

/-- The word that stands at a position, if the data reaches that far. -/
def Bytes.word? (o : ByteOrder) (data : Bytes) (n : Nat) : Option Word :=
  if n + 4 ≤ data.length then some (toNat o ((data.drop n).take 4)).toUInt32 else none

/-- The byte order that a chunk file declares in its seventh byte. -/
def declaredOrder (data : Bytes) : ByteOrder := endiannessOrder (data.getD 6 0)

/-! ## Failures -/

/-- The kinds of failures of decoding. -/
inductive DecodeFault where
  | unexpectedEnd | unsupportedFormat | unsupportedWidth | unsupportedConstant | unknownOpcode
  deriving DecidableEq, Repr

/-- The kind of a cause. Of the cursor's own errors only the end of the data is one. -/
def DecodeCause.fault? : DecodeCause → Option DecodeFault
  | cursor (.unexpectedEnd ..) | oversized .. | tooManyInstructions _ => some .unexpectedEnd
  | cursor _ => none
  | unsupportedFormat _ => some .unsupportedFormat
  | unsupportedWidth .. => some .unsupportedWidth
  | unknownOpcode _ => some .unknownOpcode
  | unsupportedConstant _ => some .unsupportedConstant

/-- The tags of the constants that a chunk file can have. -/
def Tag.supported : List Tag := [.nil, .boolean, .lightUserdata, .number, .string, .ui64]

/-- The failure lies in the data and has a kind; an opcode or a tag that it is about is unknown and
stands where the failure is. -/
structure DecodeError.Located (data : Bytes) (e : DecodeError) : Prop where
  inside : e.offset ≤ data.length
  kind : ∃ fault, e.cause.fault? = some fault
  opcode : e.cause.fault? = some .unknownOpcode → e.offset % 4 = 0 ∧
    ∃ w, data.word? (declaredOrder data) e.offset = some w ∧ Opcode.ofCode? w.op = none
  constant : e.cause.fault? = some .unsupportedConstant →
    ∃ code, data[e.offset]? = some code ∧ ⟨code⟩ ∉ Tag.supported

/-- A failure that is about neither an opcode nor a tag. -/
theorem DecodeError.located_of_fault {data : Bytes} {e : DecodeError} {fault : DecodeFault}
    (hinside : e.offset ≤ data.length) (hfault : e.cause.fault? = some fault)
    (hopcode : fault ≠ .unknownOpcode) (hconstant : fault ≠ .unsupportedConstant) :
    e.Located data := by
  refine ⟨hinside, ⟨fault, hfault⟩, ?_, ?_⟩
  · intro h
    exact absurd (Option.some.inj (hfault.symm.trans h)) hopcode
  · intro h
    exact absurd (Option.some.inj (hfault.symm.trans h)) hconstant

/-! ## Steps -/

/-- The cursor at a position of the data, with no other position saved. -/
def Cursor.placed (data : Bytes) (o : ByteOrder) (n : Nat) : Cursor := ⟨data, n, o, []⟩

namespace Decoder

open Cursor (placed)

variable {α β : Type} {data : Bytes} {o o' o'' : ByteOrder} {n : Nat} {P : α → Nat → Prop}
  {Q : β → Nat → Prop}

/-- From position `n` and in byte order `o` the step ends at a later position in byte order `o'`, such
that `P` holds of the value and the position, or its failure is located. -/
def Runs (data : Bytes) (o : ByteOrder) (n : Nat) (step : Decoder α) (o' : ByteOrder)
    (P : α → Nat → Prop) : Prop :=
  n ≤ data.length →
    Outcome (fun r => ∃ m, r.2 = placed data o' m ∧ n ≤ m ∧ m ≤ data.length ∧ P r.1 m)
      (DecodeError.Located data) (step (placed data o n))

theorem Runs.pure {x : α} (h : P x n) : Runs data o n (pure x) o P :=
  fun hn => ⟨n, rfl, Nat.le_refl n, hn, h⟩

theorem Runs.bind {s : Decoder α} {f : α → Decoder β} (hs : Runs data o n s o' P)
    (hf : ∀ x m, n ≤ m → m ≤ data.length → P x m → Runs data o' m (f x) o'' Q) :
    Runs data o n (s >>= f) o'' Q := by
  intro hn
  refine (hs hn).bind ?_
  rintro ⟨x, c⟩ ⟨m, rfl, hnm, hm, hP⟩
  refine (hf x m hnm hm hP hm).mono ?_ fun _ he => he
  rintro r' ⟨m', hcursor', hmm', hm', hQ⟩
  exact ⟨m', hcursor', Nat.le_trans hnm hmm', hm', hQ⟩

theorem Runs.mono {s : Decoder α} {P' : α → Nat → Prop} (hs : Runs data o n s o' P)
    (h : ∀ x m, n ≤ m → P x m → P' x m) : Runs data o n s o' P' := by
  intro hn
  refine (hs hn).mono ?_ fun _ he => he
  rintro r ⟨m, hcursor, hnm, hm, hP⟩
  exact ⟨m, hcursor, hnm, hm, h _ _ hnm hP⟩

/-- A step that looks at the cursor first. -/
theorem Runs.look {f : Cursor → Decoder α} (hf : Runs data o n (f (placed data o n)) o' P) :
    Runs data o n (get >>= f) o' P := hf

theorem Runs.within {s : Decoder α} (context : Context) (hs : Runs data o n s o' P) :
    Runs data o n (within context s) o' P := by
  intro hn
  have h := hs hn
  unfold Decoder.within
  cases hrun : s (placed data o n) with
  | ok r => rwa [hrun] at h
  | error e =>
    rw [hrun] at h
    exact ⟨h.inside, h.kind, h.opcode, h.constant⟩

theorem fail_runs {cause : DecodeCause} {fault : DecodeFault} (hfault : cause.fault? = some fault)
    (hopcode : fault ≠ .unknownOpcode) (hconstant : fault ≠ .unsupportedConstant) :
    Runs data o n (fail cause) o' P :=
  fun hn => DecodeError.located_of_fault hn hfault hopcode hconstant

/-- A check of the header, whose failure is about neither an opcode nor a tag. -/
theorem unless_runs {p : Prop} [Decidable p] {cause : DecodeCause} {fault : DecodeFault}
    {f : Unit → Decoder α} (hfault : cause.fault? = some fault) (hopcode : fault ≠ .unknownOpcode)
    (hconstant : fault ≠ .unsupportedConstant) (hf : p → Runs data o n (f ()) o' P) :
    Runs data o n (if p then f () else fail cause >>= f) o' P := by
  by_cases hp : p
  · rw [if_pos hp]
    exact hf hp
  · rw [if_neg hp]
    have hfail : Runs data o n (fail cause : Decoder Unit) o fun _ _ => False :=
      fail_runs hfault hopcode hconstant
    exact hfail.bind fun _ _ _ _ h => h.elim

/-- A check that enough bytes are left. -/
theorem room_runs {p : Prop} [Decidable p] {cause : DecodeCause} {f : Unit → Decoder α}
    (hfault : cause.fault? = some .unexpectedEnd) (hf : ¬ p → Runs data o n (f ()) o' P) :
    Runs data o n (if p then fail cause >>= f else f ()) o' P := by
  by_cases hp : p
  · rw [if_pos hp]
    have hfail : Runs data o n (fail cause : Decoder Unit) o fun _ _ => False :=
      fail_runs hfault (by decide) (by decide)
    exact hfail.bind fun _ _ _ _ h => h.elim
  · rw [if_neg hp]
    exact hf hp

/-! ## Bytes and numbers -/

theorem take_runs (k : Int) :
    Runs data o n (lift (Cursor.take k)) o fun bs m => 0 ≤ k ∧ m = n + k.toNat ∧
      bs = (data.drop n).take k.toNat := by
  intro hn
  have hremaining : (placed data o n).remaining = data.length - n := rfl
  unfold lift Cursor.take
  rw [hremaining]
  by_cases hlack : k < 0 ∨ ((data.length - n : Nat) : Int) < k
  · rw [if_pos hlack]
    exact DecodeError.located_of_fault hn rfl (by decide) (by decide)
  · rw [if_neg hlack]
    exact ⟨n + k.toNat, rfl, by omega, by omega, by omega, rfl, rfl⟩

theorem TakesBytes.runs {step : Read α} {count : Nat → Nat} {value : ByteOrder → Bytes → α}
    (hstep : TakesBytes step count value) :
    Runs data o n (lift step) o fun x m => m = n + count n ∧
      x = value o ((data.drop n).take (count n)) := by
  intro hn
  have htake := @take_runs data o n (count n) hn
  have hread := hstep (placed data o n)
  change step (placed data o n) = (Cursor.take (count n) (placed data o n)).map _ at hread
  unfold lift at htake ⊢
  rw [hread]
  cases hrun : Cursor.take (count n) (placed data o n) with
  | error e =>
    rw [hrun] at htake
    exact htake
  | ok r =>
    rw [hrun] at htake
    obtain ⟨m, hcursor, hnm, hm, -, rfl, hbs⟩ := htake
    exact ⟨_, hcursor, hnm, hm, rfl, congrArg (value o) hbs⟩

theorem word_runs (part : Part) :
    Runs data o n (word part) o fun w m => m = n + 4 ∧ data.word? o n = some w := by
  refine ((unsigned_takesBytes 4).runs.within _).bind ?_
  rintro x m - hm ⟨rfl, rfl⟩
  exact Runs.pure ⟨rfl, if_pos hm⟩

theorem byte_runs (part : Part) :
    Runs data o n (byte part) o fun b m => m = n + 1 ∧ data[n]? = some b := by
  refine ((unsigned_takesBytes 1).runs.within _).bind ?_
  rintro x m - hm ⟨rfl, rfl⟩
  refine Runs.pure ⟨rfl, ?_⟩
  have hlt : n < data.length := by omega
  have hbyte : (data.drop n).take 1 = [data[n]] := by
    rw [List.drop_eq_getElem_cons hlt]
    rfl
  have hvalue : Bytes.toNat o [data[n]] = data[n].toNat := by
    cases o <;> simp [Bytes.toNat, Bytes.littleToNat]
  rw [List.getElem?_eq_getElem hlt, hbyte, hvalue, Nat.toUInt8_eq, UInt8.ofNat_toNat]

/-- A number of a width that there is. -/
theorem sized_runs {h : Header} (hs : h.sizeSize = 4 ∨ h.sizeSize = 8) :
    Runs data o n (lift (Cursor.sized h.sizeSize.toNat)) o fun _ m => n < m := by
  rcases hs with hs | hs
  · rw [hs]
    exact (unsigned_takesBytes 4).runs.mono fun _ m _ h => by omega
  · rw [hs]
    exact (unsigned_takesBytes 8).runs.mono fun _ m _ h => by omega

theorem size_runs {h : Header} (hs : h.sizeSize = 4 ∨ h.sizeSize = 8) :
    Runs data o n (size h) o fun _ m => n < m := by
  refine (sized_runs hs).bind fun x m _ _ hm => Runs.look ?_
  exact room_runs rfl fun _ => Runs.pure hm

/-! ## Repetition -/

/-- Items one behind the other. `T n xs m` is what holds of the items `xs` between two positions, and
`I` what holds of the positions at which items start. -/
theorem repeated_runs {item : Nat → Decoder α} {I : Nat → Prop} {T : Nat → List α → Nat → Prop}
    (hnil : ∀ n, T n [] n)
    (hitem : ∀ i n, I n → Runs data o n (item i) o fun x m =>
      I m ∧ ∀ xs k, T m xs k → T n (x :: xs) k)
    (i count : Nat) (hn : I n) : Runs data o n (repeated item i count) o fun xs m => T n xs m := by
  induction count generalizing i n with
  | zero => exact Runs.pure (hnil n)
  | succ count ih =>
    refine (hitem i n hn).bind fun x m _ _ hx => ?_
    refine (ih (i + 1) hx.1).bind fun xs k _ _ hxs => ?_
    exact Runs.pure (hx.2 xs k hxs)

/-- Items of which nothing is said. -/
theorem repeated_runs_any {item : Nat → Decoder α}
    (hitem : ∀ i n, Runs data o n (item i) o fun _ _ => True) (i count : Nat) :
    Runs data o n (repeated item i count) o fun _ _ => True :=
  repeated_runs (I := fun _ => True) (T := fun _ _ _ => True) (fun _ => trivial)
    (fun i n _ => (hitem i n).mono fun _ _ _ _ => ⟨trivial, fun _ _ _ => trivial⟩) i count trivial

/-! ## The header -/

theorem typeRecord_runs (i : Nat) : Runs data o n (typeRecord i) o fun _ _ => True := by
  refine (word_runs _).bind fun id m _ _ _ => ?_
  refine ((integer_takesBytes 4).runs.within _).bind fun length k _ _ _ => ?_
  exact ((take_runs length).within _).bind fun name l _ _ _ => Runs.pure trivial

/-- The header declares its byte order in the seventh byte, and a width of sizes that there is. -/
theorem header_runs : Runs data .little 0 header (declaredOrder data) fun h _ =>
    h.order = declaredOrder data ∧ (h.sizeSize = 4 ∨ h.sizeSize = 8) := by
  refine (word_runs _).bind ?_
  rintro signature _ - - ⟨rfl, -⟩
  refine (byte_runs _).bind ?_
  rintro version _ - - ⟨rfl, -⟩
  refine (byte_runs _).bind ?_
  rintro format _ - - ⟨rfl, -⟩
  refine unless_runs rfl (by decide) (by decide) fun _ => (byte_runs _).bind ?_
  rintro endianness m - - ⟨-, hendianness⟩
  have horder : endiannessOrder endianness = declaredOrder data := by
    rw [declaredOrder, List.getD_eq_getElem?_getD, hendianness]
    rfl
  rw [horder]
  have hset : Runs data .little m (lift (Cursor.setOrder (declaredOrder data)))
      (declaredOrder data) fun _ _ => True := fun hm => ⟨m, rfl, Nat.le_refl m, hm, trivial⟩
  refine hset.bind fun _ m _ _ _ => ?_
  refine (byte_runs _).bind fun intSize m _ _ _ => (byte_runs _).bind fun sizeSize m _ _ _ =>
    (byte_runs _).bind fun instructionSize m _ _ _ => (byte_runs _).bind fun numberSize m _ _ _ => ?_
  refine unless_runs rfl (by decide) (by decide) fun _ =>
    unless_runs rfl (by decide) (by decide) fun hsize =>
    unless_runs rfl (by decide) (by decide) fun _ => ?_
  refine (byte_runs _).bind fun numberType m _ _ _ => (byte_runs _).bind fun buildFlags m _ _ _ =>
    (byte_runs _).bind fun sharingMode m _ _ _ => (word_runs _).bind fun count m _ _ _ => ?_
  exact (repeated_runs_any (fun i n => typeRecord_runs i) 0 count.toNat).bind fun types m _ _ _ =>
    Runs.pure ⟨horder, hsize⟩

/-! ## Constants -/

theorem number_runs (h : Header) : Runs data o n (number h) o fun _ _ => True := by
  unfold number
  dsimp only
  split
  · exact (integer_takesBytes _).runs.bind fun _ _ _ _ _ => Runs.pure trivial
  · exact (unsigned_takesBytes _).runs.bind fun _ _ _ _ _ => Runs.pure trivial

theorem string_runs {h : Header} (hs : h.sizeSize = 4 ∨ h.sizeSize = 8) :
    Runs data o n (string h) o fun _ _ => True := by
  refine ((size_runs hs).within _).bind fun length m _ _ _ => ?_
  split
  · exact Runs.pure trivial
  · exact ((take_runs length).within _).bind fun s k _ _ _ => Runs.pure trivial

theorem payload_runs {h : Header} (hs : h.sizeSize = 4 ∨ h.sizeSize = 8) {offset : Nat} {tag : Tag}
    (htag : data[offset]? = some tag.code) :
    Runs data o n (payload h offset tag) o fun _ _ => True := by
  unfold payload
  split_ifs with hnil hboolean huserdata hnumber hstring hui64
  · exact Runs.pure trivial
  · exact (unsigned_takesBytes 1).runs.bind fun _ _ _ _ _ => Runs.pure trivial
  · exact (sized_runs hs).bind fun _ _ _ _ _ => Runs.pure trivial
  · exact number_runs h
  · exact (string_runs hs).bind fun _ _ _ _ _ => Runs.pure trivial
  · exact (unsigned_takesBytes 8).runs.bind fun _ _ _ _ _ => Runs.pure trivial
  · -- The tag is none of those that were tried.
    intro _
    obtain ⟨hlt, -⟩ := List.getElem?_eq_some_iff.mp htag
    refine ⟨Nat.le_of_lt hlt, ⟨_, rfl⟩, nofun, fun _ => ⟨tag.code, htag, ?_⟩⟩
    simp [Tag.supported, hnil, hboolean, huserdata, hnumber, hstring, hui64]

theorem constant_runs {h : Header} (hs : h.sizeSize = 4 ∨ h.sizeSize = 8) (i : Nat) :
    Runs data o n (constant h i) o fun _ _ => True := by
  refine Runs.within _ (Runs.look ((byte_runs _).bind fun tag m _ _ htag => ?_))
  exact (payload_runs hs htag.2).bind fun _ _ _ _ _ => Runs.pure trivial

theorem debug_runs : Runs data o n debug o fun _ _ => True := by
  refine (word_runs _).bind fun flag m _ _ _ => ?_
  split
  · exact (word_runs _).bind fun _ _ _ _ _ => Runs.pure trivial
  · exact Runs.pure trivial

end Decoder

/-! ## Instructions -/

/-- The instructions stand one behind the other from position `n` on, and each is the decoding of the
word at its position. -/
inductive Instruction.Row (data : Bytes) (o : ByteOrder) : Nat → List Instruction → Nat → Prop
  | nil (n : Nat) : Row data o n [] n
  | cons {n m : Nat} {i : Instruction} {is : List Instruction}
      (word : data.word? o n = some i.raw) (decoded : Instruction.decode n i.raw = some i)
      (rest : Row data o (n + 4) is m) : Row data o n (i :: is) m

/-- The function stands at position `n`, and its instructions stand behind that, from a multiple of
four on and up to position `m` at most. -/
structure Code.PlacedIn (data : Bytes) (o : ByteOrder) (n m : Nat) (c : Code) : Prop where
  address : c.address = n
  row : ∃ first last, n < first ∧ first % 4 = 0 ∧
    Instruction.Row data o first c.instructions.items last ∧ last ≤ m

/-- Functions one behind the other between two positions. -/
inductive Prototype.Laid (data : Bytes) (o : ByteOrder) : Nat → List Prototype → Nat → Prop
  | nil {n m : Nat} (le : n ≤ m) : Laid data o n [] m
  | cons {n k l m : Nat} {p : Prototype} {ps : List Prototype} (le : n ≤ k)
      (placed : p.toCode.PlacedIn data o k l) (rest : Laid data o l ps m) : Laid data o n (p :: ps) m

namespace Decoder

variable {α : Type} {data : Bytes} {n : Nat}

theorem instruction_runs (i : Nat) (hn : n % 4 = 0) :
    Runs data (declaredOrder data) n (instruction i) (declaredOrder data) fun x m =>
      m = n + 4 ∧ data.word? (declaredOrder data) n = some x.raw ∧
        Instruction.decode n x.raw = some x := by
  refine Runs.look ((word_runs _).bind ?_)
  rintro w m hnm hm ⟨rfl, hw⟩
  have hoffset : (Cursor.placed data (declaredOrder data) n).offset = n := rfl
  rw [hoffset]
  cases hdecode : Instruction.decode n w with
  | some x =>
    have hraw := Instruction.decode_raw hdecode
    exact Runs.pure ⟨rfl, by rw [hraw, hw], by rw [hraw, hdecode]⟩
  | none =>
    refine Runs.within _ fun _ => ⟨Nat.le_trans hnm hm, ⟨_, rfl⟩, fun _ => ⟨hn, w, hw, ?_⟩, nofun⟩
    simpa [Instruction.decode] using hdecode

theorem instructions_runs {h : Header} (hs : h.sizeSize = 4 ∨ h.sizeSize = 8) :
    Runs data (declaredOrder data) n (instructions h) (declaredOrder data) fun is m =>
      ∃ first, n < first ∧ first % 4 = 0 ∧
        Instruction.Row data (declaredOrder data) first is m := by
  refine ((size_runs hs).within _).bind fun count m _ _ hm => ?_
  refine (pad_takesBytes.runs.within _).bind fun _ first _ _ hfirst => Runs.look ?_
  have haligned : first % 4 = 0 := by omega
  refine room_runs rfl fun _ => Runs.mono (repeated_runs (I := fun n => n % 4 = 0)
    (T := Instruction.Row data (declaredOrder data)) .nil ?_ 0 count haligned) ?_
  · intro i n hn
    refine (instruction_runs i hn).mono ?_
    rintro x m - ⟨rfl, hword, hdecode⟩
    exact ⟨by omega, fun xs k hrow => .cons hword hdecode hrow⟩
  · intro is k _ hrow
    exact ⟨first, by omega, haligned, hrow⟩

theorem code_runs {h : Header} (hs : h.sizeSize = 4 ∨ h.sizeSize = 8) :
    Runs data (declaredOrder data) n (code h) (declaredOrder data) fun c m =>
      c.PlacedIn data (declaredOrder data) n m := by
  refine Runs.look ?_
  refine (word_runs _).bind fun upvalues _ hnm _ _ => (word_runs _).bind fun parameters _ hnm' _ _ =>
    (byte_runs _).bind fun varargFlags _ hnm'' _ _ => (word_runs _).bind fun registers _ hnm''' _ _ => ?_
  refine (instructions_runs hs).bind fun is last _ _ hrow => ?_
  obtain ⟨first, hfirst, haligned, hrow⟩ := hrow
  refine (word_runs _).bind fun count _ hlast _ _ => ?_
  refine (repeated_runs_any (fun i n => constant_runs hs i) 0 count.toNat).bind
    fun constants _ hlast' _ _ => debug_runs.bind fun debug m hlast'' _ _ => Runs.pure ?_
  exact ⟨rfl, first, last, by omega, haligned, hrow, by omega⟩

end Decoder

namespace Prototype

variable {data : Bytes} {o : ByteOrder}

theorem Laid.mono {n n' m : Nat} {ps : List Prototype} (h : Laid data o n ps m) (hn : n' ≤ n) :
    Laid data o n' ps m := by
  cases h with
  | nil le => exact .nil (Nat.le_trans hn le)
  | cons le placed rest => exact .cons (Nat.le_trans hn le) placed rest

theorem Laid.append {n k m : Nat} {ps qs : List Prototype} (hps : Laid data o n ps k)
    (hqs : Laid data o k qs m) : Laid data o n (ps ++ qs) m := by
  induction hps with
  | nil le => exact hqs.mono le
  | cons le placed _ ih => exact .cons le placed (ih hqs)

/-- A function stands in front of the functions of its closures. -/
theorem laid_walk {n k m : Nat} {code : Code} {ps : List Prototype}
    (hcode : code.PlacedIn data o n k) (hps : Laid data o k (walkAll ps) m) :
    Laid data o n (walk ⟨code, Section.ofItems ps⟩) m := by
  cases ps with
  | nil => exact .cons (Nat.le_refl n) hcode hps
  | cons p ps => exact .cons (Nat.le_refl n) hcode hps

end Prototype

namespace Decoder

variable {data : Bytes} {n : Nat}

theorem prototype_runs {h : Header} (hs : h.sizeSize = 4 ∨ h.sizeSize = 8) (depth : Nat) :
    Runs data (declaredOrder data) n (prototype h depth) (declaredOrder data) fun p m =>
      Prototype.Laid data (declaredOrder data) n p.walk m := by
  induction depth generalizing n with
  | zero => exact fail_runs rfl (by decide) (by decide)
  | succ depth ih =>
    refine (code_runs hs).bind fun code m _ _ hcode => (word_runs _).bind fun count k hmk _ _ => ?_
    refine Runs.bind (repeated_runs (I := fun _ => True)
      (T := fun n ps m => Prototype.Laid data (declaredOrder data) n (Prototype.walkAll ps) m)
      (fun n => .nil (Nat.le_refl n)) (fun i n _ => ih.mono ?_) 0 count.toNat trivial) ?_
    · intro p m _ hp
      exact ⟨trivial, fun ps k hps => hp.append hps⟩
    · intro ps l _ _ hps
      exact Runs.pure (Prototype.laid_walk hcode (hps.mono hmk))

theorem file_runs :
    Runs data .little 0 file (declaredOrder data) fun f m => f.header.order = declaredOrder data ∧
      Prototype.Laid data (declaredOrder data) 0 f.walk m := by
  refine header_runs.bind fun h k _ _ hh => Runs.look ?_
  refine (prototype_runs hh.2 _).bind fun p m hkm _ hp => Runs.pure ⟨hh.1, ?_⟩
  exact hp.mono (Nat.zero_le k)

end Decoder

/-! ## Files -/

namespace ChunkFile

/-- A decoded file has the byte order that its data declares, and its functions are laid out in the
data one behind the other; a failure to decode is located in the data. -/
theorem decode_outcome (data : Bytes) :
    Outcome (fun f => f.header.order = declaredOrder data ∧
        ∃ m ≤ data.length, Prototype.Laid data (declaredOrder data) 0 f.walk m)
      (DecodeError.Located data) (decode data) := by
  have hrun := @Decoder.file_runs data (Nat.zero_le _)
  change Outcome _ _ ((Decoder.file (Cursor.placed data .little 0)).map Prod.fst)
  cases hfile : Decoder.file (Cursor.placed data .little 0) with
  | error e =>
    rw [hfile] at hrun
    exact hrun
  | ok r =>
    rw [hfile] at hrun
    obtain ⟨m, -, -, hm, horder, hlaid⟩ := hrun
    exact ⟨horder, m, hm, hlaid⟩

end ChunkFile

/-- **Decoding fails only in its declared ways and says where.** The offset of a failure lies in the
data and the cause is of one of the five kinds. Where an opcode is unknown, the offset is that of a
word with such an opcode; where a constant is not supported, it is that of the tag. -/
theorem decode_failure_located {data : Bytes} {e : DecodeError}
    (h : ChunkFile.decode data = .error e) :
    e.offset ≤ data.length ∧ (∃ fault, e.cause.fault? = some fault) ∧
      (∀ width, e.cause ≠ .cursor (.unsupportedWidth width)) ∧
      (e.cause.fault? = some .unknownOpcode → e.offset % 4 = 0 ∧
        ∃ w, data.word? (declaredOrder data) e.offset = some w ∧ Opcode.ofCode? w.op = none) ∧
      (e.cause.fault? = some .unsupportedConstant →
        ∃ code, data[e.offset]? = some code ∧ ⟨code⟩ ∉ Tag.supported) := by
  have hlocated := ChunkFile.decode_outcome data
  rw [h] at hlocated
  refine ⟨hlocated.inside, hlocated.kind, ?_, hlocated.opcode, hlocated.constant⟩
  intro width hcause
  obtain ⟨fault, hfault⟩ := hlocated.kind
  rw [hcause] at hfault
  cases hfault

/-- A big-endian file whose only closure has one word and one constant. -/
def Assembly.withClosure (w : Word) (c : Constant) : Assembly where
  header := { Header.standard with endianness := 0 }
  root := some ⟨⟨0, 0, 0, 2, [0], [⟨.string, .string [97]⟩], none⟩,
    [⟨⟨0, 0, 0, 2, [w], [c], none⟩, []⟩]⟩

/-- A file with an opcode that there is not, and one with a constant that cannot be read. -/
theorem decode_failure_located_withClosure :
    (∃ e, ChunkFile.decode (Assembly.withClosure 0xFE000000 ⟨.nil, .nil⟩).bytes = .error e ∧
      e.offset % 4 = 0 ∧ ∃ w, (Assembly.withClosure 0xFE000000 ⟨.nil, .nil⟩).bytes.word?
        (declaredOrder (Assembly.withClosure 0xFE000000 ⟨.nil, .nil⟩).bytes) e.offset = some w ∧
        Opcode.ofCode? w.op = none) ∧
    ∃ e, ChunkFile.decode (Assembly.withClosure 0 ⟨⟨6⟩, .nil⟩).bytes = .error e ∧
      ∃ code, (Assembly.withClosure 0 ⟨⟨6⟩, .nil⟩).bytes[e.offset]? = some code ∧
        ⟨code⟩ ∉ Tag.supported := by
  have hfault : ∀ (data : Bytes) (fault : DecodeFault),
      (match ChunkFile.decode data with
        | .ok _ => none
        | .error e => e.cause.fault?) = some fault →
      ∃ e, ChunkFile.decode data = .error e ∧ e.cause.fault? = some fault := by
    intro data fault h
    cases hdecode : ChunkFile.decode data with
    | ok f => simp [hdecode] at h
    | error e => exact ⟨e, rfl, by simpa [hdecode] using h⟩
  constructor
  · obtain ⟨e, he, hopcode⟩ := hfault (Assembly.withClosure 0xFE000000 ⟨.nil, .nil⟩).bytes
      .unknownOpcode (by decide +kernel)
    obtain ⟨-, -, -, hword, -⟩ := decode_failure_located he
    exact ⟨e, he, hword hopcode⟩
  · obtain ⟨e, he, hconstant⟩ := hfault (Assembly.withClosure 0 ⟨⟨6⟩, .nil⟩).bytes
      .unsupportedConstant (by decide +kernel)
    obtain ⟨-, -, -, -, htag⟩ := decode_failure_located he
    exact ⟨e, he, htag hconstant⟩

end HavokScript
