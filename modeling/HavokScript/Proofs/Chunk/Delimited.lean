import HavokScript.Proofs.Chunk.RoundTrip
import HavokScript.Proofs.Outcome

/-!
# Where a chunk file ends

A chunk file tells by itself where it ends. If a byte string can be read, there is a position such
that the bytes up to it are read as the same file whatever stands behind them, and no proper part of
these bytes is a file: reading it fails because the data ends (`decode_delimited`).

`Decoder.Takes` is what this says of one step at one place: besides reading some bytes (`Reads`) it
fails for lack of data if fewer of them are there (`Stops`). A step is self-delimiting if it takes
bytes whenever it succeeds (`Decoder.SelfDelimiting`). This is closed under sequencing, so it is read
off the definitions of the readers. Two places need care.

* A size is compared with the rest of the file, so a size alone is not self-delimiting. It is, up to
  as many bytes as it says (`Delimits`), and what follows a size takes them.
* The bound on the depth of functions comes from the length of the whole data. No function is deeper
  than it is long, so every larger bound gives the same (`prototype_depth`).
-/

namespace HavokScript

/-- Whether data was lacking: bytes were wanted, or counted, that are not there. -/
def DecodeCause.isEnd : DecodeCause → Bool
  | cursor (.unexpectedEnd ..) | oversized .. | tooManyInstructions _ => true
  | _ => false

namespace Decoder

open Cursor (between)

variable {α β : Type} {passed bs bs' : Bytes} {o o' o'' : ByteOrder} {k k' : Nat}

/-- The result is a failure for lack of data. -/
def EndsEarly (r : Except DecodeError α) : Prop := ∃ e, r = .error e ∧ e.cause.isEnd

/-- The step fails for lack of data on every byte string that goes along with `bs` and is too short:
it lacks some of these bytes, or of the `slack` bytes that have to follow. -/
def Stops (step : Decoder α) (passed : Bytes) (o : ByteOrder) (bs : Bytes) (slack : Nat) : Prop :=
  ∀ short : Bytes, short <+: bs ∨ bs <+: short → short.length < bs.length + slack →
    EndsEarly (step (between passed short o))

/-- The step reads `bs` as `x`, and fails for lack of data if less than that is there. -/
structure Takes (step : Decoder α) (passed : Bytes) (o : ByteOrder) (bs : Bytes) (o' : ByteOrder)
    (slack : Nat) (x : α) : Prop where
  reads : Reads step passed o bs o' slack x
  stops : Stops step passed o bs slack

/-- Whenever the step succeeds, it takes the bytes it has passed, and `slack` bytes more are there. -/
def Delimits (step : Decoder α) (slack : α → Nat) : Prop :=
  ∀ ⦃passed ahead : Bytes⦄ ⦃o : ByteOrder⦄ ⦃x : α⦄ ⦃c : Cursor⦄,
    step (between passed ahead o) = .ok (x, c) →
      ∃ bs rest o', ahead = bs ++ rest ∧ slack x ≤ rest.length ∧
        c = between (passed ++ bs) rest o' ∧ Takes step passed o bs o' (slack x) x

/-- Whenever the step succeeds, it takes the bytes it has passed. -/
abbrev SelfDelimiting (step : Decoder α) : Prop := Delimits step fun _ => 0

/-! ## Sequencing -/

theorem EndsEarly.bind {r : Except DecodeError α} (f : α → Except DecodeError β)
    (hr : EndsEarly r) : EndsEarly (r >>= f) := by
  obtain ⟨e, rfl, he⟩ := hr
  exact ⟨e, rfl, he⟩

theorem Takes.bind {s : Decoder α} {f : α → Decoder β} {x : α} {y : β}
    (hs : Takes s passed o bs o' k x) (hf : Takes (f x) (passed ++ bs) o' bs' o'' k' y)
    (hk : k ≤ bs'.length + k') : Takes (s >>= f) passed o (bs ++ bs') o'' k' y := by
  refine ⟨hs.reads.bind hf.reads hk, ?_⟩
  intro short hagree hlength
  rw [List.length_append] at hlength
  have hfront : bs <+: bs ++ bs' := List.prefix_append bs bs'
  have hshort : short <+: bs ∨ bs <+: short :=
    hagree.elim (fun h => List.prefix_or_prefix_of_prefix h hfront) fun h => .inr (hfront.trans h)
  change EndsEarly (s _ >>= fun r => f r.1 r.2)
  by_cases hcut : short.length < bs.length + k
  · exact (hs.stops short hshort hcut).bind _
  · -- The first step has all it wants, so the second one runs out.
    obtain ⟨tail, rfl⟩ : bs <+: short :=
      hshort.elim (fun h => h.eq_of_length_le (by omega) ▸ List.prefix_rfl) id
    rw [List.length_append] at hcut hlength
    rw [hs.reads tail (by omega)]
    refine hf.stops tail ?_ (by omega)
    rwa [List.prefix_append_right_inj, List.prefix_append_right_inj] at hagree

/-- A step whose slack is taken, or wanted again, by what follows. -/
theorem Delimits.bind {s : Decoder α} {f : α → Decoder β} {slack : α → Nat} {slack' : β → Nat}
    (hs : Delimits s slack) (hf : ∀ x, Delimits (f x) slack')
    (hslack : ∀ x passed o bs o' y, Takes (f x) passed o bs o' (slack' y) y →
      slack x ≤ bs.length + slack' y) : Delimits (s >>= f) slack' := by
  intro passed ahead o y c h
  obtain ⟨x, t, hx, hy⟩ := ok_of_bind h
  obtain ⟨bs, rest, o', rfl, -, rfl, htakes⟩ := hs hx
  obtain ⟨bs', rest', o'', rfl, hrest, rfl, htakes'⟩ := hf x hy
  exact ⟨bs ++ bs', rest', o'', by rw [List.append_assoc], hrest, by rw [List.append_assoc],
    htakes.bind htakes' (hslack _ _ _ _ _ _ htakes')⟩

/-- Sequencing behind a step that wants nothing to follow. -/
theorem Delimits.andThen {s : Decoder α} {f : α → Decoder β} {slack : β → Nat}
    (hs : SelfDelimiting s) (hf : ∀ x, Delimits (f x) slack) : Delimits (s >>= f) slack :=
  hs.bind hf fun _ _ _ _ _ _ _ => Nat.zero_le _

/-- The step passes at least `n` bytes. -/
def Advances (step : Decoder α) (n : Nat) : Prop :=
  ∀ ⦃c x c'⦄, step c = .ok (x, c') → c.offset + n ≤ c'.offset

theorem Advances.bind {s : Decoder α} {f : α → Decoder β} {m n : Nat} (hs : Advances s m)
    (hf : ∀ x, Advances (f x) n) : Advances (s >>= f) (m + n) := by
  intro c y c' h
  obtain ⟨x, t, hx, hy⟩ := ok_of_bind h
  have := hs hx
  have := hf x hy
  omega

theorem pure_advances (x : α) : Advances (pure x) 0 := by
  intro c y c' h
  rw [(ok_of_pure h).2]
  exact Nat.le_refl _

theorem get_advances {f : Cursor → Decoder α} {n : Nat} (hf : ∀ c, Advances (f c) n) :
    Advances (get >>= f) n := fun c _ _ h => hf c h

theorem Takes.length_ge {s : Decoder α} {x : α} {n : Nat} (hs : Takes s passed o bs o' k x)
    (hn : Advances s n) : n ≤ bs.length := by
  have hpassed := hn (hs.reads (List.replicate k 0) (Nat.le_of_eq List.length_replicate.symm))
  rw [Cursor.between_offset, Cursor.between_offset, List.length_append] at hpassed
  omega

theorem pure_delimits (x : α) : SelfDelimiting (pure x) := by
  intro passed ahead o y c h
  obtain ⟨rfl, rfl⟩ := ok_of_pure h
  refine ⟨[], ahead, o, rfl, Nat.zero_le _, by rw [List.append_nil], pure_reads y, ?_⟩
  intro short _ hlength
  exact absurd hlength (Nat.not_lt_zero _)

theorem fail_delimits (cause : DecodeCause) : SelfDelimiting (fail cause : Decoder α) := nofun

theorem failAt_delimits (offset : Nat) (cause : DecodeCause) :
    SelfDelimiting (failAt offset cause : Decoder α) := nofun

/-- A step that looks only at the position first. -/
theorem look_delimits {f : Cursor → Decoder α} {slack : α → Nat}
    (hoffset : ∀ c c' : Cursor, c.offset = c'.offset → f c = f c')
    (hf : ∀ c, Delimits (f c) slack) : Delimits (get >>= f) slack := by
  intro passed ahead o x c h
  obtain ⟨bs, rest, o', rfl, hrest, rfl, htakes⟩ := hf _ h
  refine ⟨bs, rest, o', rfl, hrest, rfl, ?_, ?_⟩
  · intro rest' hrest'
    have h := htakes.reads rest' hrest'
    rw [hoffset _ (between passed (bs ++ rest') o) (by simp)] at h
    exact h
  · intro short hagree hlength
    have h := htakes.stops short hagree hlength
    rw [hoffset _ (between passed short o) (by simp)] at h
    exact h

theorem within_ok {context : Context} {s : Decoder α} {c : Cursor} {r : α × Cursor} :
    within context s c = .ok r ↔ s c = .ok r := by
  unfold within
  cases s c <;> simp

theorem Advances.within {s : Decoder α} {n : Nat} (context : Context) (hs : Advances s n) :
    Advances (within context s) n := fun _ _ _ h => hs (within_ok.mp h)

theorem Delimits.within {s : Decoder α} {slack : α → Nat} (context : Context)
    (hs : Delimits s slack) : Delimits (within context s) slack := by
  intro passed ahead o x c h
  obtain ⟨bs, rest, o', rfl, hrest, rfl, htakes⟩ := hs (within_ok.mp h)
  refine ⟨bs, rest, o', rfl, hrest, rfl, htakes.reads.within context, ?_⟩
  intro short hagree hlength
  obtain ⟨e, he, hend⟩ := htakes.stops short hagree hlength
  exact ⟨{ e with path := context :: e.path }, by unfold Decoder.within; rw [he], hend⟩

/-! ## Bytes and numbers -/

/-- The step takes as many bytes as `count` says for its position, and its value is made of them. -/
def TakesBytes (step : Read α) (count : Nat → Nat) (value : ByteOrder → Bytes → α) : Prop :=
  ∀ c, step c = (Cursor.take (count c.offset) c).map fun r => (value c.order r.1, r.2)

theorem take_short {short : Bytes} {n : Nat} (h : short.length < n) :
    Cursor.take n (between passed short o) =
      .error (.unexpectedEnd n passed.length short.length) := by
  have hshort : (n : Int) < 0 ∨ ((between passed short o).remaining : Int) < n := by
    rw [Cursor.between_remaining]
    omega
  rw [Cursor.take, if_pos hshort, Cursor.between_remaining, Cursor.between_offset]

/-- The cursor has gone over all that was taken. -/
theorem take_ok {n : Int} {ahead : Bytes} {r : Bytes × Cursor}
    (h : Cursor.take n (between passed ahead o) = .ok r) :
    0 ≤ n ∧ ∃ bs rest, ahead = bs ++ rest ∧ n = bs.length ∧
      r = (bs, between (passed ++ bs) rest o) := by
  have hroom : ¬ (n < 0 ∨ (ahead.length : Int) < n) := by
    intro hlack
    rw [Cursor.take, Cursor.between_remaining, if_pos hlack] at h
    cases h
  have hsplit : ahead = ahead.take n.toNat ++ ahead.drop n.toNat := by rw [List.take_append_drop]
  have hn : n = (ahead.take n.toNat).length := by
    rw [List.length_take]
    omega
  refine ⟨by omega, _, _, hsplit, hn, ?_⟩
  rw [hsplit, Cursor.take_between _ _ _ _ _ hn] at h
  cases h
  rfl

theorem TakesBytes.takes {step : Read α} {count : Nat → Nat} {value : ByteOrder → Bytes → α}
    (hstep : TakesBytes step count value) (hbs : bs.length = count passed.length) :
    Takes (lift step) passed o bs o 0 (value o bs) := by
  constructor
  · refine lift_reads fun rest => ?_
    rw [hstep, Cursor.between_offset, Cursor.take_between _ bs _ _ _ (by rw [hbs])]
    rfl
  · intro short _ hlength
    unfold lift
    rw [hstep, Cursor.between_offset, take_short (by omega)]
    exact ⟨_, rfl, rfl⟩

theorem TakesBytes.delimits {step : Read α} {count : Nat → Nat} {value : ByteOrder → Bytes → α}
    (hstep : TakesBytes step count value) : SelfDelimiting (lift step) := by
  intro passed ahead o x c h
  unfold lift at h
  rw [hstep, Cursor.between_offset] at h
  cases htake : Cursor.take (count passed.length) (between passed ahead o) with
  | error e =>
    rw [htake] at h
    cases h
  | ok r =>
    rw [htake] at h
    obtain ⟨-, bs, rest, rfl, hbs, rfl⟩ := take_ok htake
    cases h
    exact ⟨bs, rest, o, rfl, Nat.zero_le _, rfl, hstep.takes (by omega)⟩

theorem TakesBytes.advances {step : Read α} {count : Nat → Nat} {value : ByteOrder → Bytes → α}
    (hstep : TakesBytes step count value) {n : Nat} (hn : ∀ offset, n ≤ count offset) :
    Advances (lift step) n := by
  intro c x c' h
  have hcount := hn c.offset
  unfold lift at h
  rw [hstep, Cursor.take] at h
  by_cases hlack : (count c.offset : Int) < 0 ∨ (c.remaining : Int) < count c.offset
  · rw [if_pos hlack] at h
    cases h
  · rw [if_neg hlack] at h
    cases h
    exact Nat.add_le_add_left hcount c.offset

theorem unsigned_takesBytes (width : Nat) :
    TakesBytes (Cursor.unsigned width) (fun _ => width) fun o bs => bs.toNat o := by
  intro c
  show (Cursor.take width c >>= fun r => _) = _
  cases htake : Cursor.take width c with
  | error e => rfl
  | ok r =>
    have horder : r.2.order = c.order := by
      unfold Cursor.take at htake
      split at htake <;> cases htake
      rfl
    show Except.ok (Bytes.toNat r.2.order r.1, r.2) = _
    rw [horder]
    rfl

theorem integer_takesBytes (width : Nat) :
    TakesBytes (Cursor.integer width) (fun _ => width) fun o bs => signed width (bs.toNat o) := by
  intro c
  show (Cursor.unsigned width c >>= fun r => _) = _
  rw [unsigned_takesBytes width c]
  cases Cursor.take width c <;> rfl

theorem pad_takesBytes :
    TakesBytes (Cursor.pad 4) (fun offset => (4 - offset % 4) % 4) fun _ _ => () := by
  intro c
  unfold Cursor.pad
  split
  · rename_i haligned
    have hzero : (4 - c.offset % 4) % 4 = 0 := by omega
    have hroom : ¬ (((0 : Nat) : Int) < 0 ∨ (c.remaining : Int) < ((0 : Nat) : Int)) := by omega
    show _ = (Cursor.take ((4 - c.offset % 4) % 4 : Nat) c).map _
    rw [hzero, Cursor.take, if_neg hroom]
    rfl
  · have hcount : (4 - (c.offset : Int) % 4) = ((4 - c.offset % 4) % 4 : Nat) := by omega
    show (Cursor.take _ c >>= fun r => _) = _
    rw [hcount]
    cases Cursor.take ((4 - c.offset % 4) % 4 : Nat) c <;> rfl

theorem unsigned_delimits (width : Nat) : SelfDelimiting (lift (Cursor.unsigned width)) :=
  (unsigned_takesBytes width).delimits

theorem integer_delimits (width : Nat) : SelfDelimiting (lift (Cursor.integer width)) :=
  (integer_takesBytes width).delimits

theorem sized_delimits (width : Int) : SelfDelimiting (lift (Cursor.sized width)) := by
  unfold Cursor.sized
  split
  · exact unsigned_delimits _
  · exact nofun

theorem take_takesBytes (n : Nat) : TakesBytes (Cursor.take n) (fun _ => n) fun _ bs => bs := by
  intro c
  cases Cursor.take n c <;> rfl

/-- A length that was read before may be negative, and then nothing is taken. -/
theorem take_delimits (n : Int) : SelfDelimiting (lift (Cursor.take n)) := by
  by_cases hn : 0 ≤ n
  · rw [← Int.toNat_of_nonneg hn]
    exact (take_takesBytes n.toNat).delimits
  · intro passed ahead o x c h
    unfold lift at h
    rw [Cursor.take, if_pos (by omega)] at h
    cases h

theorem setOrder_delimits (order : ByteOrder) :
    SelfDelimiting (lift (Cursor.setOrder order)) := by
  intro passed ahead o x c h
  cases h
  refine ⟨[], ahead, order, rfl, Nat.zero_le _, by rw [List.append_nil]; rfl,
    setOrder_reads order, ?_⟩
  intro short _ hlength
  exact absurd hlength (Nat.not_lt_zero _)

theorem word_delimits (part : Part) : SelfDelimiting (word part) :=
  ((unsigned_delimits 4).within _).andThen fun _ => pure_delimits _

theorem byte_delimits (part : Part) : SelfDelimiting (byte part) :=
  ((unsigned_delimits 1).within _).andThen fun _ => pure_delimits _

theorem word_advances (part : Part) : Advances (word part) 4 :=
  (((unsigned_takesBytes 4).advances fun _ => Nat.le_refl 4).within _).bind fun _ => pure_advances _

theorem repeated_advances {item : Nat → Decoder α} {n : Nat} (hitem : ∀ i, Advances (item i) n)
    (i count : Nat) : Advances (repeated item i count) (n * count) := by
  induction count generalizing i with
  | zero => exact pure_advances []
  | succ count ih =>
    rw [Nat.mul_succ, Nat.add_comm (n * count)]
    exact (hitem i).bind fun _ => (ih (i + 1)).bind fun _ => pure_advances _

theorem repeated_delimits {item : Nat → Decoder α} (hitem : ∀ i, SelfDelimiting (item i))
    (i count : Nat) : SelfDelimiting (repeated item i count) := by
  induction count generalizing i with
  | zero => exact pure_delimits []
  | succ count ih =>
    exact (hitem i).andThen fun _ => (ih (i + 1)).andThen fun _ => pure_delimits _

/-- A check that fails for another reason than lack of data. -/
theorem unless_delimits {p : Prop} [Decidable p] {cause : DecodeCause} {f : Unit → Decoder α}
    (hf : SelfDelimiting (f ())) :
    SelfDelimiting (if p then f () else fail cause >>= f) := by
  split
  · exact hf
  · exact (fail_delimits cause).andThen fun _ => hf

/-! ## The header -/

theorem typeRecord_delimits (i : Nat) : SelfDelimiting (typeRecord i) :=
  (word_delimits _).andThen fun _ => ((integer_delimits 4).within _).andThen fun length =>
    ((take_delimits length).within _).andThen fun _ => pure_delimits _

theorem header_delimits : SelfDelimiting header := by
  refine (word_delimits _).andThen fun _ => (byte_delimits _).andThen fun _ =>
    (byte_delimits _).andThen fun _ => unless_delimits ?_
  refine (byte_delimits _).andThen fun _ => (setOrder_delimits _).andThen fun _ =>
    (byte_delimits _).andThen fun _ => (byte_delimits _).andThen fun _ =>
    (byte_delimits _).andThen fun _ => (byte_delimits _).andThen fun _ =>
    unless_delimits (unless_delimits (unless_delimits ?_))
  exact (byte_delimits _).andThen fun _ => (byte_delimits _).andThen fun _ =>
    (byte_delimits _).andThen fun _ => (word_delimits _).andThen fun _ =>
    (repeated_delimits typeRecord_delimits _ _).andThen fun _ => pure_delimits _

/-! ## Sizes and what they count -/

/-- A check that enough bytes are left, in front of a step that takes some of them. -/
theorem room_delimits {lacks : Nat → Prop} [DecidablePred lacks] {need : Nat}
    (hlacks : ∀ n, lacks n ↔ n < need) {cause : Cursor → DecodeCause}
    (hcause : ∀ c, (cause c).isEnd) {f : Decoder α} {slack : α → Nat} (hf : SelfDelimiting f)
    (hneed : ∀ passed o bs o' x, Takes f passed o bs o' 0 x →
      bs.length + slack x = max need bs.length) :
    Delimits (get >>= fun c => if lacks c.remaining then fail (cause c) >>= fun _ : Unit => f else f)
      slack := by
  intro passed ahead o x c h
  -- What a cursor sees is only whether the bytes ahead suffice.
  have hrun : ∀ ahead, (get >>= fun c => if lacks c.remaining then
        fail (cause c) >>= fun _ : Unit => f else f : Decoder α) (between passed ahead o) =
      if ahead.length < need then .error ⟨passed.length, [], cause (between passed ahead o)⟩
      else f (between passed ahead o) := by
    intro ahead
    change (if lacks (between passed ahead o).remaining then fail (cause _) >>= fun _ : Unit => f
      else f : Decoder α) _ = _
    rw [Cursor.between_remaining]
    by_cases hlack : ahead.length < need
    · rw [if_pos ((hlacks _).mpr hlack), if_pos hlack]
      rfl
    · rw [if_neg (mt (hlacks _).mp hlack), if_neg hlack]
  rw [hrun] at h
  split_ifs at h with hroom
  obtain ⟨bs, rest, o', rfl, -, rfl, htakes⟩ := hf h
  have hlength := hneed _ _ _ _ _ htakes
  rw [List.length_append] at hroom
  refine ⟨bs, rest, o', rfl, by omega, rfl, ?_, ?_⟩
  · intro rest' hrest'
    rw [hrun, if_neg (by rw [List.length_append]; omega)]
    exact htakes.reads rest' (Nat.zero_le _)
  · intro short hagree hshort
    rw [hrun]
    split_ifs
    · exact ⟨_, rfl, hcause _⟩
    · exact htakes.stops short hagree (by omega)

/-- A size wants as many bytes to follow as it says. -/
theorem size_delimits (h : Header) : Delimits (size h) id := by
  refine (sized_delimits _).andThen fun n =>
    room_delimits (fun _ => Iff.rfl) (fun _ => rfl) (pure_delimits n) ?_
  intro passed o bs o' x htakes
  obtain ⟨rfl, hcursor⟩ := ok_of_pure (htakes.reads [] (Nat.zero_le _))
  have hlength := congrArg Cursor.offset hcursor
  rw [Cursor.between_offset, Cursor.between_offset, List.length_append] at hlength
  rw [id]
  omega

theorem string_delimits (h : Header) : SelfDelimiting (string h) := by
  refine ((size_delimits h).within _).bind (fun n => ?_) fun n passed o bs o' s htakes => ?_
  · split
    · exact pure_delimits _
    · exact ((take_delimits n).within _).andThen fun _ => pure_delimits _
  · refine htakes.length_ge ?_
    split
    · rename_i hzero
      rw [hzero]
      exact pure_advances []
    · exact (((take_takesBytes n).advances fun _ => Nat.le_refl n).within _).bind fun _ =>
        pure_advances _

theorem instruction_delimits (i : Nat) : SelfDelimiting (instruction i) := by
  refine look_delimits (fun c c' h => by rw [h]) fun c => (word_delimits _).andThen fun w => ?_
  split
  · exact pure_delimits _
  · exact (failAt_delimits _ _).within _

theorem instruction_advances (i : Nat) : Advances (instruction i) 4 := by
  refine get_advances fun c => (word_advances _).bind (n := 0) fun w => ?_
  split
  · exact pure_advances _
  · exact nofun

/-- The words of the instructions are as many bytes as the check in front of them wants. -/
theorem instructions_delimits (h : Header) : SelfDelimiting (instructions h) := by
  have hwords : ∀ count, Advances (repeated instruction 0 count) (4 * count) := fun count =>
    repeated_advances instruction_advances 0 count
  refine ((size_delimits h).within _).bind (fun count => ?_) fun n passed o bs o' is htakes => ?_
  · have hlacks : ∀ n, n / 4 < count ↔ n < 4 * count := fun n => by omega
    refine (pad_takesBytes.delimits.within _).andThen fun _ =>
      room_delimits hlacks (fun _ => rfl) (repeated_delimits instruction_delimits 0 count) ?_
    intro passed o bs o' is htakes
    have := htakes.length_ge (hwords count)
    omega
  · have hpad : Advances (within .aligning (lift (Cursor.pad 4))) 0 :=
      (pad_takesBytes.advances fun _ => Nat.zero_le _).within _
    have := htakes.length_ge (n := 0 + 4 * n) <| hpad.bind fun _ => get_advances fun c => by
      split
      · exact nofun
      · exact hwords n
    show n ≤ bs.length + 0
    omega

/-! ## Functions -/

theorem number_delimits (h : Header) : SelfDelimiting (number h) := by
  unfold number
  dsimp only
  split
  · exact (integer_delimits _).andThen fun _ => pure_delimits _
  · exact (unsigned_delimits _).andThen fun _ => pure_delimits _

theorem payload_delimits (h : Header) (offset : Nat) (tag : Tag) :
    SelfDelimiting (payload h offset tag) := by
  unfold payload
  split_ifs
  · exact pure_delimits _
  · exact (unsigned_delimits 1).andThen fun _ => pure_delimits _
  · exact (sized_delimits _).andThen fun _ => pure_delimits _
  · exact number_delimits h
  · exact (string_delimits h).andThen fun _ => pure_delimits _
  · exact (unsigned_delimits 8).andThen fun _ => pure_delimits _
  · exact failAt_delimits _ _

theorem constant_delimits (h : Header) (i : Nat) : SelfDelimiting (constant h i) := by
  refine Delimits.within _ (look_delimits (fun c c' hc => by rw [hc]) fun c => ?_)
  exact (byte_delimits _).andThen fun _ => (payload_delimits h _ _).andThen fun _ => pure_delimits _

theorem debug_delimits : SelfDelimiting debug := by
  refine (word_delimits _).andThen fun flag => ?_
  split
  · exact (word_delimits _).andThen fun _ => pure_delimits _
  · exact pure_delimits _

theorem code_delimits (h : Header) : SelfDelimiting (code h) := by
  refine look_delimits (fun c c' hc => by rw [hc]) fun c => ?_
  exact (word_delimits _).andThen fun _ => (word_delimits _).andThen fun _ =>
    (byte_delimits _).andThen fun _ => (word_delimits _).andThen fun _ =>
    (instructions_delimits h).andThen fun _ => (word_delimits _).andThen fun _ =>
    (repeated_delimits (constant_delimits h) _ _).andThen fun _ =>
    debug_delimits.andThen fun _ => pure_delimits _

theorem prototype_delimits (h : Header) (depth : Nat) : SelfDelimiting (prototype h depth) := by
  induction depth with
  | zero => exact fail_delimits _
  | succ depth ih =>
    exact (code_delimits h).andThen fun _ => (word_delimits _).andThen fun _ =>
      (repeated_delimits (fun _ => ih) _ _).andThen fun _ => pure_delimits _

/-! ## The depth of functions -/

/-- Steps that agree wherever a first step can lead to. -/
theorem bind_congr {s : Decoder α} {f g : α → Decoder β} {c : Cursor}
    (h : ∀ x c', s c = .ok (x, c') → f x c' = g x c') : (s >>= f) c = (s >>= g) c := by
  change (s c >>= fun r => f r.1 r.2) = (s c >>= fun r => g r.1 r.2)
  cases hs : s c with
  | error e => rfl
  | ok r => exact h r.1 r.2 hs

/-- Items that are read alike while at most `limit` bytes are left. -/
theorem repeated_congr {item item' : Nat → Decoder α} {limit : Nat}
    (hitem : ∀ i, SelfDelimiting (item i))
    (heq : ∀ i passed ahead o, ahead.length ≤ limit →
      item i (between passed ahead o) = item' i (between passed ahead o)) (i count : Nat)
    (passed ahead : Bytes) (o : ByteOrder) (hahead : ahead.length ≤ limit) :
    repeated item i count (between passed ahead o) =
      repeated item' i count (between passed ahead o) := by
  induction count generalizing i passed ahead o with
  | zero => rfl
  | succ count ih =>
    have hhead : (item i >>= fun x => repeated item (i + 1) count >>= fun xs => pure (x :: xs))
        (between passed ahead o) =
        (item i >>= fun x => repeated item' (i + 1) count >>= fun xs => pure (x :: xs))
        (between passed ahead o) := by
      refine bind_congr fun x c hx => ?_
      obtain ⟨bs, rest, o', rfl, -, rfl, -⟩ := hitem i hx
      rw [List.length_append] at hahead
      change (repeated item (i + 1) count _ >>= _) = (repeated item' (i + 1) count _ >>= _)
      rw [ih (i + 1) (passed ++ bs) rest o' (by omega)]
    refine hhead.trans ?_
    change (item i _ >>= _) = (item' i _ >>= _)
    rw [heq i passed ahead o hahead]

/-- A function is not deeper than it is long, so every bound above its length gives the same. -/
theorem prototype_depth (h : Header) (depth depth' : Nat) {passed ahead : Bytes} {o : ByteOrder}
    (hdepth : ahead.length < depth) (hdepth' : ahead.length < depth') :
    prototype h depth (between passed ahead o) = prototype h depth' (between passed ahead o) := by
  induction depth generalizing depth' passed ahead o with
  | zero => exact absurd hdepth (Nat.not_lt_zero _)
  | succ depth ih =>
    obtain ⟨depth', rfl⟩ : ∃ d, depth' = d + 1 := ⟨depth' - 1, by omega⟩
    refine bind_congr fun c t hc => bind_congr fun count u hcount => ?_
    obtain ⟨bs, rest, o', rfl, -, rfl, -⟩ := code_delimits h hc
    obtain ⟨bs', rest', o'', rfl, -, rfl, htakes⟩ := word_delimits _ hcount
    -- The number of closures alone takes four bytes.
    have hword := htakes.length_ge (word_advances _)
    simp only [List.length_append] at hdepth hdepth'
    have hclosures := repeated_congr (fun _ => prototype_delimits h depth)
      (fun _ passed ahead o (hahead : ahead.length ≤ rest'.length) =>
        ih depth' (by omega) (by omega)) 0 count.toNat (passed ++ bs ++ bs') rest' o''
      (Nat.le_refl _)
    change (repeated _ 0 count.toNat _ >>= _) = (repeated _ 0 count.toNat _ >>= _)
    rw [hclosures]

/-! ## Files -/

/-- The whole file, with a given bound on the depth of functions. -/
def fileWith (depth : Nat) : Decoder ChunkFile := do
  let h ← header
  let root ← prototype h depth
  return ⟨h, some root, none⟩

theorem fileWith_delimits (depth : Nat) : SelfDelimiting (fileWith depth) :=
  header_delimits.andThen fun h => (prototype_delimits h depth).andThen fun _ => pure_delimits _

theorem file_eq {data : Bytes} {depth : Nat} (hdepth : data.length < depth) (o : ByteOrder) :
    file (between [] data o) = fileWith depth (between [] data o) := by
  refine bind_congr fun h c hh => ?_
  obtain ⟨bs, rest, o', rfl, -, rfl, -⟩ := header_delimits hh
  rw [List.length_append] at hdepth
  change (prototype h (([] ++ bs ++ rest : Bytes).length + 1) _ >>= _) = (prototype h depth _ >>= _)
  rw [prototype_depth h _ depth (by simp only [List.length_append]; omega) (by omega)]

/-- The bytes in front of the position at which reading ended are taken, whatever the bound. -/
theorem fileWith_takes {data : Bytes} {o : ByteOrder} {f : ChunkFile} {c : Cursor}
    (h : file (between [] data o) = .ok (f, c)) (depth : Nat) (hdepth : data.length < depth) :
    c.offset ≤ data.length ∧ ∃ o', Takes (fileWith depth) [] o (data.take c.offset) o' 0 f := by
  rw [file_eq hdepth] at h
  obtain ⟨bs, rest, o', rfl, -, rfl, htakes⟩ := fileWith_delimits depth h
  rw [Cursor.between_offset, List.nil_append, List.take_left, List.length_append]
  exact ⟨Nat.le_add_right _ _, o', htakes⟩

end Decoder

theorem ChunkFile.decode_eq (data : Bytes) (depth : Nat) (hdepth : data.length < depth) :
    ChunkFile.decode data =
      (Decoder.fileWith depth (Cursor.between [] data .little)).map Prod.fst := by
  rw [← Decoder.file_eq hdepth]
  rfl

theorem ChunkFile.file_of_decode {data : Bytes} {f : ChunkFile} (h : decode data = .ok f) :
    ∃ c, Decoder.file (Cursor.between [] data .little) = .ok (f, c) := by
  change (Decoder.file (Cursor.between [] data .little)).map Prod.fst = .ok f at h
  cases hrun : Decoder.file (Cursor.between [] data .little) with
  | error e =>
    rw [hrun] at h
    cases h
  | ok r =>
    rw [hrun] at h
    cases h
    exact ⟨r.2, rfl⟩

/-- **A chunk file ends by itself.** Up to the position at which reading ended, the bytes are the same
file whatever follows them, and no proper part of them is one: the data ends too early there. -/
theorem decode_delimited {data : Bytes} {f : ChunkFile} (h : ChunkFile.decode data = .ok f) :
    ∃ n ≤ data.length,
      (∃ c, Decoder.file (Cursor.start data .little) = .ok (f, c) ∧ c.offset = n) ∧
      (∀ s, ChunkFile.decode (data.take n ++ s) = .ok f) ∧
      ∀ k < n, ∃ e, ChunkFile.decode (data.take k) = .error e ∧ e.cause.isEnd := by
  obtain ⟨c, hfile⟩ := ChunkFile.file_of_decode h
  refine ⟨c.offset, (Decoder.fileWith_takes hfile _ (Nat.lt_succ_self _)).1, ⟨c, hfile, rfl⟩, ?_, ?_⟩
  · intro s
    let depth := max data.length (data.take c.offset ++ s).length + 1
    obtain ⟨-, o', htakes⟩ := Decoder.fileWith_takes hfile depth (by omega)
    rw [ChunkFile.decode_eq _ depth (by omega), htakes.reads s (Nat.zero_le _)]
    rfl
  · intro k hk
    obtain ⟨hle, o', htakes⟩ := Decoder.fileWith_takes hfile _ (Nat.lt_succ_self _)
    have hshort : (data.take k).length < (data.take c.offset).length := by
      rw [List.length_take, List.length_take]
      omega
    obtain ⟨e, he, hend⟩ := htakes.stops (data.take k)
      (.inl (List.take_prefix_take_left (Nat.le_of_lt hk))) hshort
    refine ⟨e, ?_, hend⟩
    rw [ChunkFile.decode_eq _ (data.length + 1) (by rw [List.length_take]; omega), he]
    rfl

/-- The specimen with more bytes behind it. -/
theorem decode_delimited_specimen :
    ∃ f, ChunkFile.decode (Assembly.specimen.bytes ++ [1, 2, 3]) = .ok f ∧
      ∃ n ≤ (Assembly.specimen.bytes ++ [1, 2, 3]).length,
        (∀ s, ChunkFile.decode ((Assembly.specimen.bytes ++ [1, 2, 3]).take n ++ s) = .ok f) ∧
        ∀ k < n, ∃ e, ChunkFile.decode ((Assembly.specimen.bytes ++ [1, 2, 3]).take k) = .error e ∧
          e.cause.isEnd := by
  have hread : (ChunkFile.decode (Assembly.specimen.bytes ++ [1, 2, 3])).isOk := by decide +kernel
  cases hf : ChunkFile.decode (Assembly.specimen.bytes ++ [1, 2, 3]) with
  | error e =>
    rw [hf] at hread
    cases hread
  | ok f =>
    obtain ⟨n, hn, -, hreads, hstops⟩ := decode_delimited hf
    exact ⟨f, rfl, n, hn, hreads, hstops⟩

end HavokScript
