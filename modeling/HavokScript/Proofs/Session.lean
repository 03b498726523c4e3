import HavokScript.Proofs.Outcome
import HavokScript.Session
import Mathlib.Algebra.Group.Int.Defs
import Mathlib.Algebra.Group.Nat.Defs
import Mathlib.Order.Bounds.Defs
import Mathlib.Tactic.SplitIfs

/-!
# Sessions stay in bounds

A session counts in 64-bit integers, and callers may ask for any length and any position. As long as
all its positions lie in its byte string (`Session.InBounds`), no sum wraps around and no part is
missing: an operation does what it does on a `Cursor`, whose positions are natural numbers
(`Session.perform_follows`), and positions stay in bounds. A failure comes before anything was
changed. `Session.run_inBounds` says this of every operation after any others.
-/

namespace HavokScript

namespace Session

/-- All positions lie in the byte string, whose length is a 64-bit integer. -/
structure InBounds (s : Session) : Prop where
  length : s.data.length < 2 ^ 63
  nonneg : 0 ≤ s.offset.toInt
  le : s.offset.toInt ≤ s.data.length
  saved : ∀ p ∈ s.saved, 0 ≤ p.toInt ∧ p.toInt ≤ s.data.length

/-- The cursor at the position of the session. -/
def cursor (s : Session) : Cursor :=
  ⟨s.data, s.offset.toNatClampNeg, s.order, s.saved.map Int64.toNatClampNeg⟩

/-- Where the session is in bounds, a step does what the reading step does on the cursor, and the session
stays in bounds; if that fails, the step fails in the same way and changes nothing. -/
def Follows {α : Type} (step : Step α) (read : Read α) : Prop :=
  ∀ s : Session, s.InBounds →
    Outcome (fun r => ∃ s', step s = some (.ok r.1, s') ∧ s'.cursor = r.2 ∧ s'.data = s.data ∧
        s'.InBounds)
      (fun e => step s = some (.error e, s)) (read s.cursor)

variable {s : Session}

/-! ## 64-bit integers -/

theorem toInt_length (h : s.InBounds) : s.length.toInt = s.data.length :=
  Int64.toInt_ofNat_of_lt h.length

theorem natCast_offset (h : s.InBounds) : (s.offset.toNatClampNeg : Int) = s.offset.toInt := by
  rw [← Int64.toNat_toInt, Int.toNat_of_nonneg h.nonneg]

/-- A difference that is in the range is the difference. -/
theorem toInt_sub_of_range {a b : Int64} (hlow : -2 ^ 63 ≤ a.toInt - b.toInt)
    (hhigh : a.toInt - b.toInt < 2 ^ 63) : (a - b).toInt = a.toInt - b.toInt := by
  rw [Int64.toInt_sub, Int.bmod_def]
  omega

theorem toInt_add_of_range {a b : Int64} (hlow : -2 ^ 63 ≤ a.toInt + b.toInt)
    (hhigh : a.toInt + b.toInt < 2 ^ 63) : (a + b).toInt = a.toInt + b.toInt := by
  rw [Int64.toInt_add, Int.bmod_def]
  omega

theorem toInt_remaining (h : s.InBounds) : s.remaining.toInt = s.data.length - s.offset.toInt := by
  have hlength := toInt_length h
  have hlt := h.length
  have hnonneg := h.nonneg
  have hle := h.le
  rw [remaining, toInt_sub_of_range, hlength] <;> omega

@[simp] theorem cursor_data (s : Session) : s.cursor.data = s.data := rfl

@[simp] theorem cursor_offset (s : Session) : s.cursor.offset = s.offset.toNatClampNeg := rfl

@[simp] theorem cursor_order (s : Session) : s.cursor.order = s.order := rfl

theorem remaining_cursor (h : s.InBounds) : (s.cursor.remaining : Int) = s.remaining.toInt := by
  have hoffset := natCast_offset h
  have hle := h.le
  rw [toInt_remaining h, Cursor.remaining, cursor_data, cursor_offset]
  omega

/-- A session in bounds that moves to a position of its byte string is in bounds. -/
theorem InBounds.move (h : s.InBounds) {offset : Int64} (hnonneg : 0 ≤ offset.toInt)
    (hle : offset.toInt ≤ s.data.length) : InBounds { s with offset } :=
  ⟨h.length, hnonneg, hle, h.saved⟩

/-! ## Moving -/

theorem take_eq (n : Int64) (s : Session) :
    take n s = if n < 0 ∨ s.remaining < n then
        some (.error (.unexpectedEnd n.toInt s.offset.toNatClampNeg s.remaining.toNatClampNeg), s)
      else (s.part? s.offset (s.offset + n)).map fun bs =>
        (.ok bs, { s with offset := s.offset + n }) := by
  change (if n < 0 ∨ s.remaining < n then _ else _ : Step Bytes) s = _
  split_ifs
  · rfl
  · cases hpart : s.part? s.offset (s.offset + n) with
    | none => rfl
    | some bs => rfl

/-- The sum of the position and a length that is left does not wrap around, so the part is there. -/
theorem take_follows (n : Int64) : Follows (take n) (Cursor.take n.toInt) := by
  intro s h
  have hremaining := remaining_cursor h
  have hoffset := natCast_offset h
  have hlack : (n < 0 ∨ s.remaining < n) ↔
      (n.toInt < 0 ∨ (s.cursor.remaining : Int) < n.toInt) := by
    rw [hremaining, Int64.lt_iff_toInt_lt, Int64.lt_iff_toInt_lt, Int64.toInt_zero]
  rw [Cursor.take]
  by_cases hn : n.toInt < 0 ∨ (s.cursor.remaining : Int) < n.toInt
  · rw [if_pos hn]
    have hnat : s.remaining.toNatClampNeg = s.cursor.remaining := by
      rw [← Int64.toNat_toInt, ← hremaining, Int.toNat_natCast]
    have hfail := take_eq n s
    rw [if_pos (hlack.mpr hn), hnat] at hfail
    exact hfail
  · rw [if_neg hn]
    have htoInt := toInt_remaining h
    have hlength := toInt_length h
    have hlt := h.length
    have hnonneg := h.nonneg
    have hsum : (s.offset + n).toInt = s.offset.toInt + n.toInt := by
      refine toInt_add_of_range ?_ ?_ <;> omega
    have hnat : (s.offset + n).toNatClampNeg = s.offset.toNatClampNeg + n.toInt.toNat := by
      rw [← Int64.toNat_toInt, hsum]
      omega
    have hpart : s.part? s.offset (s.offset + n) =
        some ((s.data.drop s.offset.toNatClampNeg).take n.toInt.toNat) := by
      rw [part?, if_pos, hnat, List.drop_take]
      · simp
      · simp only [Int64.le_iff_toInt_le, hsum, hlength, Int64.toInt_zero]
        omega
    have htake := take_eq n s
    rw [if_neg (mt hlack.mp hn), hpart] at htake
    refine ⟨_, htake, ?_, rfl, h.move ?_ ?_⟩
    · rw [cursor, hnat]
      rfl
    · rw [hsum]
      omega
    · rw [hsum]
      omega

theorem seek_follows (target : Int64) : Follows (seek target) (Cursor.seek target.toInt) := by
  intro s h
  have hlength := toInt_length h
  have hout : (target < 0 ∨ s.length < target) ↔
      (target.toInt < 0 ∨ (s.cursor.data.length : Int) < target.toInt) := by
    rw [cursor_data, ← hlength, Int64.lt_iff_toInt_lt, Int64.lt_iff_toInt_lt, Int64.toInt_zero]
  have hseek : seek target s = if target < 0 ∨ s.length < target then
      some (.error (.badSeek target.toInt s.data.length), s)
      else some (.ok (), { s with offset := target }) := by
    change (if target < 0 ∨ s.length < target then _ else _ : Step Unit) s = _
    split_ifs <;> rfl
  rw [Cursor.seek]
  by_cases htarget : target.toInt < 0 ∨ (s.cursor.data.length : Int) < target.toInt
  · rw [if_pos htarget]
    rwa [if_pos (hout.mpr htarget)] at hseek
  · rw [if_neg htarget]
    rw [if_neg (mt hout.mp htarget)] at hseek
    rw [cursor_data] at htarget
    exact ⟨_, hseek, rfl, rfl, h.move (by omega) (by omega)⟩

/-! ## Steps one after the other -/

theorem bind_ok {α β : Type} {step : Step α} {f : α → Step β} {x : α} {s' : Session}
    (h : step s = some (.ok x, s')) : (step >>= f) s = f x s' := by
  change (step s).bind _ = _
  rw [h]
  rfl

theorem bind_error {α β : Type} {step : Step α} {f : α → Step β} {e : CursorError} {s' : Session}
    (h : step s = some (.error e, s')) : (step >>= f) s = some (.error e, s') := by
  change (step s).bind _ = _
  rw [h]
  rfl

/-- Only the first of two steps may fail: what it did is not taken back. -/
theorem Follows.bind {α β : Type} {step : Step α} {read : Read α} {f : α → Step β} {g : α → Read β}
    (h : Follows step read)
    (hf : ∀ x (s : Session), s.InBounds → ∃ y s', f x s = some (.ok y, s') ∧
      g x s.cursor = .ok (y, s'.cursor) ∧ s'.data = s.data ∧ s'.InBounds) :
    Follows (step >>= f) (read >>= g) := by
  intro s hs
  have hstep := h s hs
  change Outcome _ _ ((read s.cursor).bind fun r => g r.1 r.2)
  cases hread : read s.cursor with
  | error e =>
    rw [hread] at hstep
    exact bind_error hstep
  | ok r =>
    rw [hread] at hstep
    obtain ⟨s', hok, hcursor, hdata, hs'⟩ := hstep
    obtain ⟨y, t, hy, hg, hdata', ht⟩ := hf r.1 s' hs'
    change Outcome _ _ (g r.1 r.2)
    rw [← hcursor, hg]
    exact ⟨t, (bind_ok hok).trans hy, rfl, hdata'.trans hdata, ht⟩

theorem Follows.map {α β : Type} {step : Step α} {read : Read α} (h : Follows step read)
    (f : α → β) :
    Follows (step >>= fun x => pure (f x)) (read >>= fun x => pure (f x)) :=
  h.bind fun x s hs => ⟨f x, s, rfl, rfl, rfl, hs⟩

theorem skip_follows (n : Int64) : Follows (skip n) (Cursor.skip n.toInt) :=
  (take_follows n).map fun _ => ()

theorem pad_eq (align : Int64) (s : Session) :
    pad align s = if align ≤ 1 ∨ s.offset % align = 0 then some (.ok (), s)
      else skip (align - s.offset % align) s := by
  change (if align ≤ 1 then _ else _ : Step Unit) s = _
  by_cases hone : align ≤ 1
  · rw [if_pos hone, if_pos (.inl hone)]
    rfl
  · rw [if_neg hone]
    change (if s.offset % align = 0 then _ else _ : Step Unit) s = _
    by_cases hzero : s.offset % align = 0
    · rw [if_pos hzero, if_pos (.inr hzero)]
      rfl
    · rw [if_neg hzero, if_neg (not_or.mpr ⟨hone, hzero⟩)]

theorem pad_follows (align : Int64) : Follows (pad align) (Cursor.pad align.toInt) := by
  intro s h
  have hoffset := natCast_offset h
  have hone : align ≤ 1 ↔ align.toInt ≤ 1 := by
    rw [Int64.le_iff_toInt_le, Int64.toInt_one]
  have hover : (s.offset % align).toInt = s.cursor.offset % align.toInt := by
    rw [Int64.toInt_mod, cursor_offset, hoffset, Int.tmod_eq_emod_of_nonneg h.nonneg]
  have hnothing : (align ≤ 1 ∨ s.offset % align = 0) ↔
      (align.toInt ≤ 1 ∨ (s.cursor.offset : Int) % align.toInt = 0) := by
    rw [hone, ← hover, ← Int64.toInt_inj, Int64.toInt_zero]
  have hpad := pad_eq align s
  rw [Cursor.pad]
  by_cases hnone : align.toInt ≤ 1 ∨ (s.cursor.offset : Int) % align.toInt = 0
  · rw [if_pos hnone]
    rw [if_pos (hnothing.mpr hnone)] at hpad
    exact ⟨s, hpad, rfl, rfl, h⟩
  · rw [if_neg hnone]
    have hstep : (align - s.offset % align).toInt = align.toInt - s.cursor.offset % align.toInt := by
      have hpos : 0 < align.toInt := by omega
      have hlow := Int.emod_nonneg (s.cursor.offset : Int) (Int.ne_of_gt hpos)
      have hhigh := Int.emod_lt_of_pos (s.cursor.offset : Int) hpos
      have hlt := Int64.toInt_lt align
      rw [toInt_sub_of_range, hover] <;> omega
    have hskip := skip_follows (align - s.offset % align) s h
    rw [if_neg (mt hnothing.mp hnone)] at hpad
    rw [hstep, ← hpad] at hskip
    exact hskip

theorem push_follows : Follows push Cursor.push := fun s h => by
  refine ⟨_, rfl, rfl, rfl, h.length, h.nonneg, h.le, ?_⟩
  exact List.forall_mem_cons.mpr ⟨⟨h.nonneg, h.le⟩, h.saved⟩

theorem pop_follows : Follows pop Cursor.pop := by
  intro s h
  have hsaved := h.saved
  obtain ⟨data, offset, order, saved⟩ := s
  cases saved with
  | nil => exact rfl
  | cons p ps =>
    rw [List.forall_mem_cons] at hsaved
    exact ⟨_, rfl, rfl, rfl, h.length, hsaved.1.1, hsaved.1.2, hsaved.2⟩

theorem setOrder_follows (order : ByteOrder) : Follows (setOrder order) (Cursor.setOrder order) :=
  fun _ h => ⟨_, rfl, rfl, rfl, h.length, h.nonneg, h.le, h.saved⟩

/-! ## Numbers -/

/-- The same number, read at a cursor. -/
def Number.read : Number → Read Value
  | unsigned w => do return .integer (← Cursor.unsigned w.bytes)
  | signed w => do return .integer (← Cursor.integer w.bytes)
  | single => do return .float .single (← Cursor.unsigned 4)
  | double => do return .float .double (← Cursor.unsigned 8)

theorem Number.read_eq (k : Number) : k.read = do
    let bs ← Cursor.take k.width
    let c ← get
    return k.value c.order bs := by
  cases k <;> simp only [Number.read, Cursor.unsigned, Cursor.integer, bind_assoc, pure_bind] <;> rfl

theorem Number.toInt_width (k : Number) : (Int64.ofNat k.width).toInt = k.width := by
  rcases k with w | w | _ | _
  · cases w <;> rfl
  · cases w <;> rfl
  · rfl
  · rfl

theorem number_follows (k : Number) : Follows (number k) k.read := by
  rw [k.read_eq, ← k.toInt_width]
  exact (take_follows _).bind fun bs s h => ⟨k.value s.order bs, s, rfl, rfl, rfl, h⟩

theorem sized_follows (width : Int64) :
    Follows (sized width) (do return .integer (← Cursor.sized width.toInt)) := by
  have hsome : ∀ w : Width, width.toInt = w.bytes → Width.ofInt64? width = some w →
      Follows (sized width) (do return .integer (← Cursor.sized width.toInt)) := by
    intro w hw hwidth
    have hread : (do return .integer (← Cursor.sized width.toInt) : Read Value) =
        (Number.unsigned w).read := by
      rw [hw]
      cases w <;> rfl
    rw [hread, sized, hwidth]
    exact number_follows _
  by_cases hone : width = 1
  · exact hsome .one (by rw [hone]; rfl) (by rw [hone]; rfl)
  by_cases htwo : width = 2
  · exact hsome .two (by rw [htwo]; rfl) (by rw [htwo]; rfl)
  by_cases hfour : width = 4
  · exact hsome .four (by rw [hfour]; rfl) (by rw [hfour]; rfl)
  by_cases height : width = 8
  · exact hsome .eight (by rw [height]; rfl) (by rw [height]; rfl)
  have hnone : Width.ofInt64? width = none := by
    simp [Width.ofInt64?, hone, htwo, hfour, height]
  have hwidth : ¬ (width.toInt = 1 ∨ width.toInt = 2 ∨ width.toInt = 4 ∨ width.toInt = 8) := by
    rw [← Int64.toInt_inj] at hone htwo hfour height
    exact not_or.mpr ⟨hone, not_or.mpr ⟨htwo, not_or.mpr ⟨hfour, height⟩⟩⟩
  have hread : Cursor.sized width.toInt =
      fun _ => .error (.unsupportedWidth width.toInt) := if_neg hwidth
  intro s h
  rw [sized, hnone, hread]
  exact rfl

/-! ## Operations -/

/-- The same operation on a cursor. -/
def Operation.read : Operation → Read Value
  | number k => k.read
  | sized width => do return .integer (← Cursor.sized width.toInt)
  | bytes n | string n => do return .bytes (← Cursor.take n.toInt)
  | seek target => do
    Cursor.seek target.toInt
    return .nothing
  | skip n => do
    Cursor.skip n.toInt
    return .nothing
  | pad align => do
    Cursor.pad align.toInt
    return .nothing
  | push => do
    Cursor.push
    return .nothing
  | pop => do
    Cursor.pop
    return .nothing
  | setOrder order => do
    Cursor.setOrder order
    return .nothing

/-- A session in bounds does what its cursor does: 64-bit positions are as good as natural numbers. -/
theorem perform_follows (op : Operation) : Follows op.perform op.read := by
  cases op with
  | number k => exact number_follows k
  | sized width => exact sized_follows width
  | bytes n | string n => exact (take_follows n).map _
  | seek target => exact (seek_follows target).map _
  | skip n => exact (skip_follows n).map _
  | pad align => exact (pad_follows align).map _
  | push => exact push_follows.map _
  | pop => exact pop_follows.map _
  | setOrder order => exact (setOrder_follows order).map _

/-- An operation on a session in bounds ends, and the session stays in bounds; a failure changes
nothing. -/
theorem InBounds.perform (h : s.InBounds) (op : Operation) :
    ∃ outcome s', op.perform s = some (outcome, s') ∧ s'.data = s.data ∧ s'.InBounds ∧
      ∀ e, outcome = .error e → s' = s := by
  have hop := perform_follows op s h
  cases hread : op.read s.cursor with
  | ok r =>
    rw [hread] at hop
    obtain ⟨s', hok, -, hdata, hs'⟩ := hop
    exact ⟨_, s', hok, hdata, hs', nofun⟩
  | error e =>
    rw [hread] at hop
    exact ⟨_, s, hop, rfl, h, fun _ _ => rfl⟩

/-- The number of a fixed width that an operation reads, if it reads one. -/
def Operation.number? : Operation → Option Number
  | number k => some k
  | sized width => (Width.ofInt64? width).map .unsigned
  | _ => none

theorem Operation.perform_of_number? {op : Operation} {k : Number} (h : op.number? = some k) :
    op.perform = Session.number k := by
  cases op with
  | number k' =>
    cases h
    rfl
  | sized width =>
    obtain ⟨w, hw, rfl⟩ := Option.map_eq_some_iff.mp h
    rw [perform, Session.sized, hw]
  | _ => cases h

/-- A number of a fixed width is the one that the bytes at the position stand for. -/
theorem number_ok (h : s.InBounds) {k : Number} {v : Value} {s' : Session}
    (hok : number k s = some (.ok v, s')) :
    s'.offset.toInt = s.offset.toInt + k.width ∧
      v = k.value s.order ((s.data.drop s.offset.toInt.toNat).take k.width) := by
  have hnumber := number_follows k s h
  rw [k.read_eq] at hnumber
  change Outcome _ _ ((Cursor.take k.width s.cursor).bind _) at hnumber
  rw [Cursor.take] at hnumber
  split_ifs at hnumber with hlack
  · rw [hok] at hnumber
    cases hnumber
  · obtain ⟨t, ht, hcursor, -, ht'⟩ := hnumber
    rw [hok] at ht
    obtain ⟨hv, rfl⟩ := Prod.mk.inj (Option.some.inj ht)
    refine ⟨?_, ?_⟩
    · have hoffset : s'.offset.toNatClampNeg = s.offset.toNatClampNeg + (k.width : Int).toNat :=
        congrArg Cursor.offset hcursor
      have hnat := natCast_offset h
      have hnat' := natCast_offset ht'
      omega
    · rw [Except.ok.inj hv, Int64.toNat_toInt]
      rfl

/-- The least multiple behind a number that is none. -/
theorem isLeast_multiple {a o : Int} (ha : 0 < a) (ho : o % a ≠ 0) :
    IsLeast {m : Int | a ∣ m ∧ o ≤ m} (o + (a - o % a)) := by
  have hlow := Int.emod_nonneg o (Int.ne_of_gt ha)
  have hhigh := Int.emod_lt_of_pos o ha
  have hdvd : a ∣ o - o % a := Int.dvd_self_sub_emod
  refine ⟨⟨?_, by omega⟩, ?_⟩
  · rw [show o + (a - o % a) = o - o % a + a by omega]
    exact Int.dvd_add hdvd (Int.dvd_refl a)
  · rintro m ⟨hm, hle⟩
    -- The distance from the multiple in front is a multiple, and not zero.
    have hgap := Int.le_of_dvd (by omega) (Int.dvd_sub hm hdvd)
    omega

/-- Passing over the bytes up to a multiple leads to the next one. -/
theorem pad_ok (h : s.InBounds) {align : Int64} (halign : 1 < align.toInt) {s' : Session}
    (hok : pad align s = some (.ok (), s')) :
    IsLeast {m : Int | align.toInt ∣ m ∧ s.offset.toInt ≤ m} s'.offset.toInt := by
  have hpad := pad_follows align s h
  have hnat := natCast_offset h
  rw [Cursor.pad, cursor_offset, hnat] at hpad
  by_cases hover : s.offset.toInt % align.toInt = 0
  · rw [if_pos (.inr hover)] at hpad
    obtain ⟨t, ht, hcursor, -, ht'⟩ := hpad
    cases hok.symm.trans ht
    have hoffset : s'.offset.toNatClampNeg = s.offset.toNatClampNeg :=
      congrArg Cursor.offset hcursor
    have hnat' := natCast_offset ht'
    rw [show s'.offset.toInt = s.offset.toInt by omega]
    exact ⟨⟨Int.dvd_of_emod_eq_zero hover, Int.le_refl _⟩, fun m hm => hm.2⟩
  · rw [if_neg (by omega)] at hpad
    change Outcome _ _ ((Cursor.take _ s.cursor).bind _) at hpad
    rw [Cursor.take] at hpad
    split_ifs at hpad with hlack
    · rw [hok] at hpad
      cases hpad
    · obtain ⟨t, ht, hcursor, -, ht'⟩ := hpad
      cases hok.symm.trans ht
      have hoffset : s'.offset.toNatClampNeg = s.offset.toNatClampNeg +
          (align.toInt - s.offset.toInt % align.toInt).toNat := congrArg Cursor.offset hcursor
      have hnat' := natCast_offset ht'
      have hhigh := Int.emod_lt_of_pos s.offset.toInt (by omega : 0 < align.toInt)
      rw [show s'.offset.toInt =
        s.offset.toInt + (align.toInt - s.offset.toInt % align.toInt) by omega]
      exact isLeast_multiple (by omega) hover

theorem ok_of_bind_pure {α β : Type} {step : Step α} {x y : β} {s' : Session}
    (h : (step >>= fun _ => pure x) s = some (.ok y, s')) : ∃ a, step s = some (.ok a, s') := by
  cases hstep : step s with
  | none =>
    change (step s).bind _ = _ at h
    rw [hstep] at h
    cases h
  | some r =>
    obtain ⟨outcome, t⟩ := r
    cases outcome with
    | error e =>
      rw [bind_error hstep] at h
      cases h
    | ok a =>
      rw [bind_ok hstep] at h
      cases h
      exact ⟨a, rfl⟩

/-- The session in front of a byte string is in bounds. -/
theorem start_inBounds {data : Bytes} (h : data.length < 2 ^ 63) (order : Option ByteOrder) :
    (start data order).InBounds :=
  ⟨h, Int.le_refl 0, Int.natCast_nonneg _, by simp [start]⟩

theorem InBounds.run (h : s.InBounds) (ops : List Operation) :
    ∃ s', Session.run ops s = some s' ∧ s'.data = s.data ∧ s'.InBounds := by
  induction ops generalizing s with
  | nil => exact ⟨s, rfl, rfl, h⟩
  | cons op ops ih =>
    obtain ⟨outcome, s', hop, hdata, hs', -⟩ := h.perform op
    obtain ⟨t, hrun, hdata', ht⟩ := ih hs'
    refine ⟨t, ?_, hdata'.trans hdata, ht⟩
    rw [Session.run, List.foldlM_cons, after, hop]
    exact hrun

/-- **Positions stay in bounds, and failures change nothing.** On a byte string of at most `2 ^ 63 - 1`
bytes, whatever operations were done before and whether they failed or not, the position and all saved
positions lie in the byte string, and the bytes that are left are those behind the position. The next
operation ends without a crash and keeps this. If it fails, it changes nothing. A number of a fixed
width is the one that the bytes at the position stand for in the byte order of the moment, and the
position moves by the width. Passing over bytes up to a multiple leads to the least multiple that is
not in front of the position. -/
theorem run_inBounds {data : Bytes} (hdata : data.length < 2 ^ 63) (order : Option ByteOrder)
    (ops : List Operation) :
    ∃ s, run ops (start data order) = some s ∧ s.data = data ∧ s.InBounds ∧
      s.remaining.toInt = data.length - s.offset.toInt ∧
      ∀ op : Operation, ∃ outcome s', op.perform s = some (outcome, s') ∧ s'.data = data ∧
        s'.InBounds ∧ s'.remaining.toInt = data.length - s'.offset.toInt ∧
        (∀ e, outcome = .error e → s' = s) ∧
        (∀ k v, op.number? = some k → outcome = .ok v →
          s'.offset.toInt = s.offset.toInt + k.width ∧
            v = k.value s.order ((data.drop s.offset.toInt.toNat).take k.width)) ∧
        ∀ align v, op = .pad align → 1 < align.toInt → outcome = .ok v →
          IsLeast {m : Int | align.toInt ∣ m ∧ s.offset.toInt ≤ m} s'.offset.toInt := by
  obtain ⟨s, hrun, hs, hbounds⟩ := (start_inBounds hdata order).run ops
  have hs : s.data = data := hs
  refine ⟨s, hrun, hs, hbounds, by rw [toInt_remaining hbounds, hs], fun op => ?_⟩
  obtain ⟨outcome, s', hop, hs', hbounds', hfail⟩ := hbounds.perform op
  refine ⟨outcome, s', hop, hs'.trans hs, hbounds', ?_, hfail, ?_, ?_⟩
  · rw [toInt_remaining hbounds', hs', hs]
  · rintro k v hk rfl
    rw [Operation.perform_of_number? hk] at hop
    rw [← hs]
    exact number_ok hbounds hop
  · rintro align v rfl halign rfl
    obtain ⟨_, hpad⟩ := ok_of_bind_pure hop
    exact pad_ok hbounds halign hpad

/-- After a read, a push, two failures and a change of the byte order, the next two bytes are read in
the new order; passing over the bytes up to a multiple of four moves from the third byte behind the
fourth. -/
theorem run_inBounds_fiveBytes :
    ∃ s, run [.number (.signed .two), .push, .skip (-1), .seek 9, .setOrder .big]
        (start [1, 2, 3, 4, 5] none) = some s ∧
      s = ⟨[1, 2, 3, 4, 5], 2, .big, [2]⟩ ∧ s.InBounds ∧
      (∃ s', (Operation.number (.unsigned .two)).perform s = some (.ok (.integer 0x0304), s') ∧
        s'.offset.toInt = 4) ∧
      ∃ s', (Operation.pad 4).perform s = some (.ok .nothing, s') ∧
        IsLeast {m : Int | 4 ∣ m ∧ 2 ≤ m} s'.offset.toInt := by
  obtain ⟨s, hrun, -, hbounds, -, hops⟩ :=
    run_inBounds (show ([1, 2, 3, 4, 5] : Bytes).length < 2 ^ 63 by decide) none
      [.number (.signed .two), .push, .skip (-1), .seek 9, .setOrder .big]
  obtain rfl : s = ⟨[1, 2, 3, 4, 5], 2, .big, [2]⟩ := Option.some.inj (hrun.symm.trans (by rfl))
  obtain ⟨_, s', hread, -, -, -, -, hnumber, -⟩ := hops (.number (.unsigned .two))
  obtain ⟨_, t', hpad, -, -, -, -, -, hleast⟩ := hops (.pad 4)
  cases hread.symm.trans (show _ = some (.ok (.integer 0x0304), ⟨_, 4, .big, [2]⟩) by rfl)
  cases hpad.symm.trans (show _ = some (.ok .nothing, ⟨_, 4, .big, [2]⟩) by rfl)
  exact ⟨_, hrun, rfl, hbounds, ⟨_, hread, (hnumber _ _ rfl rfl).1⟩, _, hpad,
    hleast 4 _ rfl (by decide) rfl⟩

end Session

end HavokScript
