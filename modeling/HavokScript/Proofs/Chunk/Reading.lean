import HavokScript.Chunk.Decode
import Mathlib.Data.List.Forall2

/-!
# Reading what lies ahead

A decoding step is described by the bytes it reads: `Decoder.Reads step passed o bs o' slack x` says
that behind the bytes `passed`, in byte order `o`, the step reads `bs` as `x` and leaves the byte
order `o'`, whatever follows. Sizes are checked against the rest of the file before what they count
is read, so a step may want at least `slack` more bytes behind those it reads.

The description is closed under sequencing (`Reads.bind`) and counted repetition
(`repeated_reads`), so that a reader is matched with a writer part by part.
-/

namespace HavokScript

namespace Cursor

/-- The cursor behind some bytes and in front of others. -/
def between (passed ahead : Bytes) (order : ByteOrder) : Cursor :=
  ⟨passed ++ ahead, passed.length, order, []⟩

@[simp] theorem between_offset (passed ahead : Bytes) (order : ByteOrder) :
    (between passed ahead order).offset = passed.length := rfl

@[simp] theorem between_remaining (passed ahead : Bytes) (order : ByteOrder) :
    (between passed ahead order).remaining = ahead.length := by
  simp [between, remaining]

theorem between_nil (passed : Bytes) (order : ByteOrder) :
    between passed [] order = ⟨passed, passed.length, order, []⟩ := by
  rw [between, List.append_nil]

theorem take_between (passed bs rest : Bytes) (order : ByteOrder) (n : Int)
    (hn : n = bs.length) :
    take n (between passed (bs ++ rest) order) =
      .ok (bs, between (passed ++ bs) rest order) := by
  subst hn
  have hnot : ¬ ((bs.length : Int) < 0 ∨
      ((between passed (bs ++ rest) order).remaining : Int) < bs.length) := by
    rw [between_remaining, List.length_append]
    omega
  rw [take, if_neg hnot]
  simp [between]

theorem unsigned_between (passed rest : Bytes) (order : ByteOrder) (width n : Nat) :
    unsigned width (between passed (Bytes.ofNat order width n ++ rest) order) =
      .ok (n % Nat.pow 256 width, between (passed ++ Bytes.ofNat order width n) rest order) := by
  show (take width _ >>= fun r => _) = _
  rw [take_between _ _ _ _ _ (by simp)]
  show Except.ok (Bytes.toNat order (Bytes.ofNat order width n), _) = _
  rw [Bytes.toNat_ofNat]

theorem integer_between (passed rest : Bytes) (order : ByteOrder) (width n : Nat) :
    integer width (between passed (Bytes.ofNat order width n ++ rest) order) =
      .ok (signed width (n % Nat.pow 256 width : Nat),
        between (passed ++ Bytes.ofNat order width n) rest order) := by
  show (unsigned width _ >>= fun r => _) = _
  rw [unsigned_between]
  rfl

/-- Passing over the bytes up to the next multiple of four. -/
theorem pad_between (passed bs rest : Bytes) (order : ByteOrder)
    (hbs : bs.length = (4 - passed.length % 4) % 4) :
    pad 4 (between passed (bs ++ rest) order) =
      .ok ((), between (passed ++ bs) rest order) := by
  unfold pad
  rw [between_offset]
  split
  · rename_i haligned
    have hnil : bs = [] := List.eq_nil_of_length_eq_zero (by omega)
    simp [hnil]
  · show (take _ _ >>= fun r => _) = _
    rw [take_between _ _ _ _ _ (by omega)]
    rfl

end Cursor

namespace Decoder

open Cursor (between)

variable {α β : Type} {passed bs bs' : Bytes} {o o' o'' : ByteOrder} {k k' : Nat}

/-- Behind `passed` and in byte order `o` the step reads `bs` as `x` and leaves the order `o'`,
provided that at least `slack` bytes follow. -/
def Reads (step : Decoder α) (passed : Bytes) (o : ByteOrder) (bs : Bytes) (o' : ByteOrder)
    (slack : Nat) (x : α) : Prop :=
  ∀ rest : Bytes, slack ≤ rest.length →
    step (between passed (bs ++ rest) o) = .ok (x, between (passed ++ bs) rest o')

/-! ## Sequencing -/

theorem pure_reads (x : α) : Reads (pure x) passed o [] o 0 x := by
  intro rest _
  simp only [List.nil_append, List.append_nil]
  rfl

theorem Reads.bind {s : Decoder α} {f : α → Decoder β} {x : α} {y : β}
    (hs : Reads s passed o bs o' k x) (hf : Reads (f x) (passed ++ bs) o' bs' o'' k' y)
    (hk : k ≤ bs'.length + k') : Reads (s >>= f) passed o (bs ++ bs') o'' k' y := by
  intro rest hrest
  show (s _ >>= fun r => f r.1 r.2) = _
  rw [List.append_assoc, hs (bs' ++ rest) (by rw [List.length_append]; omega)]
  show f x (between (passed ++ bs) (bs' ++ rest) o') = _
  rw [hf rest hrest, List.append_assoc]

/-- Sequencing behind a step that wants nothing to follow. -/
theorem Reads.andThen {s : Decoder α} {f : α → Decoder β} {x : α} {y : β}
    (hs : Reads s passed o bs o' 0 x) (hf : Reads (f x) (passed ++ bs) o' bs' o'' k' y) :
    Reads (s >>= f) passed o (bs ++ bs') o'' k' y :=
  hs.bind hf (by omega)

/-- The last step of a sequence. -/
theorem Reads.map {s : Decoder α} {f : α → β} {x : α} (hs : Reads s passed o bs o' k x) :
    Reads (s >>= fun a => pure (f a)) passed o bs o' k (f x) := by
  intro rest hrest
  show (s _ >>= fun r => _) = _
  rw [hs rest hrest]
  rfl

/-- A step that looks at the cursor first: it stands behind `passed`, and what is read lies
ahead. -/
theorem Reads.look {f : Cursor → Decoder α} {x : α}
    (hf : ∀ c : Cursor, c.offset = passed.length → bs.length + k ≤ c.remaining →
      c.data.length = passed.length + c.remaining → Reads (f c) passed o bs o' k x) :
    Reads (get >>= f) passed o bs o' k x := by
  intro rest hrest
  refine hf (between passed (bs ++ rest) o) rfl ?_ ?_ rest hrest
  · rw [Cursor.between_remaining, List.length_append]
    omega
  · simp [between, Cursor.remaining]

theorem Reads.weaken {s : Decoder α} {x : α} (hs : Reads s passed o bs o' k x) (hk : k ≤ k') :
    Reads s passed o bs o' k' x :=
  fun rest hrest => hs rest (by omega)

theorem Reads.within {s : Decoder α} {x : α} (context : Context)
    (hs : Reads s passed o bs o' k x) : Reads (within context s) passed o bs o' k x := by
  intro rest hrest
  unfold Decoder.within
  rw [hs rest hrest]

theorem lift_reads {s : Read α} {x : α}
    (hs : ∀ rest : Bytes, s (between passed (bs ++ rest) o) =
      .ok (x, between (passed ++ bs) rest o')) : Reads (lift s) passed o bs o' 0 x := by
  intro rest _
  unfold lift
  rw [hs rest]

theorem setOrder_reads (order : ByteOrder) :
    Reads (lift (Cursor.setOrder order)) passed o [] order 0 () := by
  refine lift_reads fun rest => ?_
  rw [List.append_nil]
  rfl

/-! ## Numbers and byte strings -/

theorem unsigned_reads (passed : Bytes) (o : ByteOrder) (width n : Nat) :
    Reads (lift (Cursor.unsigned width)) passed o (Bytes.ofNat o width n) o 0
      (n % Nat.pow 256 width) :=
  lift_reads fun rest => Cursor.unsigned_between passed rest o width n

theorem integer_reads (passed : Bytes) (o : ByteOrder) (width n : Nat) :
    Reads (lift (Cursor.integer width)) passed o (Bytes.ofNat o width n) o 0
      (signed width (n % Nat.pow 256 width : Nat)) :=
  lift_reads fun rest => Cursor.integer_between passed rest o width n

theorem take_reads (passed bs : Bytes) (o : ByteOrder) (n : Int) (hn : n = bs.length) :
    Reads (lift (Cursor.take n)) passed o bs o 0 bs :=
  lift_reads fun rest => Cursor.take_between passed bs rest o n hn

theorem word_reads (passed : Bytes) (o : ByteOrder) (part : Part) (w : UInt32) :
    Reads (word part) passed o (Bytes.ofNat o 4 w.toNat) o 0 w := by
  have h := ((unsigned_reads passed o 4 w.toNat).within (.reading part)).map
    (f := fun n => n.toUInt32)
  have hw : (w.toNat % Nat.pow 256 4).toUInt32 = w := by
    rw [Nat.mod_eq_of_lt (show w.toNat < Nat.pow 256 4 from w.toNat_lt)]
    exact UInt32.ofNat_toNat
  rwa [hw] at h

theorem toNat_toUInt32 {n : Nat} (hn : n < 0x100000000) : n.toUInt32.toNat = n := by
  rw [UInt32.toNat_ofNat']
  omega

/-- A number of four bytes that counts what follows. -/
theorem count_reads (passed : Bytes) (o : ByteOrder) (part : Part) (n : Nat)
    (hn : n < 0x100000000) :
    Reads (word part) passed o (Bytes.ofNat o 4 n) o 0 n.toUInt32 := by
  have h := word_reads passed o part n.toUInt32
  rwa [toNat_toUInt32 hn] at h

/-- One byte as a number. -/
theorem octet_reads (passed : Bytes) (o : ByteOrder) (b : UInt8) :
    Reads (lift (Cursor.unsigned 1)) passed o [b] o 0 b.toNat := by
  have h := unsigned_reads passed o 1 b.toNat
  have hlt := b.toNat_lt
  have hmod : b.toNat % 256 = b.toNat := by omega
  have hbs : Bytes.ofNat o 1 b.toNat = [b] := by
    cases o <;> simp [Bytes.ofNat, Bytes.littleOfNat, hmod]
  rw [Nat.mod_eq_of_lt (show b.toNat < Nat.pow 256 1 from hlt), hbs] at h
  exact h

theorem byte_reads (passed : Bytes) (o : ByteOrder) (part : Part) (b : UInt8) :
    Reads (byte part) passed o [b] o 0 b := by
  have h := ((octet_reads passed o b).within (.reading part)).map (f := fun n => n.toUInt8)
  have hb : b.toNat.toUInt8 = b := UInt8.ofNat_toNat
  rwa [hb] at h

/-! ## Repetition -/

/-- Items one after the other, each of which is read as something it is related to. -/
theorem repeated_reads (item : Nat → Decoder β) (write : α → Bytes) (R : α → β → Prop)
    (passed : Bytes) (xs : List α) (i : Nat)
    (hitem : ∀ x ∈ xs, ∀ i passed, ∃ y, R x y ∧ Reads (item i) passed o (write x) o 0 y) :
    ∃ ys, List.Forall₂ R xs ys ∧
      Reads (repeated item i xs.length) passed o (xs.flatMap write) o 0 ys := by
  induction xs generalizing i passed with
  | nil => exact ⟨[], .nil, pure_reads []⟩
  | cons x xs ih =>
    obtain ⟨y, hxy, hread⟩ := hitem x (by simp) i passed
    obtain ⟨ys, hall, hreads⟩ := ih (passed ++ write x) (i + 1)
      fun z hz => hitem z (by simp [hz])
    exact ⟨y :: ys, .cons hxy hall, hread.andThen hreads.map⟩

end Decoder

end HavokScript
