import HavokScript.Instruction
import Mathlib.Algebra.Order.Ring.Int

/-!
# Words and their fields

An instruction word is divided among the opcode and the fields A, B and C, and the wide field Bx is B
and C taken together. `Word` cuts a field out by division. A machine does so by a mask and a shift, and
puts a value in place by a shift and a mask (`Part.read`, `Part.place`). The parts that a word is put
together from do not overlap, so joining them bit by bit is adding them, and the two ways agree
(`read_eq`, `packABC_eq`). Hence a word is its fields (`fields_partition`): packing the fields of a word
gives the word, and every field of a packed word is the low bits of what was packed into it, whatever
stands in the others.

A field takes an integer modulo its width, so it does not see that sums of 64-bit integers wrap
(`field_bmod`).
-/

namespace HavokScript.Word

/-- A run of bits of a word. -/
structure Part where
  /-- the bits of the run -/
  mask : Word
  /-- how many bits stand below it -/
  shift : Nat
  /-- how many bits it has -/
  width : Nat
  shift_lt : shift < 32
  fits : shift + width ≤ 32
  mask_eq : mask.toNat = (2 ^ width - 1) <<< shift

namespace Part

/-- The bits of the opcode. -/
def op : Part := ⟨0xFE000000, 25, 7, by decide, by decide, by decide⟩

/-- The bits of the field A. -/
def a : Part := ⟨0x000000FF, 0, 8, by decide, by decide, by decide⟩

/-- The bits of the field B. -/
def b : Part := ⟨0x01FE0000, 17, 8, by decide, by decide, by decide⟩

/-- The bits of the field C. -/
def c : Part := ⟨0x0001FF00, 8, 9, by decide, by decide, by decide⟩

/-- The bits of the wide field. -/
def bx : Part := ⟨0x01FFFF00, 8, 17, by decide, by decide, by decide⟩

/-- The value of the run in a word. -/
def read (p : Part) (w : Word) : Word := (w &&& p.mask) >>> p.shift.toUInt32

/-- The word with the low bits of a value in the run, and no other bit. -/
def place (p : Part) (x : Word) : Word := x <<< p.shift.toUInt32 &&& p.mask

theorem toNat_shift (p : Part) : p.shift.toUInt32.toNat % 32 = p.shift := by
  have hlt := p.shift_lt
  have hword : p.shift % 2 ^ 32 = p.shift := Nat.mod_eq_of_lt (by omega)
  rw [UInt32.toNat_ofNat', hword, Nat.mod_eq_of_lt hlt]

theorem toNat_read (p : Part) (w : Word) :
    (p.read w).toNat = w.toNat / 2 ^ p.shift % 2 ^ p.width := by
  rw [read, UInt32.toNat_shiftRight, toNat_shift, UInt32.toNat_and, Nat.shiftRight_and_distrib,
    p.mask_eq, Nat.shiftLeft_shiftRight, Nat.and_two_pow_sub_one_eq_mod, Nat.shiftRight_eq_div_pow]

theorem toNat_place (p : Part) (x : Word) :
    (p.place x).toNat = (x.toNat % 2 ^ p.width) <<< p.shift := by
  have hmask : p.mask.toNat % 2 ^ 32 = p.mask.toNat := Nat.mod_eq_of_lt p.mask.toNat_lt
  rw [place, UInt32.toNat_and, UInt32.toNat_shiftLeft, toNat_shift, ← hmask, ← Nat.and_mod_two_pow,
    p.mask_eq, ← Nat.shiftLeft_and_distrib, Nat.and_two_pow_sub_one_eq_mod]
  apply Nat.mod_eq_of_lt
  rw [Nat.shiftLeft_eq]
  calc x.toNat % 2 ^ p.width * 2 ^ p.shift
    _ < 2 ^ p.width * 2 ^ p.shift :=
      Nat.mul_lt_mul_of_pos_right (Nat.mod_lt _ (Nat.two_pow_pos _)) (Nat.two_pow_pos _)
    _ = 2 ^ (p.shift + p.width) := by rw [Nat.pow_add, Nat.mul_comm]
    _ ≤ 2 ^ 32 := Nat.pow_le_pow_right (by decide) p.fits

end Part

/-! ## Integers in fields -/

theorem field_lt (width : Nat) (x : Int) : field width x < 2 ^ width := by
  have hpos : (0 : Int) < (2 ^ width : Nat) := by exact_mod_cast Nat.two_pow_pos width
  have hlt := Int.emod_lt_of_pos x hpos
  have hnonneg := Int.emod_nonneg x hpos.ne'
  rw [field]
  change (x % (2 ^ width : Nat)).toNat < 2 ^ width
  omega

/-- A field does not see that an integer wraps. -/
theorem field_bmod {width : Nat} (hwidth : width ≤ 64) (x : Int) :
    field width (x.bmod (2 ^ 64)) = field width x := by
  have hdvd : ((2 ^ width : Nat) : Int) ∣ (2 ^ 64 : Nat) :=
    Int.natCast_dvd_natCast.mpr (Nat.pow_dvd_pow 2 hwidth)
  rw [field, field]
  change (x.bmod (2 ^ 64) % (2 ^ width : Nat)).toNat = (x % (2 ^ width : Nat)).toNat
  rw [← Int.emod_emod_of_dvd (x.bmod _) hdvd, Int.bmod_emod, Int.emod_emod_of_dvd x hdvd]

/-- The low 32 bits of a 64-bit integer. -/
def low (x : Int64) : Word := x.toUInt64.toUInt32

theorem toNat_low {width : Nat} (hwidth : width ≤ 32) (x : Int64) :
    (low x).toNat % 2 ^ width = field width x.toInt := by
  have hint : x.toInt = (x.toUInt64.toNat : Int).bmod (2 ^ 64) := BitVec.toInt_eq_toNat_bmod _
  rw [low, UInt64.toNat_toUInt32, Nat.mod_mod_of_dvd _ (Nat.pow_dvd_pow 2 hwidth), hint,
    field_bmod (by omega), field]
  change _ = ((x.toUInt64.toNat : Int) % (2 ^ width : Nat)).toNat
  rw [← Int.natCast_mod, Int.toNat_natCast]

theorem Part.toNat_place_low (p : Part) (x : Int64) :
    (p.place (low x)).toNat = field p.width x.toInt <<< p.shift := by
  have hfits := p.fits
  rw [toNat_place, toNat_low (by omega)]

/-! ## Packed words -/

theorem toNat_ofABC (op : UInt8) (a b c : Int) :
    (ofABC op a b c).toNat =
      op.toNat % 0x80 * 0x2000000 + field 8 b * 0x20000 + field 9 c * 0x100 + field 8 a := by
  have ha := field_lt 8 a
  have hb := field_lt 8 b
  have hc := field_lt 9 c
  rw [ofABC, UInt32.toNat_ofNat']
  omega

theorem toNat_ofABx (op : UInt8) (a bx : Int) :
    (ofABx op a bx).toNat = op.toNat % 0x80 * 0x2000000 + field 17 bx * 0x100 + field 8 a := by
  have ha := field_lt 8 a
  have hbx := field_lt 17 bx
  rw [ofABx, UInt32.toNat_ofNat']
  omega

/-- The word whose parts are the low bits of an opcode and three integers. -/
def packABC (op : UInt8) (a b c : Int64) : Word :=
  Part.op.place op.toUInt32 ||| Part.b.place (low b) ||| Part.c.place (low c) |||
    Part.a.place (low a)

/-- The word whose parts are the low bits of an opcode and two integers. -/
def packABx (op : UInt8) (a bx : Int64) : Word :=
  Part.op.place op.toUInt32 ||| Part.bx.place (low bx) ||| Part.a.place (low a)

/-- The word with a branch offset, moved to where offsets are not negative; the sum wraps. -/
def packAsBx (op : UInt8) (a sbx : Int64) : Word := packABx op a (sbx + 0xFFFF)

theorem toNat_place_op (op : UInt8) :
    (Part.op.place op.toUInt32).toNat = (op.toNat % 2 ^ 7) <<< 25 := by
  rw [Part.toNat_place, UInt8.toNat_toUInt32]
  rfl

/-- The parts do not overlap, from the lowest up: joining them is adding them. -/
theorem packABC_eq (op : UInt8) (a b c : Int64) :
    packABC op a b c = ofABC op a.toInt b.toInt c.toInt := by
  have ha := field_lt 8 a.toInt
  have hb := field_lt 8 b.toInt
  have hc := field_lt 9 c.toInt
  have hcLow : field 9 c.toInt <<< 8 + field 8 a.toInt < 2 ^ 17 := by
    rw [Nat.shiftLeft_eq]
    omega
  have hbLow : field 8 b.toInt <<< 17 + (field 9 c.toInt <<< 8 + field 8 a.toInt) < 2 ^ 25 := by
    rw [Nat.shiftLeft_eq, Nat.shiftLeft_eq]
    omega
  apply UInt32.toNat_inj.mp
  calc (packABC op a b c).toNat
    _ = (op.toNat % 2 ^ 7) <<< 25 ||| (field 8 b.toInt <<< 17 |||
          (field 9 c.toInt <<< 8 ||| field 8 a.toInt)) := by
        rw [packABC, UInt32.toNat_or, UInt32.toNat_or, UInt32.toNat_or, toNat_place_op,
          Part.toNat_place_low, Part.toNat_place_low, Part.toNat_place_low, Nat.or_assoc, Nat.or_assoc]
        rfl
    _ = (op.toNat % 2 ^ 7) <<< 25 + (field 8 b.toInt <<< 17 +
          (field 9 c.toInt <<< 8 + field 8 a.toInt)) := by
        rw [← Nat.shiftLeft_add_eq_or_of_lt ha, ← Nat.shiftLeft_add_eq_or_of_lt hcLow,
          ← Nat.shiftLeft_add_eq_or_of_lt hbLow]
    _ = (ofABC op a.toInt b.toInt c.toInt).toNat := by
        rw [toNat_ofABC, Nat.shiftLeft_eq, Nat.shiftLeft_eq, Nat.shiftLeft_eq]
        omega

theorem packABx_eq (op : UInt8) (a bx : Int64) :
    packABx op a bx = ofABx op a.toInt bx.toInt := by
  have ha := field_lt 8 a.toInt
  have hbx := field_lt 17 bx.toInt
  have hLow : field 17 bx.toInt <<< 8 + field 8 a.toInt < 2 ^ 25 := by
    rw [Nat.shiftLeft_eq]
    omega
  apply UInt32.toNat_inj.mp
  calc (packABx op a bx).toNat
    _ = (op.toNat % 2 ^ 7) <<< 25 ||| (field 17 bx.toInt <<< 8 ||| field 8 a.toInt) := by
        rw [packABx, UInt32.toNat_or, UInt32.toNat_or, toNat_place_op, Part.toNat_place_low,
          Part.toNat_place_low, Nat.or_assoc]
        rfl
    _ = (op.toNat % 2 ^ 7) <<< 25 + (field 17 bx.toInt <<< 8 + field 8 a.toInt) := by
        rw [← Nat.shiftLeft_add_eq_or_of_lt ha, ← Nat.shiftLeft_add_eq_or_of_lt hLow]
    _ = (ofABx op a.toInt bx.toInt).toNat := by
        rw [toNat_ofABx, Nat.shiftLeft_eq, Nat.shiftLeft_eq]
        omega

theorem packAsBx_eq (op : UInt8) (a sbx : Int64) :
    packAsBx op a sbx = ofAsBx op a.toInt sbx.toInt := by
  have hfield : field 17 (sbx + 0xFFFF : Int64).toInt = field 17 (sbx.toInt + bias) := by
    rw [Int64.toInt_add, field_bmod (by decide)]
    rfl
  apply UInt32.toNat_inj.mp
  rw [packAsBx, packABx_eq, ofAsBx, toNat_ofABx, toNat_ofABx, hfield]

/-! ## Fields of words -/

theorem toNat_op (w : Word) : w.op.toNat = w.toNat / 0x2000000 := by
  have hlt := w.toNat_lt
  rw [op, UInt8.toNat_ofNat']
  omega

theorem op_lt (w : Word) : w.op.toNat < 0x80 := by
  have hlt := w.toNat_lt
  rw [toNat_op]
  omega

/-- Masks and shifts read the fields. -/
theorem read_eq (w : Word) :
    w.op = (Part.op.read w).toUInt8 ∧ w.a = (Part.a.read w).toNat ∧
      w.b = (Part.b.read w).toNat ∧ w.c = (Part.c.read w).toNat ∧ w.bx = (Part.bx.read w).toNat := by
  have hread (p : Part) : (p.read w).toNat = w.toNat / 2 ^ p.shift % 2 ^ p.width := p.toNat_read w
  refine ⟨UInt8.toNat_inj.mp ?_, ?_, (hread .b).symm, (hread .c).symm, (hread .bx).symm⟩
  · have hop : (Part.op.read w).toNat = w.toNat / 2 ^ 25 % 2 ^ 7 := hread .op
    have hlt := op_lt w
    rw [toNat_op] at hlt ⊢
    rw [UInt32.toNat_toUInt8, hop]
    omega
  · rw [hread, Word.a]
    exact congrArg (· % 0x100) (Nat.div_one _).symm

theorem bx_eq (w : Word) : w.bx = w.b * 0x200 + w.c := by
  unfold bx b c
  omega

/-- The fields of a word make up its number. -/
theorem toNat_eq (w : Word) :
    w.toNat = w.op.toNat * 0x2000000 + w.bx * 0x100 + w.a := by
  have hlt := w.toNat_lt
  rw [toNat_op]
  unfold bx a
  omega

theorem field_natCast {width n : Nat} (hn : n < 2 ^ width) : field width n = n := by
  rw [field]
  change ((n : Int) % (2 ^ width : Nat)).toNat = n
  rw [← Int.natCast_mod, Int.toNat_natCast, Nat.mod_eq_of_lt hn]

theorem natCast_field (width : Nat) (x : Int) :
    (field width x : Int) = x % (2 ^ width : Nat) := by
  have hpos : (0 : Int) < (2 ^ width : Nat) := by exact_mod_cast Nat.two_pow_pos width
  exact Int.toNat_of_nonneg (Int.emod_nonneg x hpos.ne')

theorem ofABC_fields (w : Word) : ofABC w.op w.a w.b w.c = w := by
  have hop := op_lt w
  have ha : field 8 w.a = w.a := field_natCast (by unfold a; omega)
  have hb : field 8 w.b = w.b := field_natCast (by unfold b; omega)
  have hc : field 9 w.c = w.c := field_natCast (by unfold c; omega)
  apply UInt32.toNat_inj.mp
  rw [toNat_ofABC, ha, hb, hc, toNat_eq w, bx_eq]
  omega

theorem ofABx_fields (w : Word) : ofABx w.op w.a w.bx = w := by
  have hop := op_lt w
  have ha : field 8 w.a = w.a := field_natCast (by unfold a; omega)
  have hbx : field 17 w.bx = w.bx := field_natCast (by unfold bx; omega)
  apply UInt32.toNat_inj.mp
  rw [toNat_ofABx, ha, hbx, toNat_eq w]
  omega

theorem ofAsBx_fields (w : Word) : ofAsBx w.op w.a w.sbx = w := by
  rw [ofAsBx, sbx, Int.sub_add_cancel, ofABx_fields]

/-! ## Fields of packed words -/

theorem fields_ofABC (op : UInt8) (a b c : Int) :
    (ofABC op a b c).op.toNat = op.toNat % 0x80 ∧ (ofABC op a b c).a = field 8 a ∧
      (ofABC op a b c).b = field 8 b ∧ (ofABC op a b c).c = field 9 c := by
  have ha := field_lt 8 a
  have hb := field_lt 8 b
  have hc := field_lt 9 c
  rw [toNat_op, Word.a, Word.b, Word.c, toNat_ofABC]
  omega

theorem fields_ofABx (op : UInt8) (a bx : Int) :
    (ofABx op a bx).op.toNat = op.toNat % 0x80 ∧ (ofABx op a bx).a = field 8 a ∧
      (ofABx op a bx).bx = field 17 bx := by
  have ha := field_lt 8 a
  have hbx := field_lt 17 bx
  rw [toNat_op, Word.a, Word.bx, toNat_ofABx]
  omega

/-- **A word is its fields.** Masks and shifts read the fields of a word and put words together, and
every bit belongs to the opcode or to one of A, B and C. Packing the fields of a word gives the word
again, in each of the three forms. A word packed from any opcode and any 64-bit integers has each field
as the low bits of what was packed into it: a negative integer or one that is too large does not reach
into another field. -/
theorem fields_partition (w : Word) (op : UInt8) (a b c x : Int64) :
    -- the runs of bits
    (∀ i : Fin 32, ([Part.op, Part.b, Part.c, Part.a].filter fun p =>
        p.mask.toNat.testBit i).length = 1) ∧
    (w.op = (Part.op.read w).toUInt8 ∧ w.a = (Part.a.read w).toNat ∧
      w.b = (Part.b.read w).toNat ∧ w.c = (Part.c.read w).toNat ∧ w.bx = (Part.bx.read w).toNat) ∧
    w.sbx = w.bx - 0xFFFF ∧
    (ofABC op a.toInt b.toInt c.toInt = packABC op a b c ∧
      ofABx op a.toInt x.toInt = packABx op a x ∧ ofAsBx op a.toInt x.toInt = packAsBx op a x) ∧
    -- the fields of a word
    (ofABC w.op w.a w.b w.c = w ∧ ofABx w.op w.a w.bx = w ∧ ofAsBx w.op w.a w.sbx = w) ∧
    -- the fields of packed words
    (let v := ofABC op a.toInt b.toInt c.toInt;
      v.op.toNat = op.toNat % 0x80 ∧ v.a = a.toInt % 0x100 ∧ v.b = b.toInt % 0x100 ∧
        v.c = c.toInt % 0x200) ∧
    (let v := ofABx op a.toInt x.toInt;
      v.op.toNat = op.toNat % 0x80 ∧ v.a = a.toInt % 0x100 ∧ v.bx = x.toInt % 0x20000) ∧
    (let v := ofAsBx op a.toInt x.toInt;
      v.op.toNat = op.toNat % 0x80 ∧ v.a = a.toInt % 0x100 ∧
        v.sbx = (x.toInt + 0xFFFF) % 0x20000 - 0xFFFF) := by
  have hmod {n width : Nat} {y : Int} (hn : n = field width y) : (n : Int) = y % (2 ^ width : Nat) :=
    hn ▸ natCast_field width y
  obtain ⟨hop, ha, hb, hc⟩ := fields_ofABC op a.toInt b.toInt c.toInt
  obtain ⟨hopWide, haWide, hbx⟩ := fields_ofABx op a.toInt x.toInt
  obtain ⟨hopOffset, haOffset, hoffset⟩ := fields_ofABx op a.toInt (x.toInt + bias)
  exact ⟨by decide, read_eq w, rfl,
    ⟨(packABC_eq op a b c).symm, (packABx_eq op a x).symm, (packAsBx_eq op a x).symm⟩,
    ⟨ofABC_fields w, ofABx_fields w, ofAsBx_fields w⟩,
    ⟨hop, hmod ha, hmod hb, hmod hc⟩, ⟨hopWide, hmod haWide, hmod hbx⟩,
    ⟨hopOffset, hmod haOffset, congrArg (· - bias) (hmod hoffset)⟩⟩

end HavokScript.Word
