import HavokScript.Proofs.Text.Decimal
import Mathlib.Algebra.Order.Field.Rat
import Mathlib.Data.List.TakeWhile
import Mathlib.Tactic.NormNum
import Mathlib.Tactic.Ring

/-!
# Reading decimal texts

`Decimal.readMagnitude` reads the text of a number without its sign: digits with a point, and a power of
ten. Whether digits are written positionally or with an exponent, they read back as the number they
stand for (`Decimal.readMagnitude_layout`).
-/

namespace HavokScript

namespace Decimal

/-! ## Digits as a number -/

/-- The number with the given digits. -/
def number (ds : List Nat) : Nat := ds.foldl (fun v d => v * 10 + d) 0

theorem foldl_replicate_zero (v k : Nat) :
    (List.replicate k 0).foldl (fun v d => v * 10 + d) v = v * 10 ^ k := by
  induction k generalizing v with
  | zero => rw [List.replicate_zero, List.foldl_nil, Nat.pow_zero, Nat.mul_one]
  | succ k ih => rw [List.replicate_succ, List.foldl_cons, ih, Nat.add_zero, Nat.pow_succ']; ring

theorem number_append_zeros (ds : List Nat) (k : Nat) :
    number (ds ++ List.replicate k 0) = number ds * 10 ^ k := by
  rw [number, List.foldl_append, foldl_replicate_zero, number]

theorem number_zeros_append (k : Nat) (ds : List Nat) :
    number (List.replicate k 0 ++ ds) = number ds := by
  rw [number, List.foldl_append, foldl_replicate_zero, Nat.zero_mul, number]

theorem number_digits (n : Nat) : number (Numeral.digits 10 n) = n := by
  rw [number, Numeral.digits, Numeral.foldl_digitsAux (by decide) (Nat.lt_succ_self n)]
  rfl

/-- The digits are decimal. -/
theorem ofDigits_characters {ds : List Nat} (hds : ∀ d ∈ ds, d < 10) :
    Numeral.ofDigits 10 (characters ds) = number ds :=
  Numeral.ofDigits_map_upperDigit 10 (fun d hd => Nat.lt_trans (hds d hd) (by decide)) 0

theorem characters_append (xs ys : List Nat) :
    characters (xs ++ ys) = characters xs ++ characters ys := List.map_append

theorem characters_zeros (k : Nat) : characters (List.replicate k 0) = List.replicate k 48 := by
  rw [characters, List.map_replicate]
  rfl

theorem notMem_characters {b : UInt8} (hb : Numeral.isDigit b = false) {ds : List Nat}
    (hds : ∀ d ∈ ds, d < 10) : b ∉ characters ds := by
  intro hmem
  obtain ⟨d, hd, rfl⟩ := List.mem_map.mp hmem
  rw [Numeral.isDigit_upperDigit (hds d hd)] at hb
  cases hb

/-- The value of digits with a place. -/
def Digits.value (d : Digits) : ℚ := number d.digits * 10 ^ (d.place + 1 - d.digits.length)

/-- Zeros at the end are left out, and the place of the first digit stays. -/
theorem Digits.value_ofScaled (c : Nat) (place : Int) :
    (Digits.ofScaled c place).value = c * 10 ^ place := by
  let ds := Numeral.digits 10 c
  let kept := (ds.reverse.dropWhile (· = 0)).reverse
  let zeros := ds.reverse.takeWhile (· = 0)
  have hzeros : zeros = List.replicate zeros.length 0 :=
    List.eq_replicate_iff.mpr ⟨rfl, fun d hd => by
      simpa using List.all_eq_true.mp List.all_takeWhile d hd⟩
  have hsplit : ds = kept ++ List.replicate zeros.length 0 := by
    rw [← List.reverse_replicate, ← hzeros, ← List.reverse_append,
      List.takeWhile_append_dropWhile, List.reverse_reverse]
  have hnumber : number kept * 10 ^ zeros.length = c := by
    rw [← number_append_zeros, ← hsplit, number_digits]
  have hlength : ds.length = kept.length + zeros.length := by
    conv_lhs => rw [hsplit, List.length_append, List.length_replicate]
  show (number kept : ℚ) * 10 ^ (place + ds.length - 1 + 1 - kept.length) = c * 10 ^ place
  have hplace : place + ds.length - 1 + 1 - kept.length = zeros.length + place := by omega
  rw [hplace, zpow_add₀ (by norm_num), zpow_natCast, ← mul_assoc, ← hnumber]
  push_cast
  rfl

/-! ## Reading -/

/-- The byte of a decimal point. -/
def point : UInt8 := 46

/-- The byte in front of a power of ten. -/
def exponentMark : UInt8 := 101

/-- The byte of a plus sign. -/
def plus : UInt8 := 43

/-- The number that digits with a decimal point stand for. -/
def readPoint (s : Bytes) : ℚ :=
  let fraction := (s.dropWhile (· != point)).tail
  Numeral.ofDigits 10 (s.takeWhile (· != point) ++ fraction) * 10 ^ (-(fraction.length : Int))

/-- An exponent with its sign. -/
def readExponent : Bytes → Int
  | [] => 0
  | b :: bs => if b = plus then Numeral.ofDigits 10 bs else Numeral.readInt (b :: bs)

/-- The number that a text without a sign stands for. -/
def readMagnitude (s : Bytes) : ℚ :=
  readPoint (s.takeWhile (· != exponentMark)) *
    10 ^ readExponent (s.dropWhile (· != exponentMark)).tail

section

variable {b : UInt8} {s t : Bytes}

theorem bne_of_notMem (hs : b ∉ s) : ∀ c ∈ s, (c != b) = true := by
  intro c hc
  rw [bne_iff_ne]
  rintro rfl
  exact hs hc

theorem takeWhile_of_notMem (hs : b ∉ s) : s.takeWhile (· != b) = s :=
  List.takeWhile_eq_self_iff.mpr (bne_of_notMem hs)

theorem takeWhile_append_cons (hs : b ∉ s) (t : Bytes) :
    (s ++ b :: t).takeWhile (· != b) = s := by
  rw [List.takeWhile_append_of_pos (bne_of_notMem hs), List.takeWhile_cons_of_neg (by simp),
    List.append_nil]

theorem dropWhile_of_notMem (hs : b ∉ s) : s.dropWhile (· != b) = [] :=
  List.dropWhile_eq_nil_iff.mpr (bne_of_notMem hs)

theorem dropWhile_append_cons (hs : b ∉ s) (t : Bytes) :
    (s ++ b :: t).dropWhile (· != b) = b :: t := by
  rw [List.dropWhile_append_of_pos (bne_of_notMem hs), List.dropWhile_cons_of_neg (by simp)]

theorem readMagnitude_of_notMem (hs : exponentMark ∉ s) : readMagnitude s = readPoint s := by
  rw [readMagnitude, takeWhile_of_notMem hs, dropWhile_of_notMem hs, List.tail_nil, readExponent,
    zpow_zero, mul_one]

theorem readMagnitude_exponent (hs : exponentMark ∉ s) (t : Bytes) :
    readMagnitude (s ++ exponentMark :: t) = readPoint s * 10 ^ readExponent t := by
  rw [readMagnitude, takeWhile_append_cons hs, dropWhile_append_cons hs, List.tail_cons]

end

section

variable {xs ys : List Nat}

theorem readPoint_characters (hxs : ∀ d ∈ xs, d < 10) (hys : ∀ d ∈ ys, d < 10) :
    readPoint (characters xs ++ point :: characters ys) =
      number (xs ++ ys) * 10 ^ (-(ys.length : Int)) := by
  have hpoint : point ∉ characters xs := notMem_characters rfl hxs
  rw [readPoint, takeWhile_append_cons hpoint, dropWhile_append_cons hpoint, List.tail_cons,
    ← characters_append, ofDigits_characters (List.forall_mem_append.mpr ⟨hxs, hys⟩), characters,
    List.length_map]

/-- The digits behind the point are counted against the power of ten. -/
theorem readPoint_fractionPart (hxs : ∀ d ∈ xs, d < 10) (hys : ∀ d ∈ ys, d < 10) :
    readPoint (characters xs ++ fractionPart ys) =
      number (xs ++ ys) * 10 ^ (-(ys.length : Int)) := by
  cases ys with
  | nil =>
    have hpoint : point ∉ characters xs := notMem_characters rfl hxs
    have hnone : fractionPart [] = [] := rfl
    rw [hnone, List.append_nil, List.append_nil, readPoint, takeWhile_of_notMem hpoint,
      dropWhile_of_notMem hpoint, List.tail_nil, List.append_nil, ofDigits_characters hxs]
    rfl
  | cons y ys => exact readPoint_characters hxs hys

theorem exponentMark_notMem (hxs : ∀ d ∈ xs, d < 10) (hys : ∀ d ∈ ys, d < 10) :
    exponentMark ∉ characters xs ++ fractionPart ys := by
  refine List.not_mem_append (notMem_characters rfl hxs) ?_
  unfold fractionPart
  split
  · exact List.not_mem_nil
  · exact List.not_mem_append (by decide) (notMem_characters rfl hys)

theorem readExponent_signed (place : Int) : readExponent
    ((if place < 0 then utf8 "-" else utf8 "+") ++
      Numeral.zeroPad 2 (Numeral.nat place.natAbs)) = place := by
  have hdigits : Numeral.ofDigits 10 (Numeral.zeroPad 2 (Numeral.nat place.natAbs)) =
      place.natAbs := by
    rw [Numeral.ofDigits_zeroPad, Numeral.ofDigits_nat]
  generalize Numeral.zeroPad 2 (Numeral.nat place.natAbs) = text at hdigits ⊢
  split
  · show -(Numeral.ofDigits 10 text : Int) = place
    omega
  · show (Numeral.ofDigits 10 text : Int) = place
    omega

end

variable {d : Digits}

theorem readMagnitude_scientific (hd : d.IsDecimal) : readMagnitude (scientific d) = d.value := by
  have hfirst : ∀ x ∈ d.digits.take 1, x < 10 := fun x hx => hd x (List.mem_of_mem_take hx)
  have hrest : ∀ x ∈ d.digits.drop 1, x < 10 := fun x hx => hd x (List.mem_of_mem_drop hx)
  have htext : scientific d = characters (d.digits.take 1) ++ fractionPart (d.digits.drop 1) ++
      exponentMark :: ((if d.place < 0 then utf8 "-" else utf8 "+") ++
        Numeral.zeroPad 2 (Numeral.nat d.place.natAbs)) := by
    rw [scientific, List.append_assoc _ _ (Numeral.zeroPad _ _), List.append_assoc _ (utf8 "e")]
    rfl
  rw [htext, readMagnitude_exponent (exponentMark_notMem hfirst hrest), readExponent_signed,
    readPoint_fractionPart hfirst hrest, List.take_append_drop, mul_assoc,
    ← zpow_add₀ (by norm_num), Digits.value]
  cases hdigits : d.digits with
  | nil => simp [number]
  | cons x xs =>
    congr 2
    simp
    ring

theorem readMagnitude_positional (hd : d.IsDecimal) : readMagnitude (positional d) = d.value := by
  have hzeros (k : Nat) : ∀ x ∈ List.replicate k 0, x < 10 := fun x hx => by
    rw [List.eq_of_mem_replicate hx]
    decide
  unfold positional
  split
  · next hplace =>
    have hzero : ∀ x ∈ [0], x < 10 := by decide
    have hrest := List.forall_mem_append.mpr ⟨hzeros (d.place.natAbs - 1), hd⟩
    have htext : utf8 "0." ++ List.replicate (d.place.natAbs - 1) 48 ++ characters d.digits =
        characters [0] ++ point :: characters (List.replicate (d.place.natAbs - 1) 0 ++ d.digits) := by
      rw [characters_append, characters_zeros, List.append_assoc]
      rfl
    have hmark : exponentMark ∉ characters [0] ++
        point :: characters (List.replicate (d.place.natAbs - 1) 0 ++ d.digits) :=
      List.not_mem_append (by decide)
        (List.not_mem_cons_of_ne_of_not_mem (by decide) (notMem_characters rfl hrest))
    rw [htext, readMagnitude_of_notMem hmark, readPoint_characters hzero hrest, ← List.append_assoc,
      List.singleton_append, ← List.replicate_succ, number_zeros_append, Digits.value, List.length_append,
      List.length_replicate]
    congr 2
    omega
  · next hplace =>
    have hwhole := List.forall_mem_append.mpr
      ⟨fun x hx => hd x (List.mem_of_mem_take (i := d.place.toNat + 1) hx),
        hzeros (d.place.toNat + 1 - d.digits.length)⟩
    have hrest : ∀ x ∈ d.digits.drop (d.place.toNat + 1), x < 10 := fun x hx =>
      hd x (List.mem_of_mem_drop hx)
    dsimp only
    rw [← characters_zeros, ← characters_append,
      readMagnitude_of_notMem (exponentMark_notMem hwhole hrest),
      readPoint_fractionPart hwhole hrest, Digits.value]
    obtain hlength | hlength := Nat.le_total d.digits.length (d.place.toNat + 1)
    · -- The digits end in front of the point.
      rw [List.drop_of_length_le hlength, List.take_of_length_le hlength, List.append_nil,
        number_append_zeros, List.length_nil, Nat.cast_mul, Nat.cast_pow, mul_assoc,
        ← zpow_natCast, Nat.cast_ofNat, ← zpow_add₀ (by norm_num)]
      congr 2
      omega
    · rw [Nat.sub_eq_zero_of_le hlength, List.replicate_zero, List.append_nil,
        List.take_append_drop, List.length_drop]
      congr 2
      omega

/-- The text of digits reads back as what they stand for. -/
theorem readMagnitude_layout (hd : d.IsDecimal) : readMagnitude (layout d) = d.value := by
  unfold layout
  split
  · exact readMagnitude_scientific hd
  · exact readMagnitude_positional hd

section

variable {rest : Bytes} (hrest : rest.head? ≠ some Numeral.minus)

include hrest

theorem head_characters {ds : List Nat} (hds : ∀ x ∈ ds, x < 10) :
    (characters ds ++ rest).head? ≠ some Numeral.minus := by
  cases ds with
  | nil => exact hrest
  | cons x xs =>
    intro hfirst
    have hminus := Numeral.isDigit_upperDigit (hds x List.mem_cons_self)
    rw [Option.some.inj hfirst] at hminus
    cases hminus

theorem head_fractionPart (ds : List Nat) :
    (fractionPart ds ++ rest).head? ≠ some Numeral.minus := by
  unfold fractionPart
  split
  · exact hrest
  · exact fun hfirst => by cases hfirst

end

/-- The text of digits does not start with a sign. -/
theorem layout_head (hd : d.IsDecimal) : (layout d).head? ≠ some Numeral.minus := by
  have htake (n : Nat) : ∀ x ∈ d.digits.take n, x < 10 := fun x hx => hd x (List.mem_of_mem_take hx)
  unfold layout scientific positional
  split
  · have hmark (rest : Bytes) : (utf8 "e" ++ rest).head? ≠ some Numeral.minus :=
      fun hfirst => by cases hfirst
    simp only [List.append_assoc]
    exact head_characters (head_fractionPart (hmark _) _) (htake _)
  · split
    · exact fun hfirst => by cases hfirst
    · have hzeros : List.replicate (d.place.toNat + 1 - d.digits.length) 48 =
          characters (List.replicate (d.place.toNat + 1 - d.digits.length) 0) :=
        (characters_zeros _).symm
      dsimp only
      rw [hzeros, List.append_assoc, ← List.append_nil (fractionPart _)]
      refine head_characters (head_characters (head_fractionPart (by decide) _) ?_) (htake _)
      intro x hx
      rw [List.eq_of_mem_replicate hx]
      decide

end Decimal

end HavokScript
