import HavokScript.Number.Binary
import Mathlib.Algebra.Order.Ring.Rat
import Mathlib.Data.Rat.Cast.Order
import Mathlib.Order.Monotone.Basic
import Mathlib.Tactic.Ring

/-!
# Magnitudes

A bit pattern without its sign is a magnitude. The exponent field says how far the mantissa is shifted,
and where the mantissas of one field end those of the next one start, so that the next pattern is always
the next mantissa with the same shift (`Format.steps_succ`). Hence the order of the patterns is that of
the magnitudes (`Format.steps_strictMono`).
-/

namespace HavokScript

namespace Format

variable (f : Format) (b : Nat)

/-- The mantissa of a magnitude. -/
def mantissa : Nat :=
  if b < Nat.pow 2 f.fraction then b else Nat.pow 2 f.fraction + b % Nat.pow 2 f.fraction

/-- How far the mantissa is shifted against the least exponent. -/
def shift : Nat := b / Nat.pow 2 f.fraction - 1

/-- The magnitude, counted in the smallest magnitude above zero. -/
def steps : Nat := f.mantissa b * 2 ^ f.shift b

theorem fraction_pos : 0 < Nat.pow 2 f.fraction := Nat.two_pow_pos f.fraction

variable {f b}

theorem mantissa_of_lt (hb : b < Nat.pow 2 f.fraction) : f.mantissa b = b := if_pos hb

theorem shift_of_lt (hb : b < Nat.pow 2 f.fraction) : f.shift b = 0 := by
  rw [shift, Nat.div_eq_of_lt hb]

/-- A pattern taken apart into its fields. -/
theorem mantissa_of_fields {k r : Nat} (hr : r < Nat.pow 2 f.fraction) :
    f.mantissa ((k + 1) * Nat.pow 2 f.fraction + r) = Nat.pow 2 f.fraction + r := by
  have hge : Nat.pow 2 f.fraction ≤ (k + 1) * Nat.pow 2 f.fraction + r :=
    Nat.le_trans (Nat.le_mul_of_pos_left _ (Nat.succ_pos k)) (Nat.le_add_right _ r)
  rw [mantissa, if_neg (Nat.not_lt.mpr hge), Nat.mul_comm, Nat.mul_add_mod, Nat.mod_eq_of_lt hr]

theorem shift_of_fields {k r : Nat} (hr : r < Nat.pow 2 f.fraction) :
    f.shift ((k + 1) * Nat.pow 2 f.fraction + r) = k := by
  rw [shift, Nat.mul_comm, Nat.mul_add_div f.fraction_pos, Nat.div_eq_of_lt hr]
  rfl

/-- Every pattern is below the first shift or has fields. -/
theorem lt_or_fields (f : Format) (b : Nat) : b < Nat.pow 2 f.fraction ∨
    ∃ k r, r < Nat.pow 2 f.fraction ∧ b = (k + 1) * Nat.pow 2 f.fraction + r := by
  obtain hb | hb := Nat.lt_or_ge b (Nat.pow 2 f.fraction)
  · exact .inl hb
  · have hpos : 0 < b / Nat.pow 2 f.fraction := Nat.div_pos hb f.fraction_pos
    refine .inr ⟨b / Nat.pow 2 f.fraction - 1, b % Nat.pow 2 f.fraction,
      Nat.mod_lt _ f.fraction_pos, ?_⟩
    rw [Nat.sub_add_cancel hpos, Nat.div_add_mod']

theorem steps_of_lt (hb : b < Nat.pow 2 f.fraction) : f.steps b = b := by
  rw [steps, mantissa_of_lt hb, shift_of_lt hb, Nat.pow_zero, Nat.mul_one]

theorem steps_of_fields {k r : Nat} (hr : r < Nat.pow 2 f.fraction) :
    f.steps ((k + 1) * Nat.pow 2 f.fraction + r) = (Nat.pow 2 f.fraction + r) * 2 ^ k := by
  rw [steps, mantissa_of_fields hr, shift_of_fields hr]

/-- A mantissa may also be twice the smallest one, which is the first of the next shift. -/
theorem steps_of_le {k r : Nat} (hr : r ≤ Nat.pow 2 f.fraction) :
    f.steps ((k + 1) * Nat.pow 2 f.fraction + r) = (Nat.pow 2 f.fraction + r) * 2 ^ k := by
  obtain hr | rfl := Nat.lt_or_eq_of_le hr
  · exact steps_of_fields hr
  · have hnext : (k + 1) * Nat.pow 2 f.fraction + Nat.pow 2 f.fraction =
        (k + 1 + 1) * Nat.pow 2 f.fraction + 0 := by ring
    rw [hnext, steps_of_fields f.fraction_pos]
    ring

/-- The next pattern stands for the next mantissa. -/
theorem steps_succ (f : Format) (b : Nat) :
    f.steps (b + 1) = (f.mantissa b + 1) * 2 ^ f.shift b := by
  obtain hb | ⟨k, r, hr, rfl⟩ := f.lt_or_fields b
  · rw [mantissa_of_lt hb, shift_of_lt hb, Nat.pow_zero, Nat.mul_one]
    obtain hnext | hnext := Nat.lt_or_eq_of_le (Nat.succ_le_of_lt hb)
    · exact steps_of_lt hnext
    · have hfields : b + 1 = (0 + 1) * Nat.pow 2 f.fraction + 0 := by
        rw [Nat.zero_add, Nat.one_mul, Nat.add_zero]
        exact hnext
      refine (congrArg f.steps hfields).trans ((steps_of_fields f.fraction_pos).trans ?_)
      rw [Nat.pow_zero, Nat.mul_one, Nat.add_zero]
      exact hnext.symm
  · rw [Nat.add_assoc, steps_of_le hr, mantissa_of_fields hr, shift_of_fields hr, Nat.add_assoc]

theorem steps_strictMono (f : Format) : StrictMono f.steps := by
  refine strictMono_nat_of_lt_succ fun b => ?_
  rw [steps_succ, steps]
  exact Nat.mul_lt_mul_of_pos_right (Nat.lt_succ_self _) (Nat.two_pow_pos _)

theorem mantissa_mod_two (hf : 0 < f.fraction) (b : Nat) : f.mantissa b % 2 = b % 2 := by
  have heven : Nat.pow 2 f.fraction % 2 = 0 := by
    obtain ⟨n, hn⟩ := Nat.exists_eq_add_of_lt hf
    rw [hn]
    exact Nat.mul_mod_left _ _
  obtain hb | ⟨k, r, hr, rfl⟩ := f.lt_or_fields b
  · rw [mantissa_of_lt hb]
  · have hfields : (k + 1) * Nat.pow 2 f.fraction % 2 = 0 := by
      rw [Nat.mul_mod, heven, Nat.mul_zero]
    rw [mantissa_of_fields hr]
    omega

end Format

/-! ## Numbers of 64 bits -/

namespace Double

/-- The bit pattern without the sign. -/
def magnitude (x : Double) : Nat := x.bits.toNat % Format.double.signBit

/-- Whether the sign is set. -/
def isNegative (x : Double) : Bool := Format.double.isNegative x.bits.toNat

variable {x y : Double}

theorem exponentField_eq (x : Double) : Format.double.exponentField x.bits.toNat =
    x.magnitude / Nat.pow 2 Format.double.fraction :=
  (Nat.mod_mul_right_div_self x.bits.toNat (Nat.pow 2 52) (Nat.pow 2 11)).symm

theorem fractionField_eq (x : Double) : Format.double.fractionField x.bits.toNat =
    x.magnitude % Nat.pow 2 Format.double.fraction :=
  (Nat.mod_mod_of_dvd x.bits.toNat (Dvd.intro (Nat.pow 2 11) rfl)).symm

/-- A number below infinity is its sign, its mantissa and its shift. -/
theorem value_of_lt (hx : x.magnitude < Format.double.infinity) :
    x.value = .finite x.isNegative (Format.double.mantissa x.magnitude)
      (Format.double.least + Format.double.shift x.magnitude) := by
  have hspecial : x.magnitude / Nat.pow 2 Format.double.fraction ≠ Format.double.special :=
    Nat.ne_of_lt ((Nat.div_lt_iff_lt_mul (Format.fraction_pos _)).mpr hx)
  rw [value, Format.value, exponentField_eq, fractionField_eq, if_neg hspecial]
  obtain hb | hb := Nat.lt_or_ge x.magnitude (Nat.pow 2 Format.double.fraction)
  · rw [Format.mantissa_of_lt hb, Format.shift_of_lt hb, if_pos (Nat.div_eq_of_lt hb),
      Nat.mod_eq_of_lt hb]
    rfl
  · have hpos := Nat.div_pos hb (Format.fraction_pos _)
    rw [if_neg hpos.ne', Format.mantissa, if_neg (Nat.not_lt.mpr hb)]
    rfl

/-- A number is its sign and its magnitude. -/
theorem ext_magnitude (hsign : x.isNegative = y.isNegative) (h : x.magnitude = y.magnitude) :
    x = y := by
  have h63 : Format.double.signBit = 0x8000000000000000 := rfl
  simp only [isNegative, Format.isNegative, h63, decide_eq_decide] at hsign
  simp only [magnitude, h63] at h
  have hx := x.bits.toNat_lt
  have hy := y.bits.toNat_lt
  have hbits : x.bits.toNat = y.bits.toNat := by omega
  cases x
  cases y
  exact congrArg Double.mk (UInt64.toNat_inj.mp hbits)

end Double

/-! ## Rounded integers -/

namespace Format

variable {n : Nat}

theorem roundQuotient_cases (n d : Nat) :
    roundQuotient n d = n / d ∨ roundQuotient n d = n / d + 1 := by
  unfold roundQuotient
  dsimp only
  split_ifs
  · exact .inl rfl
  · exact .inr rfl
  · omega

/-- Only a multiple is its own quotient, scaled up again. -/
theorem roundQuotient_mul_eq_iff {d : Nat} (hd : 0 < d) :
    roundQuotient n d * d = n ↔ d ∣ n := by
  refine ⟨fun h => Dvd.intro_left _ h, fun h => ?_⟩
  have hzero : 2 * (n % d) < d := by
    rw [Nat.mod_eq_zero_of_dvd h]
    omega
  unfold roundQuotient
  rw [if_pos hzero, Nat.div_mul_cancel h]

/-- The mantissa of a positive integer, rounded to 53 bits. -/
def significand (n : Nat) : Nat :=
  if n.log2 ≤ 52 then n * 2 ^ (52 - n.log2) else roundQuotient n (2 ^ (n.log2 - 52))

theorem significand_bounds (hn : n ≠ 0) : 2 ^ 52 ≤ significand n ∧ significand n ≤ 2 ^ 53 := by
  have hlow : 2 ^ n.log2 ≤ n := Nat.log2_self_le hn
  have hhigh : n < 2 ^ (n.log2 + 1) := Nat.lt_log2_self
  unfold significand
  split
  · next hl =>
    have h52 : 2 ^ n.log2 * 2 ^ (52 - n.log2) = 2 ^ 52 := by
      rw [← Nat.pow_add, Nat.add_sub_cancel' hl]
    have h53 : 2 ^ (n.log2 + 1) * 2 ^ (52 - n.log2) = 2 ^ 53 := by
      rw [Nat.pow_succ, Nat.mul_right_comm, h52]
      rfl
    rw [← h52, ← h53]
    exact ⟨Nat.mul_le_mul_right _ hlow, Nat.mul_le_mul_right _ hhigh.le⟩
  · next hl =>
    have hd := Nat.two_pow_pos (n.log2 - 52)
    have h52 : 2 ^ 52 * 2 ^ (n.log2 - 52) = 2 ^ n.log2 := by
      rw [← Nat.pow_add, Nat.add_sub_cancel' (by omega)]
    have h53 : 2 ^ 53 * 2 ^ (n.log2 - 52) = 2 ^ (n.log2 + 1) := by
      rw [Nat.pow_succ 2 n.log2, ← h52]
      ring
    have hquotient : 2 ^ 52 ≤ n / 2 ^ (n.log2 - 52) :=
      (Nat.le_div_iff_mul_le hd).mpr (h52.trans_le hlow)
    have hless : n / 2 ^ (n.log2 - 52) < 2 ^ 53 :=
      (Nat.div_lt_iff_lt_mul hd).mpr (hhigh.trans_eq h53.symm)
    obtain h | h := roundQuotient_cases n (2 ^ (n.log2 - 52)) <;> rw [h]
    · exact ⟨hquotient, hless.le⟩
    · exact ⟨Nat.le_succ_of_le hquotient, hless⟩

/-- The pattern nearest to a positive integer. -/
theorem round_integer (hn : n ≠ 0) (hl : n.log2 ≤ 63) :
    Format.double.round n 0 = (n.log2 + 1022) * 2 ^ 52 + significand n := by
  have hle := (significand_bounds hn).2
  have hexponent : max (0 + ((n.log2 : Int) - Format.double.fraction)) Format.double.least =
      n.log2 - 52 := by
    show max (0 + ((n.log2 : Int) - 52)) (-1074) = _
    omega
  have hscaled : (if (n.log2 : Int) - 52 ≤ 0 then n * Nat.pow 2 (0 - ((n.log2 : Int) - 52)).toNat
      else roundQuotient n (Nat.pow 2 ((n.log2 : Int) - 52 - 0).toNat)) = significand n := by
    unfold significand
    by_cases h : n.log2 ≤ 52
    · rw [if_pos (by omega), if_pos h]
      congr 2
      omega
    · rw [if_neg (by omega), if_neg h]
      congr 2
      omega
  have hshift : ((n.log2 : Int) - 52 - Format.double.least).toNat = n.log2 + 1022 := by
    show ((n.log2 : Int) - 52 - (-1074)).toNat = _
    omega
  have hinfinity : Format.double.infinity = 2047 * 2 ^ 52 := rfl
  unfold round
  rw [if_neg hn]
  dsimp only
  rw [hexponent, hscaled, hshift, hinfinity]
  refine Nat.min_eq_left ?_
  show (n.log2 + 1022) * 2 ^ 52 + significand n ≤ _
  omega

/-- An integer is rounded to its significand. -/
theorem steps_round_integer (hn : n ≠ 0) (hl : n.log2 ≤ 63) :
    Format.double.steps (Format.double.round n 0) = significand n * 2 ^ (n.log2 + 1022) := by
  obtain ⟨hlow, hhigh⟩ := significand_bounds hn
  obtain ⟨r, hr⟩ := Nat.exists_eq_add_of_le hlow
  have hfields : (n.log2 + 1022) * 2 ^ 52 + significand n =
      (n.log2 + 1022 + 1) * Nat.pow 2 Format.double.fraction + r := by
    show _ = (n.log2 + 1022 + 1) * 2 ^ 52 + r
    omega
  rw [round_integer hn hl, hfields, steps_of_le ?_, hr]
  · rfl
  · show r ≤ 2 ^ 52
    omega

/-- No digit is lost exactly if all of them but zeros at the end fit 53 bits. -/
theorem significand_exact_iff (hn : n ≠ 0) (k : Nat) :
    significand n * 2 ^ (n.log2 + k) = n * 2 ^ (52 + k) ↔ ∃ m j, n = m * 2 ^ j ∧ m < 2 ^ 53 := by
  have hlow : 2 ^ n.log2 ≤ n := Nat.log2_self_le hn
  have hhigh : n < 2 ^ (n.log2 + 1) := Nat.lt_log2_self
  by_cases hl : n.log2 ≤ 52
  · have hexact : significand n * 2 ^ (n.log2 + k) = n * 2 ^ (52 + k) := by
      rw [significand, if_pos hl, Nat.mul_assoc, ← Nat.pow_add, ← Nat.add_assoc,
        Nat.sub_add_cancel hl]
    refine iff_of_true hexact ⟨n, 0, (Nat.mul_one n).symm, ?_⟩
    exact Nat.lt_of_lt_of_le hhigh (Nat.pow_le_pow_right (by decide) (by omega))
  · have hexponent : n.log2 + k = n.log2 - 52 + (52 + k) := by omega
    have hd := Nat.two_pow_pos (n.log2 - 52)
    rw [significand, if_neg hl, hexponent, Nat.pow_add, ← Nat.mul_assoc,
      Nat.mul_left_inj (Nat.two_pow_pos _).ne', roundQuotient_mul_eq_iff hd]
    constructor
    · rintro ⟨m, hm⟩
      refine ⟨m, n.log2 - 52, hm.trans (Nat.mul_comm _ _), ?_⟩
      have hless : m * 2 ^ (n.log2 - 52) < 2 ^ 53 * 2 ^ (n.log2 - 52) := by
        rw [Nat.mul_comm, ← hm, ← Nat.pow_add]
        exact hhigh.trans_eq (congrArg _ (by omega))
      exact Nat.lt_of_mul_lt_mul_right hless
    · rintro ⟨m, j, hm, hless⟩
      have hj : n.log2 < 53 + j := by
        refine (Nat.pow_lt_pow_iff_right (by decide : 1 < 2)).mp (hlow.trans_lt ?_)
        rw [Nat.pow_add, hm]
        exact Nat.mul_lt_mul_of_pos_right hless (Nat.two_pow_pos j)
      have hdvd : 2 ^ (n.log2 - 52) ∣ m * 2 ^ j :=
        Dvd.dvd.mul_left (Nat.pow_dvd_pow 2 (by omega)) m
      rwa [← hm] at hdvd

end Format

namespace Double

/-- The number is finite, and stands for the rational number. -/
def Denotes (x : Double) (r : ℚ) : Prop :=
  ∃ negative m e, x.value = .finite negative m e ∧
    r = (if negative then -1 else 1) * ((m : ℚ) * 2 ^ e)

variable {x : Double} {i : Int}

/-- The magnitude of a finite number, counted in steps of the smallest one. -/
theorem denotes_iff (hx : x.magnitude < Format.double.infinity) (r : ℚ) :
    x.Denotes r ↔ r = (if x.isNegative then -1 else 1) *
      ((Format.double.steps x.magnitude : ℚ) * 2 ^ Format.double.least) := by
  have hvalue := value_of_lt hx
  have hsteps : (Format.double.mantissa x.magnitude : ℚ) *
      2 ^ (Format.double.least + Format.double.shift x.magnitude) =
      (Format.double.steps x.magnitude : ℚ) * 2 ^ Format.double.least := by
    rw [Format.steps, zpow_add₀ (by norm_num), zpow_natCast]
    push_cast
    ring
  constructor
  · rintro ⟨negative, m, e, hfinite, rfl⟩
    rw [hvalue] at hfinite
    cases hfinite
    rw [hsteps]
  · rintro rfl
    exact ⟨_, _, _, hvalue, by rw [hsteps]⟩

theorem Denotes.unique {r s : ℚ} (hr : x.Denotes r) (hs : x.Denotes s) : r = s := by
  obtain ⟨negative, m, e, hvalue, rfl⟩ := hr
  obtain ⟨_, _, _, hvalue', rfl⟩ := hs
  rw [hvalue] at hvalue'
  cases hvalue'
  rfl

theorem log2_le_of_natAbs (hi : i.natAbs ≤ 2 ^ 63) : i.natAbs.log2 ≤ 63 := by
  by_cases hzero : i.natAbs = 0
  · rw [hzero]
    decide
  · exact Nat.le_of_lt_succ ((Nat.log2_lt hzero).mpr (Nat.lt_of_le_of_lt hi (by decide)))

theorem round_integer_lt (hi : i.natAbs ≤ 2 ^ 63) :
    Format.double.round i.natAbs 0 < Format.double.infinity := by
  by_cases hzero : i.natAbs = 0
  · rw [hzero]
    decide
  · have hl := log2_le_of_natAbs hi
    have hle := (Format.significand_bounds hzero).2
    have hinfinity : Format.double.infinity = 2047 * 2 ^ 52 := rfl
    rw [Format.round_integer hzero hl, hinfinity]
    omega

theorem toNat_bits_ofInt (hi : i.natAbs ≤ 2 ^ 63) : (ofInt i).bits.toNat =
    Format.double.sign (i < 0) + Format.double.round i.natAbs 0 := by
  have hlt : Format.double.round i.natAbs 0 < 0x7FF0000000000000 := round_integer_lt hi
  have hsign : ∀ b, Format.double.sign b ≤ 0x8000000000000000 := by decide
  have hsum := hsign (i < 0)
  show (Format.double.sign (i < 0) + Format.double.round i.natAbs 0).toUInt64.toNat = _
  rw [Nat.toUInt64_eq, UInt64.toNat_ofNat_of_lt']
  show _ < 2 ^ 64
  omega

theorem magnitude_ofInt (hi : i.natAbs ≤ 2 ^ 63) :
    (ofInt i).magnitude = Format.double.round i.natAbs 0 := by
  have hlt : Format.double.round i.natAbs 0 < 0x7FF0000000000000 := round_integer_lt hi
  have hsignBit : Format.double.signBit = 0x8000000000000000 := rfl
  rw [magnitude, toNat_bits_ofInt hi, Format.sign, hsignBit]
  split <;> omega

theorem ofInt_finite (hi : i.natAbs ≤ 2 ^ 63) :
    (ofInt i).magnitude < Format.double.infinity := by
  rw [magnitude_ofInt hi]
  exact round_integer_lt hi

theorem isNegative_ofInt (hi : i.natAbs ≤ 2 ^ 63) : (ofInt i).isNegative = decide (i < 0) := by
  have hlt : Format.double.round i.natAbs 0 < 0x7FF0000000000000 := round_integer_lt hi
  have hsignBit : Format.double.signBit = 0x8000000000000000 := rfl
  rw [isNegative, Format.isNegative, toNat_bits_ofInt hi, Format.sign, hsignBit]
  by_cases hneg : i < 0
  · rw [if_pos (decide_eq_true hneg), decide_eq_decide]
    exact iff_of_true (by omega) hneg
  · rw [if_neg (by simpa using hneg), decide_eq_decide]
    exact iff_of_false (by omega) hneg

/-- The binary digits of the integer, but zeros at the end, fit the 53 bits of a number. -/
def Exact (i : Int) : Prop := ∃ m k : Nat, i.natAbs = m * 2 ^ k ∧ m < 2 ^ 53

theorem exact_of_le (hi : i.natAbs ≤ 2 ^ 53) : Exact i := by
  obtain hless | heq := Nat.lt_or_eq_of_le hi
  · exact ⟨i.natAbs, 0, (Nat.mul_one _).symm, hless⟩
  · exact ⟨1, 53, heq.trans (Nat.one_mul _).symm, by decide⟩

/-- The number nearest to an integer of 64 bits is the integer itself exactly if it fits. -/
theorem ofInt_denotes_iff (hi : i.natAbs ≤ 2 ^ 63) : (ofInt i).Denotes i ↔ Exact i := by
  have hsign : (i : ℚ) = (if decide (i < 0) then -1 else 1) * (i.natAbs : ℚ) := by
    by_cases hneg : i < 0
    · rw [if_pos (decide_eq_true hneg), Nat.cast_natAbs, abs_of_neg hneg]
      push_cast
      ring
    · rw [if_neg (by simpa using hneg), Nat.cast_natAbs, abs_of_nonneg (by omega), one_mul]
  obtain ⟨unit, hunit, hpos⟩ : ∃ unit : Nat, unit = 2 ^ (52 + 1022) ∧ 0 < unit :=
    ⟨_, rfl, Nat.two_pow_pos _⟩
  have hleast : (2 : ℚ) ^ Format.double.least = (unit : ℚ)⁻¹ := by
    rw [hunit, Nat.cast_pow, ← zpow_natCast, ← zpow_neg]
    rfl
  have hsteps : (ofInt i).Denotes i ↔
      Format.double.steps (Format.double.round i.natAbs 0) = i.natAbs * unit := by
    have hone : (if decide (i < 0) then -1 else 1 : ℚ) ≠ 0 := by
      split <;> norm_num
    rw [denotes_iff (ofInt_finite hi), isNegative_ofInt hi, magnitude_ofInt hi, hsign, mul_right_inj' hone,
      hleast, eq_mul_inv_iff_mul_eq₀ (Nat.cast_ne_zero.mpr hpos.ne'), eq_comm]
    exact_mod_cast Iff.rfl
  rw [hsteps, hunit, Exact]
  by_cases hzero : i.natAbs = 0
  · rw [hzero, Nat.zero_mul]
    exact iff_of_true rfl ⟨0, 0, rfl, by decide⟩
  · rw [Format.steps_round_integer hzero (log2_le_of_natAbs hi),
      Format.significand_exact_iff hzero]

end Double

end HavokScript
