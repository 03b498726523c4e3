import HavokScript.Proofs.Number.Magnitudes
import HavokScript.Proofs.Text.Layout

/-!
# The shortest text of a number

Each finite number has an interval of reals around it that reaches half way to its neighbours, and the
digits that are written for it stand for a real of its interval: the search for them goes down to places
at which the number itself can be written, and the fuel suffices for all numbers of 64 bits
(`Decimal.exists_read`). The intervals of two numbers have no real in common, as of two that meet only
one has its ends (`Decimal.Interval.magnitude_unique`). So the text of a finite number determines it
(`Decimal.ofDouble_inj`).
-/

namespace HavokScript

theorem Numeral.length_digitsAux_le {base : Nat} (hbase : 1 < base) {n k : Nat} (hk : 0 < k)
    (hn : n < base ^ k) (fuel : Nat) (acc : List Nat) :
    (digitsAux base fuel n acc).length ≤ k + acc.length := by
  induction fuel generalizing n k acc with
  | zero => exact Nat.le_add_left _ _
  | succ fuel ih =>
    rw [digitsAux]
    split
    · rw [List.length_cons]
      omega
    · next hlast =>
      obtain ⟨k, rfl⟩ := Nat.exists_eq_succ_of_ne_zero hk.ne'
      have hrest : n / base < base ^ k := by
        rwa [Nat.div_lt_iff_lt_mul (by omega), ← Nat.pow_succ]
      have hpos : 0 < k := Nat.pos_of_ne_zero fun hzero => hlast (by simpa [hzero] using hn)
      have hlength := ih hpos hrest (n % base :: acc)
      rw [List.length_cons] at hlength
      omega

theorem Numeral.length_digits_le {base : Nat} (hbase : 1 < base) {n k : Nat} (hk : 0 < k)
    (hn : n < base ^ k) : (digits base n).length ≤ k :=
  length_digitsAux_le hbase hk hn (n + 1) []

namespace Decimal

/-! ## The interval of a number -/

namespace Interval

/-- The number lies in the interval. -/
def Has (i : Interval) (r : ℚ) : Prop :=
  if i.closed then i.low * 2 ^ i.unit ≤ r ∧ r ≤ i.high * 2 ^ i.unit
  else i.low * 2 ^ i.unit < r ∧ r < i.high * 2 ^ i.unit

theorem zpow_mul_pow_toNat {a : ℚ} (ha : a ≠ 0) (z : Int) :
    a ^ z * a ^ (-z).toNat = a ^ z.toNat := by
  rw [← zpow_natCast, ← zpow_natCast, ← zpow_add₀ ha]
  congr 1
  omega

theorem gridScale_mul (place unit : Int) :
    (gridScale place unit : ℚ) * 2 ^ unit = 10 ^ place * unitScale place unit := by
  have hten := zpow_mul_pow_toNat (a := 10) (by norm_num) place
  have htwo := zpow_mul_pow_toNat (a := 2) (by norm_num) unit
  have hgrid : (gridScale place unit : ℚ) = 10 ^ place.toNat * 2 ^ (-unit).toNat := by
    show ((10 ^ place.toNat * 2 ^ (-unit).toNat : Nat) : ℚ) = _
    push_cast
    rfl
  have hunit : (unitScale place unit : ℚ) = 10 ^ (-place).toNat * 2 ^ unit.toNat := by
    show ((10 ^ (-place).toNat * 2 ^ unit.toNat : Nat) : ℚ) = _
    push_cast
    rfl
  rw [hgrid, hunit, ← hten, ← htwo]
  ring

variable {i : Interval} {place : Int} {c : Nat}

/-- The integer arithmetic decides whether a grid point lies in the interval. -/
theorem contains_iff : i.contains place c = true ↔ i.Has (c * 10 ^ place) := by
  have hscale := gridScale_mul place i.unit
  have hpos : (0 : ℚ) < unitScale place i.unit :=
    Nat.cast_pos.mpr (Nat.mul_pos (Nat.pow_pos (by decide)) (Nat.pow_pos (by decide)))
  have htwo : (0 : ℚ) < 2 ^ i.unit := zpow_pos (by norm_num) _
  have hgrid : ((c * gridScale place i.unit : Nat) : ℚ) * 2 ^ i.unit =
      c * 10 ^ place * unitScale place i.unit := by
    rw [Nat.cast_mul, mul_assoc, hscale, mul_assoc]
  have hend (n : Nat) : ((n * unitScale place i.unit : Nat) : ℚ) * 2 ^ i.unit =
      n * 2 ^ i.unit * unitScale place i.unit := by
    rw [Nat.cast_mul, mul_right_comm]
  have hle (a b : Nat) : a ≤ b ↔ (a : ℚ) * 2 ^ i.unit ≤ b * 2 ^ i.unit := by
    rw [mul_le_mul_iff_of_pos_right htwo, Nat.cast_le]
  have hlt (a b : Nat) : a < b ↔ (a : ℚ) * 2 ^ i.unit < b * 2 ^ i.unit := by
    rw [mul_lt_mul_iff_of_pos_right htwo, Nat.cast_lt]
  unfold contains Has
  dsimp only
  split
  · rw [Bool.and_eq_true, decide_eq_true_eq, decide_eq_true_eq, hle, hle, hend, hend, hgrid,
      mul_le_mul_iff_of_pos_right hpos, mul_le_mul_iff_of_pos_right hpos]
  · rw [Bool.and_eq_true, decide_eq_true_eq, decide_eq_true_eq, hlt, hlt, hend, hend, hgrid,
      mul_lt_mul_iff_of_pos_right hpos, mul_lt_mul_iff_of_pos_right hpos]

/-- The number itself lies in its interval. -/
theorem contains_mid (hlow : i.low < i.mid) (hhigh : i.mid < i.high)
    (hc : c * gridScale place i.unit = i.mid * unitScale place i.unit) : i.contains place c = true := by
  have hpos : 0 < unitScale place i.unit :=
    Nat.mul_pos (Nat.pow_pos (by decide)) (Nat.pow_pos (by decide))
  have hbelow := Nat.mul_lt_mul_of_pos_right hlow hpos
  have habove := Nat.mul_lt_mul_of_pos_right hhigh hpos
  unfold contains
  dsimp only
  rw [hc]
  split <;> rw [Bool.and_eq_true, decide_eq_true_eq, decide_eq_true_eq]
  · exact ⟨hbelow.le, habove.le⟩
  · exact ⟨hbelow, habove⟩

/-- A grid point that is picked lies in the interval. -/
theorem contains_of_pick? (h : i.pick? place = some c) : i.contains place c = true := by
  unfold pick? at h
  dsimp only at h
  split at h
  · next hlow hhigh =>
    obtain hq | hq := Format.roundQuotient_cases (i.mid * unitScale place i.unit)
      (gridScale place i.unit) <;> rw [hq] at h <;> cases h
    · exact hlow
    · exact hhigh
  · next hlow _ =>
    cases h
    exact hlow
  · next _ hhigh =>
    cases h
    exact hhigh
  · cases h

/-- From the place on where the number itself is a grid point, one is picked. -/
theorem exists_pick? (hlow : i.low < i.mid) (hhigh : i.mid < i.high) (hzero : place ≤ 0)
    (hunit : place ≤ i.unit) : ∃ c, i.pick? place = some c := by
  have hpos : 0 < gridScale place i.unit :=
    Nat.mul_pos (Nat.pow_pos (by decide)) (Nat.pow_pos (by decide))
  have hdvd : gridScale place i.unit ∣ i.mid * unitScale place i.unit := by
    have hgrid : gridScale place i.unit = 2 ^ (-i.unit).toNat := by
      rw [gridScale, Int.toNat_of_nonpos hzero]
      exact Nat.one_mul _
    have hten : 2 ^ (-i.unit).toNat ∣ 10 ^ (-place).toNat :=
      (Nat.pow_dvd_pow 2 (by omega)).trans (pow_dvd_pow_of_dvd (by decide) (-place).toNat)
    rw [hgrid]
    exact Dvd.dvd.mul_left (Dvd.dvd.mul_right hten _) _
  have hcontains : i.contains place
      (i.mid * unitScale place i.unit / gridScale place i.unit) = true :=
    contains_mid hlow hhigh (Nat.div_mul_cancel hdvd)
  unfold pick?
  dsimp only
  rw [hcontains]
  split <;> simp_all

/-- A search that comes to a place with a grid point gives a grid point of the interval. -/
theorem contains_search (fuel : Nat) (hfuel : ∃ k < fuel, ∃ c, i.pick? (place - k) = some c) :
    i.contains (i.search fuel place).2 (i.search fuel place).1 = true := by
  induction fuel generalizing place with
  | zero =>
    obtain ⟨k, hk, -⟩ := hfuel
    cases hk
  | succ fuel ih =>
    rw [search]
    cases hpick : i.pick? place with
    | some c => exact contains_of_pick? hpick
    | none =>
      refine ih ?_
      obtain ⟨k, hk, c, hc⟩ := hfuel
      cases k with
      | zero =>
        rw [Nat.cast_zero, Int.sub_zero, hpick] at hc
        cases hc
      | succ k =>
        refine ⟨k, Nat.lt_of_succ_lt_succ hk, c, ?_⟩
        rw [← hc]
        congr 1
        omega

theorem scaled_lt {b p q u : Nat} (hmid : i.mid < 2 ^ b) (hunit : i.unit.toNat ≤ u)
    (hpower : 2 ^ b * 2 ^ u ≤ 10 ^ p) :
    i.mid * Nat.pow 10 q * Nat.pow 2 i.unit.toNat < 10 ^ (p + q) := by
  calc i.mid * 10 ^ q * 2 ^ i.unit.toNat
      = i.mid * 2 ^ i.unit.toNat * 10 ^ q := Nat.mul_right_comm _ _ _
    _ < 2 ^ b * 2 ^ i.unit.toNat * 10 ^ q :=
        Nat.mul_lt_mul_of_pos_right (Nat.mul_lt_mul_of_pos_right hmid (Nat.pow_pos (by decide)))
          (Nat.pow_pos (by decide))
    _ ≤ 10 ^ p * 10 ^ q :=
        Nat.mul_le_mul_right _ ((Nat.mul_le_mul_left _
          (Nat.pow_le_pow_right (by decide) hunit)).trans hpower)
    _ = 10 ^ (p + q) := (Nat.pow_add 10 p q).symm

/-- The leading digit of a number of the 64-bit format. -/
theorem leading_le (hmid : i.mid < 2 ^ 55) (hunit : i.unit.toNat ≤ 969) : i.leading ≤ 308 := by
  obtain ⟨q, hq⟩ : ∃ q, q = 400 := ⟨400, rfl⟩
  have hscaled := scaled_lt (p := 309) (q := q) hmid hunit (by decide +kernel)
  have hlength := Numeral.length_digits_le (k := 309 + q) (by decide : 1 < 10) (by omega)
    (Nat.lt_of_le_of_lt (Nat.div_le_self _ (Nat.pow 2 (-i.unit).toNat)) hscaled)
  unfold leading
  rw [← hq]
  dsimp only
  omega

/-- The search for digits of a number of the 64-bit format finds some. -/
theorem has_search (hlow : i.low < i.mid) (hhigh : i.mid < i.high) (hmid : i.mid < 2 ^ 55)
    (hleast : -1076 ≤ i.unit) (hmost : i.unit ≤ 969) :
    i.Has ((i.search 1400 i.leading).1 * 10 ^ (i.search 1400 i.leading).2) := by
  have hleading := leading_le hmid (by omega)
  refine contains_iff.mp (contains_search 1400 ⟨(i.leading - min 0 i.unit).toNat, ?_, ?_⟩)
  · omega
  · exact exists_pick? hlow hhigh (by omega) (by omega)

/-! ## Neighbours -/

section

variable {f : Format} {b c : Nat}

/-- The interval of the magnitude with a bit pattern. -/
def ofPattern (f : Format) (b : Nat) : Interval :=
  ofMagnitude f (f.mantissa b) (f.least + f.shift b)

/-- The upper end lies half way to the next number. -/
theorem high_ofPattern (f : Format) (b : Nat) :
    (ofPattern f b).high * 2 ^ f.shift b = 2 * (f.steps b + f.steps (b + 1)) := by
  show (4 * f.mantissa b + 2) * 2 ^ f.shift b = _
  rw [Format.steps_succ, Format.steps]
  ring

/-- The lower end, if the mantissa is not the smallest one of its shift. -/
theorem low_of_ne (h : f.mantissa b ≠ Nat.pow 2 f.fraction ∨ f.shift b = 0) :
    (ofPattern f b).low = 4 * f.mantissa b - 2 := by
  refine if_neg ?_
  rintro ⟨hm, hless⟩
  obtain h | h := h
  · exact h hm
  · rw [h] at hless
    omega

/-- The lower end lies half way to the number before. -/
theorem low_ofPattern (f : Format) (b : Nat) :
    (ofPattern f (b + 1)).low * 2 ^ f.shift (b + 1) = 2 * (f.steps b + f.steps (b + 1)) := by
  have hpos := f.fraction_pos
  obtain hb | ⟨k, r, hr, rfl⟩ := f.lt_or_fields b
  · -- Up to the first shift the mantissas are the patterns.
    obtain hnext | hnext : b + 1 < Nat.pow 2 f.fraction ∨ b + 1 = Nat.pow 2 f.fraction :=
      Nat.lt_or_eq_of_le (Nat.succ_le_of_lt hb)
    · rw [low_of_ne (.inr (Format.shift_of_lt hnext)), Format.mantissa_of_lt hnext,
        Format.shift_of_lt hnext, Format.steps_of_lt hb, Format.steps_of_lt hnext, Nat.pow_zero]
      omega
    · have hfields : b + 1 = (0 + 1) * Nat.pow 2 f.fraction + 0 := by
        rw [Nat.zero_add, Nat.one_mul, Nat.add_zero]
        exact hnext
      have hshift : f.shift (b + 1) = 0 := by rw [hfields, Format.shift_of_fields hpos]
      rw [low_of_ne (.inr hshift), hshift, Format.steps_of_lt hb, hfields,
        Format.mantissa_of_fields hpos, Format.steps_of_fields hpos, Nat.pow_zero]
      omega
  · obtain hnext | hnext : r + 1 < Nat.pow 2 f.fraction ∨ r + 1 = Nat.pow 2 f.fraction :=
      Nat.lt_or_eq_of_le (Nat.succ_le_of_lt hr)
    · have hends : 4 * (Nat.pow 2 f.fraction + (r + 1)) - 2 =
          2 * (Nat.pow 2 f.fraction + r + (Nat.pow 2 f.fraction + (r + 1))) := by omega
      have hne : Nat.pow 2 f.fraction + (r + 1) ≠ Nat.pow 2 f.fraction := by omega
      rw [Nat.add_assoc, low_of_ne (.inl (by rwa [Format.mantissa_of_fields hnext])),
        Format.mantissa_of_fields hnext, Format.shift_of_fields hnext, Format.steps_of_fields hr,
        Format.steps_of_fields hnext, hends]
      ring
    · -- The next mantissa is the smallest one of the next shift.
      have hfields : (k + 1) * Nat.pow 2 f.fraction + r + 1 =
          (k + 1 + 1) * Nat.pow 2 f.fraction + 0 := by
        rw [Nat.add_assoc, hnext]
        ring
      have hlow : (ofPattern f ((k + 1 + 1) * Nat.pow 2 f.fraction + 0)).low =
          4 * (Nat.pow 2 f.fraction + 0) - 1 := by
        rw [ofPattern, Format.mantissa_of_fields hpos, Format.shift_of_fields hpos]
        exact if_pos ⟨rfl, by omega⟩
      have hends : (4 * (Nat.pow 2 f.fraction + 0) - 1) * 2 =
          2 * (Nat.pow 2 f.fraction + r + (Nat.pow 2 f.fraction + 0) * 2) := by omega
      rw [hfields, hlow, Format.shift_of_fields hpos, Format.steps_of_fields hr,
        Format.steps_of_fields hpos, Nat.pow_succ', ← Nat.mul_assoc, hends]
      ring

theorem Has.le_high {i : Interval} {r : ℚ} (h : i.Has r) : r ≤ i.high * 2 ^ i.unit := by
  unfold Has at h
  split at h
  · exact h.2
  · exact h.2.le

theorem Has.low_le {i : Interval} {r : ℚ} (h : i.Has r) : i.low * 2 ^ i.unit ≤ r := by
  unfold Has at h
  split at h
  · exact h.1
  · exact h.1.le

theorem Has.closed {i : Interval} {r : ℚ} (h : i.Has r)
    (hend : r = i.low * 2 ^ i.unit ∨ r = i.high * 2 ^ i.unit) : i.closed = true := by
  unfold Has at h
  split at h
  · assumption
  · obtain rfl | rfl := hend
    · exact absurd h.1 (lt_irrefl _)
    · exact absurd h.2 (lt_irrefl _)

/-- An end of an interval, counted in a unit of the format. -/
theorem end_eq (f : Format) (b n : Nat) : (n : ℚ) * 2 ^ (ofPattern f b).unit =
    ((n * 2 ^ f.shift b : Nat) : ℚ) * 2 ^ (f.least - 2) := by
  have hunit : (ofPattern f b).unit = f.shift b + (f.least - 2) := by
    show f.least + f.shift b - 2 = _
    omega
  rw [hunit, zpow_add₀ (by norm_num), zpow_natCast, Nat.cast_mul, Nat.cast_pow, Nat.cast_ofNat,
    mul_assoc]

theorem closed_ofPattern (hf : 0 < f.fraction) (h : (ofPattern f b).closed = true) :
    b % 2 = 0 := by
  rw [← Format.mantissa_mod_two hf]
  exact of_decide_eq_true h

/-- A real of two intervals would have to be an end of both, and of two neighbours only one has its
ends. -/
theorem not_has_of_lt (hf : 0 < f.fraction) (hbc : b < c) {r : ℚ} (hb : (ofPattern f b).Has r) :
    ¬ (ofPattern f c).Has r := by
  intro hc
  obtain ⟨c, rfl⟩ := Nat.exists_eq_succ_of_ne_zero (Nat.ne_of_gt (Nat.zero_lt_of_lt hbc))
  have hunit : (0 : ℚ) < 2 ^ (f.least - 2) := zpow_pos (by norm_num) _
  have hhigh := hb.le_high
  have hlow := hc.low_le
  rw [end_eq, high_ofPattern] at hhigh
  rw [end_eq, low_ofPattern] at hlow
  have hends : 2 * (f.steps c + f.steps (c + 1)) ≤ 2 * (f.steps b + f.steps (b + 1)) := by
    have hle := hlow.trans hhigh
    rw [mul_le_mul_iff_of_pos_right hunit] at hle
    exact_mod_cast hle
  obtain hless | rfl := Nat.lt_or_eq_of_le (Nat.le_of_lt_succ hbc)
  · have hfirst := f.steps_strictMono hless
    have hsecond := f.steps_strictMono (Nat.succ_lt_succ hless)
    simp only [Nat.succ_eq_add_one] at hsecond
    omega
  · have heq := le_antisymm hhigh hlow
    have heven := closed_ofPattern hf (hb.closed (.inr (by rw [end_eq, high_ofPattern, heq])))
    have hnext := closed_ofPattern hf (hc.closed (.inl (by rw [end_eq, low_ofPattern, heq])))
    omega

/-- No real lies in the intervals of two magnitudes. -/
theorem magnitude_unique (hf : 0 < f.fraction) {r : ℚ} (hb : (ofPattern f b).Has r)
    (hc : (ofPattern f c).Has r) : b = c := by
  obtain h | h | h := Nat.lt_trichotomy b c
  · exact absurd hc (not_has_of_lt hf h hb)
  · exact h
  · exact absurd hb (not_has_of_lt hf h hc)

end

end Interval

/-! ## The text of a number determines it -/

/-- A text with its sign: whether it is negative, and what follows the sign. -/
def read (s : Bytes) : Bool × ℚ :=
  if s.head? = some Numeral.minus then (true, readMagnitude s.tail) else (false, readMagnitude s)

theorem read_signed {s : Bytes} (hs : s.head? ≠ some Numeral.minus) (negative : Bool) :
    read ((if negative then utf8 "-" else []) ++ s) = (negative, readMagnitude s) := by
  cases negative with
  | true => rfl
  | false => exact if_neg hs

theorem mantissa_lt (b : Nat) : Format.double.mantissa b < 2 ^ 53 := by
  obtain hb | ⟨k, r, hr, rfl⟩ := Format.double.lt_or_fields b
  · rw [Format.mantissa_of_lt hb]
    exact hb.trans (by decide)
  · rw [Format.mantissa_of_fields hr]
    have hr : r < 2 ^ 52 := hr
    show 2 ^ 52 + r < 2 ^ 53
    omega

theorem shift_le {b : Nat} (hb : b < Format.double.infinity) : Format.double.shift b ≤ 2045 := by
  have hfield : b / Nat.pow 2 52 < 2047 := (Nat.div_lt_iff_lt_mul (by decide)).mpr hb
  show b / Nat.pow 2 52 - 1 ≤ 2045
  omega

theorem mantissa_pos {b : Nat} (hb : b ≠ 0) : 0 < Format.double.mantissa b := by
  obtain hless | ⟨k, r, hr, rfl⟩ := Format.double.lt_or_fields b
  · rw [Format.mantissa_of_lt hless]
    exact Nat.pos_of_ne_zero hb
  · rw [Format.mantissa_of_fields hr]
    exact Nat.lt_of_lt_of_le Format.double.fraction_pos (Nat.le_add_right _ r)

/-- The digits written for a number stand for a real of its interval. -/
theorem shortest_has {b : Nat} (hzero : b ≠ 0) (hb : b < Format.double.infinity) :
    (Interval.ofPattern .double b).Has (shortest .double (Format.double.mantissa b)
      (Format.double.least + Format.double.shift b)).value := by
  have hm := mantissa_pos hzero
  have hlt := mantissa_lt b
  have hshift := shift_le hb
  have hmid : (Interval.ofPattern .double b).mid = 4 * Format.double.mantissa b := rfl
  have hhigh : (Interval.ofPattern .double b).high = 4 * Format.double.mantissa b + 2 := rfl
  have hlow : (Interval.ofPattern .double b).low < 4 * Format.double.mantissa b := by
    unfold Interval.ofPattern Interval.ofMagnitude
    dsimp only
    split <;> omega
  have hunit : (Interval.ofPattern .double b).unit = Format.double.shift b - 1076 := by
    show (-1074 : Int) + Format.double.shift b - 2 = _
    omega
  rw [shortest, Digits.value_ofScaled]
  exact Interval.has_search (i := Interval.ofPattern .double b) (by omega) (by omega) (by omega)
    (by omega) (by omega)

theorem readMagnitude_zero : readMagnitude (utf8 "0") = 0 := by
  have hzero : ∀ x ∈ [0], x < 10 := by decide
  have htext : utf8 "0" = characters [0] ++ fractionPart [] := rfl
  rw [htext, readMagnitude_of_notMem (by decide), readPoint_fractionPart hzero (by decide)]
  exact zero_mul _

/-- Zero lies in its interval, which is closed. -/
theorem Interval.has_zero : (Interval.ofPattern .double 0).Has 0 := by
  have hlow : (Interval.ofPattern .double 0).low = 0 := rfl
  rw [Has, if_pos (by decide), hlow, Nat.cast_zero, zero_mul]
  exact ⟨le_refl _, mul_nonneg (Nat.cast_nonneg _) (zpow_nonneg (by norm_num) _)⟩

/-- The text of a finite number reads back as its sign and a real of its interval. -/
theorem exists_read {x : Double} (hx : x.magnitude < Format.double.infinity) :
    ∃ r, read (ofDouble x) = (x.isNegative, r) ∧
      (Interval.ofPattern .double x.magnitude).Has r := by
  rw [ofDouble, Double.value_of_lt hx, ofValue]
  by_cases hzero : x.magnitude = 0
  · have hmantissa : Format.double.mantissa 0 = 0 := rfl
    rw [hzero, if_pos hmantissa, read_signed (by decide), readMagnitude_zero]
    exact ⟨0, rfl, Interval.has_zero⟩
  · rw [if_neg (mantissa_pos hzero).ne', read_signed (layout_head (shortest_isDecimal _ _ _)),
      readMagnitude_layout (shortest_isDecimal _ _ _)]
    exact ⟨_, rfl, shortest_has hzero hx⟩

/-- The text of a finite number determines it. -/
theorem ofDouble_inj {x y : Double} (hx : x.magnitude < Format.double.infinity)
    (hy : y.magnitude < Format.double.infinity) : ofDouble x = ofDouble y ↔ x = y := by
  refine ⟨fun h => ?_, congrArg ofDouble⟩
  obtain ⟨r, hreadx, hhasx⟩ := exists_read hx
  obtain ⟨q, hready, hhasy⟩ := exists_read hy
  rw [h, hready, Prod.mk.injEq] at hreadx
  obtain ⟨hsign, rfl⟩ := hreadx
  exact Double.ext_magnitude hsign.symm (Interval.magnitude_unique (by decide) hhasx hhasy)

end Decimal

end HavokScript
