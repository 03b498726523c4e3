import HavokScript.Text.Numeral

/-!
# Reading numerals back

`Numeral.digits` finds the digits of a number from the last one to the first, and `Numeral.ofDigits`
adds them up from the first one to the last. The two are inverse (`ofDigits_digits`), and zeros in front
change nothing, so that a hexadecimal numeral determines its number whatever its width
(`ofDigits_hex`). Decimal numerals are read back too, with their sign (`readInt_int`).
-/

namespace HavokScript.Numeral

/-- The digits of `n` in front of others stand for `n` in front of them. -/
theorem foldl_digitsAux {base : Nat} (hbase : 1 < base) {fuel n : Nat} (hn : n < fuel)
    (acc : List Nat) : (digitsAux base fuel n acc).foldl (fun v d => v * base + d) 0 =
      acc.foldl (fun v d => v * base + d) n := by
  induction fuel generalizing n acc with
  | zero => omega
  | succ fuel ih =>
    rw [digitsAux]
    by_cases hlast : n < base
    · rw [if_pos hlast, List.foldl_cons, Nat.zero_mul, Nat.zero_add]
    · have hless : n / base < n := Nat.div_lt_self (by omega) hbase
      have hwhole : n / base * base + n % base = n := by
        rw [Nat.mul_comm]
        exact Nat.div_add_mod n base
      rw [if_neg hlast, ih (by omega), List.foldl_cons, hwhole]

theorem digitsAux_lt {base : Nat} (hbase : 1 < base) (fuel n : Nat) {acc : List Nat}
    (hacc : ∀ d ∈ acc, d < base) : ∀ d ∈ digitsAux base fuel n acc, d < base := by
  induction fuel generalizing n acc with
  | zero => exact hacc
  | succ fuel ih =>
    rw [digitsAux]
    by_cases hlast : n < base
    · rw [if_pos hlast]
      exact List.forall_mem_cons.mpr ⟨hlast, hacc⟩
    · rw [if_neg hlast]
      have hdigit : n % base < base := Nat.mod_lt _ (by omega)
      exact ih (n / base) (List.forall_mem_cons.mpr ⟨hdigit, hacc⟩)

theorem digits_lt {base : Nat} (hbase : 1 < base) (n : Nat) : ∀ d ∈ digits base n, d < base :=
  digitsAux_lt hbase (n + 1) n (List.forall_mem_nil _)

theorem digitValue_upperDigit {d : Nat} (hd : d < 16) : digitValue (upperDigit d) = d := by
  have hall : ∀ d : Fin 16, digitValue (upperDigit d) = d := by decide
  exact hall ⟨d, hd⟩

theorem ofDigits_map_upperDigit (base : Nat) {ds : List Nat} (hds : ∀ d ∈ ds, d < 16) (v : Nat) :
    (ds.map upperDigit).foldl (fun n b => n * base + digitValue b) v =
      ds.foldl (fun v d => v * base + d) v := by
  induction ds generalizing v with
  | nil => rfl
  | cons d ds ih =>
    rw [List.forall_mem_cons] at hds
    rw [List.map_cons, List.foldl_cons, List.foldl_cons, digitValue_upperDigit hds.1, ih hds.2]

theorem ofDigits_digits {base : Nat} (hbase : 1 < base) (hle : base ≤ 16) (n : Nat) :
    ofDigits base ((digits base n).map upperDigit) = n := by
  have hlt : ∀ d ∈ digits base n, d < 16 := fun d hd =>
    Nat.lt_of_lt_of_le (digits_lt hbase n d hd) hle
  rw [ofDigits, ofDigits_map_upperDigit base hlt, digits, foldl_digitsAux hbase (Nat.lt_succ_self n)]
  rfl

theorem ofDigits_zeroPad (base width : Nat) (text : Bytes) :
    ofDigits base (zeroPad width text) = ofDigits base text := by
  have hzeros : ∀ k, (List.replicate k (48 : UInt8)).foldl
      (fun n b => n * base + digitValue b) 0 = 0 := by
    intro k
    induction k with
    | zero => rfl
    | succ k ih =>
      have hzero : 0 * base + digitValue 48 = 0 := by
        rw [Nat.zero_mul]
        rfl
      rw [List.replicate_succ, List.foldl_cons, hzero, ih]
  rw [ofDigits, zeroPad, List.foldl_append, hzeros, ofDigits]

/-- The hexadecimal numeral of a natural number reads back, whatever its width. -/
theorem ofDigits_hex (width n : Nat) : ofDigits 16 (hex width n) = n := by
  show ofDigits 16 (zeroPad width ((digits 16 n).map upperDigit)) = n
  rw [ofDigits_zeroPad, ofDigits_digits (by decide) (by decide)]

/-- The decimal numeral of a natural number reads back. -/
theorem ofDigits_nat (n : Nat) : ofDigits 10 (nat n) = n :=
  ofDigits_digits (by decide) (by decide) n

theorem nat_injective {m n : Nat} (h : nat m = nat n) : m = n := by
  rw [← ofDigits_nat m, h, ofDigits_nat]

/-! ## The characters of numerals -/

theorem isDigit_upperDigit {d : Nat} (hd : d < 10) : isDigit (upperDigit d) := by
  have hall : ∀ d : Fin 10, isDigit (upperDigit d) := by decide
  exact hall ⟨d, hd⟩

theorem isHexDigit_upperDigit {d : Nat} (hd : d < 16) : isHexDigit (upperDigit d) := by
  have hall : ∀ d : Fin 16, isHexDigit (upperDigit d) := by decide
  exact hall ⟨d, hd⟩

theorem isDigit_nat (n : Nat) : ∀ b ∈ nat n, isDigit b :=
  List.forall_mem_map.mpr fun d hd => isDigit_upperDigit (digits_lt (by decide) n d hd)

theorem isHexDigit_hex (width n : Nat) : ∀ b ∈ hex width n, isHexDigit b := by
  refine List.forall_mem_append.mpr ⟨fun b hb => ?_, ?_⟩
  · rw [List.eq_of_mem_replicate hb]
    rfl
  · exact List.forall_mem_map.mpr fun d hd => isHexDigit_upperDigit (digits_lt (by decide) n d hd)

/-! ## Signs -/

/-- The byte of a minus sign. -/
def minus : UInt8 := 45

/-- The integer with the given digits, behind a minus sign if it is negative. -/
def readInt : Bytes → Int
  | [] => 0
  | b :: bs => if b = minus then -(ofDigits 10 bs : Int) else ofDigits 10 (b :: bs)

theorem readInt_int (i : Int) : readInt (int i) = i := by
  cases i with
  | ofNat n =>
    show readInt (nat n) = n
    cases htext : nat n with
    | nil =>
      rw [← ofDigits_nat n, htext]
      rfl
    | cons b bs =>
      have hdigit : isDigit b := isDigit_nat n b (htext ▸ List.mem_cons_self)
      have hsign : b ≠ minus := by
        rintro rfl
        cases hdigit
      rw [readInt, if_neg hsign, ← htext, ofDigits_nat]
  | negSucc n =>
    show readInt (minus :: nat (n + 1)) = Int.negSucc n
    rw [readInt, if_pos rfl, ofDigits_nat]
    rfl

end HavokScript.Numeral
