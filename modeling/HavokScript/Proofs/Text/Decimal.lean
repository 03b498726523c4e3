import HavokScript.Number.Decimal
import HavokScript.Proofs.Text.Numeral

/-!
# The characters of numbers

The text of a number has only characters of `Decimal.alphabet` in it: digits, signs, a point, the mark
of an exponent and the letters of the values that are no numbers.
-/

namespace HavokScript.Decimal

/-- The characters of the texts of numbers. -/
def alphabet : Bytes := utf8 "+-.0123456789INaefn"

theorem upperDigit_mem_alphabet {d : Nat} (hd : d < 10) : Numeral.upperDigit d ∈ alphabet := by
  have hall : ∀ d : Fin 10, Numeral.upperDigit d ∈ alphabet := by decide
  exact hall ⟨d, hd⟩

theorem nat_subset (n : Nat) : Numeral.nat n ⊆ alphabet :=
  List.forall_mem_map.mpr fun d hd =>
    upperDigit_mem_alphabet (Numeral.digits_lt (by decide) n d hd)

theorem notMem_nat {b : UInt8} (hb : b ∉ alphabet) (n : Nat) : b ∉ Numeral.nat n :=
  fun hmem => hb (nat_subset n hmem)

theorem int_subset (i : Int) : Numeral.int i ⊆ alphabet := by
  cases i with
  | ofNat n => exact nat_subset n
  | negSucc n => exact List.append_subset.mpr ⟨by decide, nat_subset (n + 1)⟩

theorem zeros_subset (n : Nat) : List.replicate n (48 : UInt8) ⊆ alphabet := by
  intro b hb
  rw [List.eq_of_mem_replicate hb]
  decide

/-! ## Digits -/

/-- The digits are decimal. -/
def Digits.IsDecimal (d : Digits) : Prop := ∀ n ∈ d.digits, n < 10

theorem ofScaled_isDecimal (c : Nat) (place : Int) : (Digits.ofScaled c place).IsDecimal := by
  intro n hn
  -- Only zeros at the end are left out.
  have hmem := (List.dropWhile_sublist _).mem (List.mem_reverse.mp hn)
  exact Numeral.digits_lt (by decide) c n (List.mem_reverse.mp hmem)

theorem shortest_isDecimal (f : Format) (m : Nat) (e : Int) : (shortest f m e).IsDecimal :=
  ofScaled_isDecimal _ _

section

variable {d : Digits} {ds : List Nat}

theorem characters_subset (hd : d.IsDecimal) (hds : ds ⊆ d.digits) :
    characters ds ⊆ alphabet := by
  intro b hb
  obtain ⟨n, hn, rfl⟩ := List.mem_map.mp hb
  exact upperDigit_mem_alphabet (hd n (hds hn))

theorem fractionPart_subset (hd : d.IsDecimal) (hds : ds ⊆ d.digits) :
    fractionPart ds ⊆ alphabet := by
  unfold fractionPart
  split
  · exact List.nil_subset _
  · exact List.append_subset.mpr ⟨by decide, characters_subset hd hds⟩

theorem scientific_subset (hd : d.IsDecimal) : scientific d ⊆ alphabet := by
  have hsign : (if d.place < 0 then utf8 "-" else utf8 "+") ⊆ alphabet := by
    split <;> decide
  have hexponent : Numeral.zeroPad 2 (Numeral.nat d.place.natAbs) ⊆ alphabet :=
    List.append_subset.mpr ⟨zeros_subset _, nat_subset _⟩
  simp only [scientific, List.append_subset]
  exact ⟨⟨⟨⟨characters_subset hd (List.take_subset _ _),
    fractionPart_subset hd (List.drop_subset _ _)⟩, by decide⟩, hsign⟩, hexponent⟩

theorem positional_subset (hd : d.IsDecimal) : positional d ⊆ alphabet := by
  unfold positional
  split
  · simp only [List.append_subset]
    exact ⟨⟨by decide, zeros_subset _⟩, characters_subset hd (List.Subset.refl _)⟩
  · simp only [List.append_subset]
    exact ⟨⟨characters_subset hd (List.take_subset _ _), zeros_subset _⟩,
      fractionPart_subset hd (List.drop_subset _ _)⟩

theorem layout_subset (hd : d.IsDecimal) : layout d ⊆ alphabet := by
  unfold layout
  split
  · exact scientific_subset hd
  · exact positional_subset hd

end

/-! ## Numbers -/

theorem ofValue_subset (f : Format) (v : FloatValue) : ofValue f v ⊆ alphabet := by
  cases v with
  | nan => exact (by decide : utf8 "NaN" ⊆ alphabet)
  | infinite negative =>
    rw [ofValue]
    split <;> decide
  | finite negative m e =>
    rw [ofValue]
    refine List.append_subset.mpr ⟨by split <;> decide, ?_⟩
    split
    · decide
    · exact layout_subset (shortest_isDecimal f m e)

theorem ofDouble_subset (x : Double) : ofDouble x ⊆ alphabet := ofValue_subset _ _

end HavokScript.Decimal
