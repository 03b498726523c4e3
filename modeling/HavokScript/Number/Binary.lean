import HavokScript.Bytes

/-!
# Binary floating point

The interchange formats of 16, 32 and 64 bits as exact arithmetic on their bit patterns.

* `Format.value` decodes a bit pattern to a sign and an exact magnitude `m * 2 ^ e`;
* `Format.round` gives the bit pattern nearest to an exact magnitude, a tie going to the even one;
* `Format.convert` moves a number from one format to another;
* `Double` is the 64-bit number of the script language.
-/

namespace HavokScript

/-- A binary interchange format: the widths of its fraction and exponent fields. -/
structure Format where
  /-- stored fraction bits -/
  fraction : Nat
  /-- exponent bits -/
  exponent : Nat
  deriving DecidableEq, Repr

/-- What a bit pattern stands for. -/
inductive FloatValue where
  /-- not a number -/
  | nan
  /-- an infinity -/
  | infinite (negative : Bool)
  /-- the number `± mantissa * 2 ^ exponent` -/
  | finite (negative : Bool) (mantissa : Nat) (exponent : Int)
  deriving DecidableEq, Repr

namespace Format

/-- The 16-bit format. -/
def half : Format := ⟨10, 5⟩

/-- The 32-bit format. -/
def single : Format := ⟨23, 8⟩

/-- The 64-bit format. -/
def double : Format := ⟨52, 11⟩

/-- The largest exponent field, which marks infinities and not-a-numbers. -/
def special (f : Format) : Nat := Nat.pow 2 f.exponent - 1

/-- The bit pattern of positive infinity. -/
def infinity (f : Format) : Nat := f.special * Nat.pow 2 f.fraction

/-- The bit pattern of the sign. -/
def signBit (f : Format) : Nat := Nat.pow 2 (f.fraction + f.exponent)

/-- The exponent of the smallest magnitude above zero. -/
def least (f : Format) : Int := 2 - (Nat.pow 2 (f.exponent - 1) : Nat) - f.fraction

/-- Whether the sign bit of a pattern is set. -/
def isNegative (f : Format) (bits : Nat) : Bool := bits / f.signBit % 2 = 1

/-- The exponent field of a pattern. -/
def exponentField (f : Format) (bits : Nat) : Nat :=
  bits / Nat.pow 2 f.fraction % Nat.pow 2 f.exponent

/-- The fraction field of a pattern. -/
def fractionField (f : Format) (bits : Nat) : Nat := bits % Nat.pow 2 f.fraction

/-- What a bit pattern stands for. -/
def value (f : Format) (bits : Nat) : FloatValue :=
  if f.exponentField bits = f.special then
    if f.fractionField bits = 0 then .infinite (f.isNegative bits) else .nan
  else if f.exponentField bits = 0 then
    .finite (f.isNegative bits) (f.fractionField bits) f.least
  else
    .finite (f.isNegative bits) (Nat.pow 2 f.fraction + f.fractionField bits)
      (f.least + (f.exponentField bits - 1 : Nat))

/-- The quotient of `n` by `d` rounded to nearest, a tie going to the even quotient. -/
def roundQuotient (n d : Nat) : Nat :=
  let q := n / d
  let r := n % d
  if 2 * r < d then q else if d < 2 * r then q + 1 else q + q % 2

/-- The bit pattern without sign nearest to `m * 2 ^ e`. -/
def round (f : Format) (m : Nat) (e : Int) : Nat :=
  if m = 0 then 0
  else
    let q : Int := max (e + (m.log2 - f.fraction : Int)) f.least
    let scaled :=
      if q ≤ e then m * Nat.pow 2 (e - q).toNat else roundQuotient m (Nat.pow 2 (q - e).toNat)
    min ((q - f.least).toNat * Nat.pow 2 f.fraction + scaled) f.infinity

/-- The sign bit, if set. -/
def sign (f : Format) (negative : Bool) : Nat := if negative then f.signBit else 0

/-- The bit pattern in format `g` of the number that `bits` is in format `f`. A not-a-number stays
one: it keeps its sign and the high bits of its fraction, the highest of which is set. -/
def convert (f g : Format) (bits : Nat) : Nat :=
  match f.value bits with
  | .infinite negative => g.sign negative + g.infinity
  | .finite negative m e => g.sign negative + g.round m e
  | .nan =>
    let aligned :=
      if f.fraction ≤ g.fraction then f.fractionField bits * Nat.pow 2 (g.fraction - f.fraction)
      else f.fractionField bits / Nat.pow 2 (f.fraction - g.fraction)
    let quiet := Nat.pow 2 (g.fraction - 1)
    g.sign (f.isNegative bits) + g.infinity + quiet + aligned % quiet

end Format

/-- A 64-bit floating point number, given by its bits. -/
structure Double where
  /-- the bit pattern -/
  bits : UInt64
  deriving DecidableEq, Repr

namespace Double

/-- Positive zero. -/
def zero : Double := ⟨0⟩

/-- What the number stands for. -/
def value (x : Double) : FloatValue := Format.double.value x.bits.toNat

/-- Whether the number is a not-a-number. -/
def isNaN (x : Double) : Bool := x.value = .nan

/-- The number nearest to an integer. -/
def ofInt (i : Int) : Double :=
  ⟨(Format.double.sign (i < 0) + Format.double.round i.natAbs 0).toUInt64⟩

/-- The number with a given 32-bit pattern. -/
def ofSingle (bits : Nat) : Double := ⟨(Format.single.convert .double bits).toUInt64⟩

/-- The number with a given 16-bit pattern. -/
def ofHalf (bits : Nat) : Double := ⟨(Format.half.convert .double bits).toUInt64⟩

/-- The pattern of the nearest number in a format. -/
def toFormat (f : Format) (x : Double) : Nat := Format.double.convert f x.bits.toNat

/-- Whether a format has the number itself. -/
def fits (f : Format) (x : Double) : Bool :=
  f.convert .double (x.toFormat f) = x.bits.toNat

/-- An integer that orders numbers as they are ordered; every not-a-number comes first, and the two
zeros are equal. -/
def rank (x : Double) : Int :=
  let magnitude := x.bits.toNat % Format.double.signBit
  if x.isNaN then -0x8000000000000000
  else if Format.double.isNegative x.bits.toNat then -(magnitude : Int) else magnitude

/-- The signed 64-bit integer without the fraction of the number; `-2 ^ 63` if there is none. -/
def truncate (x : Double) : Int :=
  match x.value with
  | .finite negative m e =>
    let n : Nat := if 0 ≤ e then m * Nat.pow 2 e.toNat else m / Nat.pow 2 (-e).toNat
    let i : Int := if negative then -(n : Int) else n
    if -0x8000000000000000 ≤ i ∧ i < 0x8000000000000000 then i else -0x8000000000000000
  | _ => -0x8000000000000000

/-- The nanoseconds in the fraction of a number of seconds: the fraction times a thousand million,
rounded to a number, and without the fraction of that. -/
def nanoseconds (x : Double) : Int :=
  match x.value with
  | .finite negative m e =>
    let fraction := m % Nat.pow 2 (-e).toNat
    truncate ⟨(Format.double.sign negative +
      Format.double.round (fraction * 1000000000) e).toUInt64⟩
  | _ => 0

end Double

end HavokScript
