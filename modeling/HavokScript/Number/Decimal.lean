import HavokScript.Number.Binary
import HavokScript.Text.Numeral

/-!
# Decimal text of floating point numbers

The text of a number has the fewest digits that read back as the same number. `shortest` searches
the decimal grids from coarse to fine, in exact arithmetic, for a point inside the interval of reals
that round to the number; of two such points it takes the nearer one, and of two equally near ones
the even one. `layout` writes the digits positionally or with an exponent.
-/

namespace HavokScript.Decimal

/-- The reals that round to a number, in units of `2 ^ unit`: the ends, whether they belong to it,
and the number itself. -/
structure Interval where
  /-- the lower end -/
  low : Nat
  /-- the number -/
  mid : Nat
  /-- the upper end -/
  high : Nat
  /-- the binary exponent of the unit -/
  unit : Int
  /-- whether the ends round to the number -/
  closed : Bool
  deriving DecidableEq, Repr

/-- The interval of the magnitude `m * 2 ^ e` of a format. Below a power of two the neighbour is
only half as far away. -/
def Interval.ofMagnitude (f : Format) (m : Nat) (e : Int) : Interval where
  low := if m = Nat.pow 2 f.fraction ∧ f.least < e then 4 * m - 1 else 4 * m - 2
  mid := 4 * m
  high := 4 * m + 2
  unit := e - 2
  closed := m % 2 = 0

/-- The numerator of `10 ^ place` over `2 ^ unit`, as a fraction with the next function. -/
def gridScale (place unit : Int) : Nat := Nat.pow 10 place.toNat * Nat.pow 2 (-unit).toNat

/-- The denominator that goes with `gridScale`. -/
def unitScale (place unit : Int) : Nat := Nat.pow 10 (-place).toNat * Nat.pow 2 unit.toNat

/-- Whether `c * 10 ^ place` lies in the interval. -/
def Interval.contains (i : Interval) (place : Int) (c : Nat) : Bool :=
  let x := c * gridScale place i.unit
  let s := unitScale place i.unit
  if i.closed then i.low * s ≤ x && x ≤ i.high * s else i.low * s < x && x < i.high * s

/-- The grid point of the interval at a place, if there is one: the nearer of the two neighbours of
the number that lie inside. -/
def Interval.pick? (i : Interval) (place : Int) : Option Nat :=
  let g := gridScale place i.unit
  let n := i.mid * unitScale place i.unit
  let c := n / g
  match i.contains place c, i.contains place (c + 1) with
  | true, true => some (Format.roundQuotient n g)
  | true, false => some c
  | false, true => some (c + 1)
  | false, false => none

/-- The first place, going down from `place`, at which the interval has a grid point. -/
def Interval.search (i : Interval) : Nat → Int → Nat × Int
  | 0, place => (i.mid * unitScale place i.unit / gridScale place i.unit, place)
  | fuel + 1, place =>
    match i.pick? place with
    | some c => (c, place)
    | none => i.search fuel (place - 1)

/-- The place of the leading decimal digit of the number. -/
def Interval.leading (i : Interval) : Int :=
  let scaled := i.mid * Nat.pow 10 400 * Nat.pow 2 i.unit.toNat / Nat.pow 2 (-i.unit).toNat
  (Numeral.digits 10 scaled).length - 401

/-- A positive decimal number: its digits without zeros at the end, and the place of the first. -/
structure Digits where
  /-- the digits, most significant first -/
  digits : List Nat
  /-- the power of ten of the first digit -/
  place : Int
  deriving DecidableEq, Repr

/-- The digits of `c * 10 ^ place`. -/
def Digits.ofScaled (c : Nat) (place : Int) : Digits :=
  let ds := Numeral.digits 10 c
  ⟨(ds.reverse.dropWhile (· = 0)).reverse, place + ds.length - 1⟩

/-- The fewest digits that read back as the magnitude `m * 2 ^ e` of a format. -/
def shortest (f : Format) (m : Nat) (e : Int) : Digits :=
  let i := Interval.ofMagnitude f m e
  let r := i.search 1400 i.leading
  Digits.ofScaled r.1 r.2

/-- Digit characters. -/
def characters (ds : List Nat) : Bytes := ds.map Numeral.upperDigit

/-- Digits after a decimal point, if there are any. -/
def fractionPart (ds : List Nat) : Bytes :=
  if ds.isEmpty then [] else utf8 "." ++ characters ds

/-- Digits with a power of ten: its sign is always written and it has two digits at least. -/
def scientific (d : Digits) : Bytes :=
  characters (d.digits.take 1) ++ fractionPart (d.digits.drop 1) ++ utf8 "e" ++
    (if d.place < 0 then utf8 "-" else utf8 "+") ++ Numeral.zeroPad 2 (Numeral.nat d.place.natAbs)

/-- Digits with the decimal point where it belongs. -/
def positional (d : Digits) : Bytes :=
  if d.place < 0 then
    utf8 "0." ++ List.replicate (d.place.natAbs - 1) 48 ++ characters d.digits
  else
    let n := d.place.toNat + 1
    characters (d.digits.take n) ++ List.replicate (n - d.digits.length) 48 ++
      fractionPart (d.digits.drop n)

/-- Digits are written positionally from `0.0001` up to below a million. -/
def layout (d : Digits) : Bytes :=
  if d.place < -4 ∨ 6 ≤ d.place then scientific d else positional d

/-- The text of a decoded number of a format. -/
def ofValue (f : Format) : FloatValue → Bytes
  | .nan => utf8 "NaN"
  | .infinite negative => if negative then utf8 "-Inf" else utf8 "+Inf"
  | .finite negative m e =>
    (if negative then utf8 "-" else []) ++ if m = 0 then utf8 "0" else layout (shortest f m e)

/-- The text of a bit pattern of a format. -/
def ofBits (f : Format) (bits : Nat) : Bytes := ofValue f (f.value bits)

/-- The text of a number. -/
def ofDouble (x : Double) : Bytes := ofValue .double x.value

end HavokScript.Decimal
