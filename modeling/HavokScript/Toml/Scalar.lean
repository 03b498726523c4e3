import HavokScript.Instant

/-!
# Numbers and dates of TOML

Words without quotes. Digits may be grouped by single underscores between them, a decimal number has
no leading zeros, an integer has 64 bits and a float is in the range of doubles. A date is checked
against the calendar; the seconds of a time may be left out.
-/

namespace HavokScript.Toml

open Numeral (isDigit isHexDigit ofDigits)

/-- The digits of a word in which single underscores may stand between digits. -/
def grouped? (digit : UInt8 → Bool) (word : Bytes) : Option Bytes :=
  let groups := Bytes.split 95 word
  if groups.all fun g => g ≠ [] && g.all digit then some groups.flatten else none

/-- The digits of a decimal number: grouped, and without leading zeros. -/
def decimal? (word : Bytes) : Option Bytes := do
  let digits ← grouped? isDigit word
  guard (digits.length = 1 ∨ digits.head? ≠ some 48)
  return digits

/-- Whether a word starts with a minus sign, and the word without its sign. -/
def unsigned : Bytes → Bool × Bytes
  | 45 :: word => (true, word)
  | 43 :: word => (false, word)
  | word => (false, word)

/-! ## Integers -/

/-- A number with a base given by a letter behind a zero. -/
def based? : Bytes → Option Nat
  | 48 :: 120 :: word => do return ofDigits 16 (← grouped? isHexDigit word)
  | 48 :: 111 :: word => do return ofDigits 8 (← grouped? (fun b => 48 ≤ b && b ≤ 55) word)
  | 48 :: 98 :: word => do return ofDigits 2 (← grouped? (fun b => b = 48 || b = 49) word)
  | _ => none

/-- A decimal integer with an optional sign. -/
def signedDecimal? (word : Bytes) : Option Int := do
  let (negative, word) := unsigned word
  let n := ofDigits 10 (← decimal? word)
  return if negative then -(n : Int) else n

/-- An integer of 64 bits. -/
def integer? (word : Bytes) : Option Int := do
  let i ← ((based? word).map Int.ofNat).or (signedDecimal? word)
  guard (-0x8000000000000000 ≤ i ∧ i < 0x8000000000000000)
  return i

/-! ## Floats -/

/-- The least number that is rounded beyond the doubles. -/
def doubleBound : Nat := Nat.pow 2 1024 - Nat.pow 2 970

/-- Whether `digits · 10 ^ exponent` is rounded to a finite double. -/
def inRange (digits : Nat) (exponent : Int) : Bool :=
  if 0 ≤ exponent then digits * Nat.pow 10 (min exponent.toNat 400) < doubleBound
  else digits < doubleBound * Nat.pow 10 (-exponent).toNat

/-- The exponent of a float, read behind the letter; without one it is zero. -/
def exponent? : Bytes → Option Int
  | [] => some 0
  | _ :: word => do
    let (negative, word) := unsigned word
    let n := ofDigits 10 (← grouped? isDigit word)
    return if negative then -(min n 10000 : Nat) else (min n 10000 : Nat)

/-- The digits behind the point of a float; without a point there are none. -/
def fraction? : Bytes → Option Bytes
  | [] => some []
  | _ :: word => grouped? isDigit word

/-- Whether a byte is the letter in front of an exponent. -/
def isExponentMark (b : UInt8) : Bool := b = 101 || b = 69

/-- Whether a word is a decimal float with a point or an exponent. -/
def isDecimalFloat (word : Bytes) : Bool :=
  let (_, word) := unsigned word
  let mantissa := word.takeWhile fun b => !isExponentMark b
  let parts := do
    let whole ← decimal? (mantissa.takeWhile (· ≠ 46))
    let fraction ← fraction? (mantissa.dropWhile (· ≠ 46))
    let exponent ← exponent? (word.dropWhile fun b => !isExponentMark b)
    return inRange (ofDigits 10 (whole ++ fraction)) (exponent - fraction.length)
  parts.any id && word.any fun b => isExponentMark b || b = 46

/-- Whether a word is infinity or not a number. -/
def isSpecialFloat (word : Bytes) : Bool :=
  let (_, word) := unsigned word
  word = utf8 "inf" || word = utf8 "nan"

/-- Whether a word is a float. -/
def isFloat (word : Bytes) : Bool := isSpecialFloat word || isDecimalFloat word

/-! ## Dates and times -/

/-- A decimal field of fixed width. -/
def field? (width : Nat) (word : Bytes) : Option Nat :=
  if word.length = width ∧ word.all isDigit then some (ofDigits 10 word) else none

/-- Whether a field of two digits is below a bound. -/
def isBelow (bound : Nat) (word : Bytes) : Bool := (field? 2 word).any (· < bound)

/-- Whether a word is a date. -/
def isDate (word : Bytes) : Bool :=
  match Bytes.split 45 word with
  | [year, month, day] =>
    match field? 4 year, field? 2 month, field? 2 day with
    | some y, some m, some d => 1 ≤ m && m ≤ 12 && 1 ≤ d && d ≤ daysIn y m
    | _, _, _ => false
  | _ => false

/-- Whether a word is a number of seconds, with or without a fraction. -/
def isSecond (word : Bytes) : Bool :=
  isBelow 60 (word.takeWhile (· ≠ 46)) &&
    match word.dropWhile (· ≠ 46) with
    | [] => true
    | _ :: fraction => fraction ≠ [] && fraction.all isDigit

/-- Whether a word is a time of the day. -/
def isTime (word : Bytes) : Bool :=
  match Bytes.split 58 word with
  | [hour, minute] => isBelow 24 hour && isBelow 60 minute
  | [hour, minute, second] => isBelow 24 hour && isBelow 60 minute && isSecond second
  | _ => false

/-- A byte that starts the offset of a time zone. -/
def isZoneMark (b : UInt8) : Bool := b = 90 || b = 122 || b = 43 || b = 45

/-- Whether a word is empty or the offset of a time zone. -/
def isZone : Bytes → Bool
  | [] => true
  | [b] => b = 90 || b = 122
  | b :: word =>
    (b = 43 || b = 45) &&
      match Bytes.split 58 word with
      | [hours, minutes] => isBelow 25 hours && isBelow 61 minutes
      | _ => false

/-- Whether a word is a date, a time, or a date and a time with or without a zone. -/
def isMoment (word : Bytes) : Bool :=
  let isMiddle (b : UInt8) : Bool := b = 84 || b = 116 || b = 32
  match word.dropWhile fun b => !isMiddle b with
  | [] => isDate word || isTime word
  | _ :: time =>
    isDate (word.takeWhile fun b => !isMiddle b) &&
      isTime (time.takeWhile fun b => !isZoneMark b) &&
      isZone (time.dropWhile fun b => !isZoneMark b)

end HavokScript.Toml
