import HavokScript.Bytes

/-!
# Numerals

Decimal and hexadecimal text of integers. A negative number is a minus sign and the numeral of its
absolute value; a field width counts the sign. `ofDigits` reads a run of digits.
-/

namespace HavokScript.Numeral

/-- The digits of `n` in front of `acc`, most significant first; `fuel` bounds their number. -/
def digitsAux (base : Nat) : Nat → Nat → List Nat → List Nat
  | 0, _, acc => acc
  | fuel + 1, n, acc =>
    if n < base then n :: acc else digitsAux base fuel (n / base) (n % base :: acc)

/-- The digits of `n`, most significant first; zero has the one digit zero. -/
def digits (base n : Nat) : List Nat := digitsAux base (n + 1) n []

/-- The character of a digit: decimal, then capital letters. -/
def upperDigit (d : Nat) : UInt8 := if d < 10 then (48 + d).toUInt8 else (55 + d).toUInt8

/-- The character of a digit: decimal, then small letters. -/
def lowerDigit (d : Nat) : UInt8 := if d < 10 then (48 + d).toUInt8 else (87 + d).toUInt8

/-- The decimal numeral of a natural number. -/
def nat (n : Nat) : Bytes := (digits 10 n).map upperDigit

/-- The decimal numeral of an integer. -/
def int : Int → Bytes
  | .ofNat n => nat n
  | .negSucc n => utf8 "-" ++ nat (n + 1)

/-- The decimal numeral of an integer, with a sign in front of a non-negative one too. -/
def signedInt : Int → Bytes
  | .ofNat n => utf8 "+" ++ nat n
  | .negSucc n => utf8 "-" ++ nat (n + 1)

/-- Zeros in front, up to the width. -/
def zeroPad (width : Nat) (text : Bytes) : Bytes :=
  List.replicate (width - text.length) 48 ++ text

/-- The hexadecimal numeral in capitals of at least `width` characters, the sign counted. -/
def hex (width : Nat) : Int → Bytes
  | .ofNat n => zeroPad width ((digits 16 n).map upperDigit)
  | .negSucc n => utf8 "-" ++ zeroPad (width - 1) ((digits 16 (n + 1)).map upperDigit)

/-- The hexadecimal numeral in small letters of at least `width` characters. -/
def lowerHex (width n : Nat) : Bytes := zeroPad width ((digits 16 n).map lowerDigit)

/-! ## Reading -/

/-- A decimal digit. -/
def isDigit (b : UInt8) : Bool := 48 ≤ b && b ≤ 57

/-- A hexadecimal digit. -/
def isHexDigit (b : UInt8) : Bool := isDigit b || (65 ≤ b && b ≤ 70) || (97 ≤ b && b ≤ 102)

/-- The value of a digit of any base up to sixteen. -/
def digitValue (b : UInt8) : Nat :=
  if b ≤ 57 then b.toNat - 48 else if b ≤ 70 then b.toNat - 55 else b.toNat - 87

/-- The number with the given digits. -/
def ofDigits (base : Nat) (digits : Bytes) : Nat :=
  digits.foldl (fun n b => n * base + digitValue b) 0

end HavokScript.Numeral
