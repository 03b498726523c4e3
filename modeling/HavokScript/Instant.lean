import HavokScript.Text.Numeral

/-!
# Instants

Moments of the proleptic Gregorian calendar, to the nanosecond.

* `Instant.ofUnix` counts from the start of 1970;
* `Instant.ofText?` reads an internet date and time such as `2013-03-21T20:04:00.5+01:00`;
* `Instant.text` shows date, time, offset and zone, as in `2013-03-21 20:04:00.5 +0100 +0100`.
-/

namespace HavokScript

/-! ## The calendar -/

/-- The number of days of a month. -/
def daysIn (year month : Nat) : Nat :=
  if month = 2 then
    if year % 4 = 0 ∧ (year % 100 ≠ 0 ∨ year % 400 = 0) then 29 else 28
  else if month = 4 ∨ month = 6 ∨ month = 9 ∨ month = 11 then 30
  else 31

/-- The days from the start of year one to the start of a year. -/
def daysBefore (year : Int) : Int :=
  let y := year - 1
  365 * y + y / 4 - y / 100 + y / 400

/-- The days of a year before a month. -/
def daysBeforeMonth (year month : Nat) : Nat :=
  (List.range (month - 1)).foldl (fun days m => days + daysIn year (m + 1)) 0

/-- The number of whole years in `days` days, the first of which is like year one, and the days
left. The last year of four, and the last century of four, are a day longer. -/
def yearsOf (days : Nat) : Nat × Nat :=
  let cycles := days / 146097
  let d := days % 146097
  let centuries := min 3 (d / 36524)
  let d := d - 36524 * centuries
  let quads := d / 1461
  let d := d % 1461
  let years := min 3 (d / 365)
  (400 * cycles + 100 * centuries + 4 * quads + years, d - 365 * years)

/-- The month, out of the given ones, in which a day of a year falls, and the day of that month. -/
def monthOf (year : Nat) : List Nat → Nat → Nat × Nat
  | [], day => (12, day + 1)
  | m :: ms, day =>
    if day < daysIn year m then (m, day + 1) else monthOf year ms (day - daysIn year m)

/-- A moment, and the offset of the zone it is shown in. -/
structure Instant where
  /-- the seconds since the start of 1970, of 64 bits -/
  seconds : Int
  /-- the nanoseconds in the second -/
  nanos : Nat
  /-- the seconds by which the zone is ahead -/
  offset : Int
  deriving DecidableEq, Repr

namespace Instant

open Numeral (isDigit ofDigits)

/-- The seconds from the start of year one to the start of 1970. -/
def epoch : Int := 62135596800

/-- The moment with a number of seconds and nanoseconds since the start of 1970. -/
def ofUnix (seconds nanos : Int) : Instant :=
  ⟨wrap64 (seconds + nanos / 1000000000), (nanos % 1000000000).toNat, 0⟩

/-- The start of year one. -/
def yearOne : Instant := ofUnix (-epoch) 0

/-! ## Reading -/

/-- A step that reads the front of a text. -/
abbrev Reader := StateT Bytes Option

/-- A number of `width` digits. -/
def digits (width : Nat) : Reader Nat := fun text =>
  let front := text.take width
  if front.length = width ∧ front.all isDigit then some (ofDigits 10 front, text.drop width)
  else none

/-- A fixed byte. -/
def mark (b : UInt8) : Reader Unit
  | c :: text => if c = b then some ((), text) else none
  | [] => none

/-- The nanoseconds behind a point or comma, if digits follow it; those after the ninth are
dropped. -/
def fraction : Reader Nat := fun text =>
  match text with
  | b :: rest =>
    let front := rest.takeWhile isDigit
    if (b = 46 ∨ b = 44) ∧ front ≠ [] then
      some (ofDigits 10 ((front ++ List.replicate 9 48).take 9), rest.dropWhile isDigit)
    else some (0, text)
  | [] => some (0, [])

/-- The offset of a zone: `Z`, or hours and minutes behind a sign. -/
def zone : Reader Int
  | 90 :: text => some (0, text)
  | b :: text =>
    let clock : Reader Int := do
      let hours ← digits 2
      mark 58
      let minutes ← digits 2
      guard (hours ≤ 24 ∧ minutes ≤ 60)
      return (hours * 60 + minutes) * 60
    if b = 43 then clock text
    else if b = 45 then (clock text).map fun r => (-r.1, r.2)
    else none
  | [] => none

/-- A date and a time with its zone; the hour may have one digit. -/
def moment : Reader Instant := do
  let year ← digits 4
  mark 45
  let month ← digits 2
  mark 45
  let day ← digits 2
  mark 84
  let hour ← digits 2 <|> digits 1
  mark 58
  let minute ← digits 2
  mark 58
  let second ← digits 2
  let nanos ← fraction
  let offset ← zone
  guard (1 ≤ month ∧ month ≤ 12 ∧ 1 ≤ day ∧ day ≤ daysIn year month)
  guard (hour < 24 ∧ minute < 60 ∧ second < 60)
  let days := daysBefore year + daysBeforeMonth year month + day - 1
  let clock : Int := hour * 3600 + minute * 60 + second
  return ⟨days * 86400 + clock - epoch - offset, nanos, offset⟩

/-- The moment that a text is. -/
def ofText? (text : Bytes) : Option Instant :=
  match moment text with
  | some (t, []) => some t
  | _ => none

/-! ## Writing -/

/-- The year before the first one that a moment can be in. -/
def yearZero : Int := -292277022400

/-- The seconds from the start of the first year to the start of 1970. -/
def unixStart : Int := 9223372028715321600

/-- A number of two digits at least. -/
def twoDigits (n : Nat) : Bytes := Numeral.zeroPad 2 (Numeral.nat n)

/-- A year of four digits at least, not counting the sign. -/
def yearText (year : Int) : Bytes :=
  (if year < 0 then utf8 "-" else []) ++ Numeral.zeroPad 4 (Numeral.nat year.natAbs)

/-- A date, by the number of days since the start of the first year. -/
def dateText (days : Nat) : Bytes :=
  let (years, day) := yearsOf days
  let (month, day) := monthOf (years + 1) ((List.range 12).map (· + 1)) day
  yearText (yearZero + years + 1) ++ utf8 "-" ++ twoDigits month ++ utf8 "-" ++ twoDigits day

/-- A time of the day, by its seconds. -/
def clockText (seconds : Nat) : Bytes :=
  twoDigits (seconds / 3600) ++ utf8 ":" ++ twoDigits (seconds / 60 % 60) ++ utf8 ":" ++
    twoDigits (seconds % 60)

/-- A fraction of a second behind a point, without zeros at the end; nothing for zero. -/
def fractionText (nanos : Nat) : Bytes :=
  if nanos = 0 then []
  else
    let digits := Numeral.zeroPad 9 (Numeral.nat nanos)
    utf8 "." ++ (digits.reverse.dropWhile (· = 48)).reverse

/-- An offset as a sign, hours and minutes. -/
def offsetText (offset : Int) : Bytes :=
  let minutes := offset.natAbs / 60
  (if offset < 0 then utf8 "-" else utf8 "+") ++ twoDigits (minutes / 60) ++
    twoDigits (minutes % 60)

/-- The name of a zone; only universal time has one, others are shown by their offset. -/
def zoneText (offset : Int) : Bytes := if offset = 0 then utf8 "UTC" else offsetText offset

/-- The moment as a date, a time, an offset and a zone. -/
def text (t : Instant) : Bytes :=
  let shown := unsigned64 (t.seconds + t.offset + unixStart)
  dateText (shown / 86400) ++ utf8 " " ++ clockText (shown % 86400) ++ fractionText t.nanos ++
    utf8 " " ++ offsetText t.offset ++ utf8 " " ++ zoneText t.offset

end Instant

end HavokScript
