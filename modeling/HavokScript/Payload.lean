import HavokScript.Instant
import HavokScript.Number.Decimal

/-!
# Payloads

The value of a constant. A chunk has only nothing, booleans, numbers and strings; an export may hold
any CBOR value, which then is the payload.

* `Payload.text` shows a payload as plain text, `Payload.integerText` where an integer is asked for;
* `Payload.insertEntry` keeps the entries of a map in the order of their keys.
-/

namespace HavokScript

/-- The payload of a constant. -/
inductive Payload where
  /-- nothing -/
  | nil
  /-- a boolean -/
  | bool (value : Bool)
  /-- an unsigned 64-bit integer -/
  | unsigned (value : UInt64)
  /-- a signed 64-bit integer -/
  | signed (value : Int64)
  /-- a floating point number -/
  | float (value : Double)
  /-- a string -/
  | string (value : Bytes)
  /-- a byte string, which is not text -/
  | bytes (value : Bytes)
  /-- a simple value without a meaning -/
  | simple (code : UInt8)
  /-- an integer of any size -/
  | big (value : Int)
  /-- a moment -/
  | instant (value : Instant)
  /-- a list -/
  | list (items : List Payload)
  /-- a map, in the order of its keys -/
  | map (entries : List (Payload × Payload))
  /-- a payload with a tag in front -/
  | tagged (tag : UInt64) (content : Payload)
  deriving Repr

namespace Payload

/-! ## Text -/

/-- Words in brackets. -/
def bracketed (words : List Bytes) : Bytes := utf8 "[" ++ Bytes.join (utf8 " ") words ++ utf8 "]"

/-- Words in braces. -/
def braced (words : List Bytes) : Bytes :=
  utf8 "\x7b" ++ Bytes.join (utf8 " ") words ++ utf8 "\x7d"

/-- A boolean. -/
def boolText (b : Bool) : Bytes := if b then utf8 "true" else utf8 "false"

/-- The digits of a natural number to the base `2 ^ 64`, least significant first; zero has none. -/
def limbText (n : Nat) : Bytes :=
  bracketed
    (if n = 0 then [] else (Numeral.digits 0x10000000000000000 n).reverse.map Numeral.nat)

/-- An integer of any size: whether it is negative, and its digits to the base `2 ^ 64`. -/
def bigText (i : Int) : Bytes := braced [boolText (i < 0), limbText i.natAbs]

/-- The text of a payload without parts; `nested` is for those with parts. -/
def leafText : Payload → Bytes
  | nil => utf8 "<nil>"
  | bool value => boolText value
  | unsigned value => Numeral.nat value.toNat
  | signed value => Numeral.int value.toInt
  | float value => Decimal.ofDouble value
  | string value => value
  | bytes value => bracketed (value.map fun b => Numeral.nat b.toNat)
  | simple code => Numeral.nat code.toNat
  | big value => bigText value
  | instant value => value.text
  | list _ | map _ | tagged _ _ => []

/-- A value that is no integer, shown as a mistake. -/
def mistake (kind : String) (shown : Bytes) : Bytes :=
  utf8 "%!d(" ++ utf8 kind ++ utf8 "=" ++ shown ++ utf8 ")"

/-- The text of a payload without parts where an integer is asked for. -/
def leafIntegerText : Payload → Bytes
  | bool value => mistake "bool" (boolText value)
  | float value => mistake "float64" (Decimal.ofDouble value)
  | string value => mistake "string" value
  | big value => braced [mistake "big.Int" (bigText value), limbText value.natAbs]
  | instant value =>
    braced [Numeral.nat value.nanos, Numeral.int (wrap64 (value.seconds + Instant.epoch)),
      utf8 "0"]
  | p => leafText p

mutual

/-- The text of a payload, given that of payloads without parts. -/
def nested (leaf : Payload → Bytes) : Payload → Bytes
  | list items => bracketed (nestedItems leaf items)
  | map entries => utf8 "map" ++ bracketed (nestedEntries leaf entries)
  | tagged tag content => braced [Numeral.nat tag.toNat, nested leaf content]
  | p => leaf p

/-- The texts of the items of a list. -/
def nestedItems (leaf : Payload → Bytes) : List Payload → List Bytes
  | [] => []
  | p :: ps => nested leaf p :: nestedItems leaf ps

/-- The texts of the entries of a map. -/
def nestedEntries (leaf : Payload → Bytes) : List (Payload × Payload) → List Bytes
  | [] => []
  | (k, v) :: es => (nested leaf k ++ utf8 ":" ++ nested leaf v) :: nestedEntries leaf es

end

/-- The payload as plain text. -/
def text (p : Payload) : Bytes := nested leafText p

/-- The payload where an integer is asked for; other payloads, and others inside of it, are shown as
mistakes. -/
def integerText : Payload → Bytes
  | nil => utf8 "%!d(<nil>)"
  | p => nested leafIntegerText p

/-! ## Numbers -/

/-- The number nearest to a numeric payload. -/
def float? : Payload → Option Double
  | float value => some value
  | signed value => some (Double.ofInt value.toInt)
  | unsigned value => some (Double.ofInt value.toNat)
  | _ => none

/-! ## Keys of maps -/

/-- Whether the payload can be a key. -/
def isKey : Payload → Bool
  | bytes _ | big _ | list _ | map _ => false
  | tagged _ content => content.isKey
  | _ => true

/-- The place of the kind of a payload among the kinds of keys. -/
def kindRank : Payload → Nat
  | nil => 0
  | bool _ => 1
  | float _ => 2
  | signed _ => 3
  | string _ => 4
  | unsigned _ => 5
  | simple _ => 6
  | tagged _ _ => 7
  | instant _ => 8
  | bytes _ | big _ | list _ | map _ => 9

/-- The order of keys: by kind, then by value. -/
def order : Payload → Payload → Ordering
  | bool a, bool b => compare a.toNat b.toNat
  | float a, float b => compare a.rank b.rank
  | signed a, signed b => compare a.toInt b.toInt
  | string a, string b => compareOfLessAndEq a b
  | unsigned a, unsigned b => compare a.toNat b.toNat
  | simple a, simple b => compare a.toNat b.toNat
  | tagged s a, tagged t b => (compare s.toNat t.toNat).then (order a b)
  | instant a, instant b =>
    (compare a.nanos b.nanos).then ((compare a.seconds b.seconds).then (compare a.offset b.offset))
  | a, b => compare a.kindRank b.kindRank

/-- The entries of a map with a value for a key. -/
def insertEntry (key value : Payload) : List (Payload × Payload) → List (Payload × Payload)
  | [] => [(key, value)]
  | e :: es =>
    match order key e.1 with
    | .lt => (key, value) :: e :: es
    | .eq => (key, value) :: es
    | .gt => e :: insertEntry key value es

end Payload

end HavokScript
