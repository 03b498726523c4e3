import HavokScript.Bytes

/-!
# UTF-8

Byte strings as sequences of characters. A byte that starts no well-formed sequence (overlong
forms, surrogates and values above U+10FFFF included) stands for itself as a stray byte.
-/

namespace HavokScript.Utf8

/-- One step of a scan: a character with its bytes, or a stray byte. -/
inductive Piece where
  /-- a well-formed sequence and its code point -/
  | char (code : Nat) (raw : Bytes)
  /-- a byte that starts no well-formed sequence -/
  | stray (byte : UInt8)
  deriving DecidableEq, Repr

namespace Piece

/-- The bytes the piece was read from. -/
def raw : Piece → Bytes
  | char _ bs => bs
  | stray b => [b]

/-- Whether the piece is a character. -/
def isChar : Piece → Bool
  | char .. => true
  | stray _ => false

end Piece

/-- The payload of a continuation byte. -/
def tail? (b : UInt8) (low high : Nat) : Option Nat :=
  if low ≤ b.toNat ∧ b.toNat ≤ high then some (b.toNat % 64) else none

/-- The bounds of the second byte of a three-byte sequence. -/
def secondOfThree (lead : Nat) : Nat × Nat :=
  if lead = 0xE0 then (0xA0, 0xBF) else if lead = 0xED then (0x80, 0x9F) else (0x80, 0xBF)

/-- The bounds of the second byte of a four-byte sequence. -/
def secondOfFour (lead : Nat) : Nat × Nat :=
  if lead = 0xF0 then (0x90, 0xBF) else if lead = 0xF4 then (0x80, 0x8F) else (0x80, 0xBF)

/-- The multi-byte character that starts with `lead` and goes on in `rest`, and what follows it. -/
def multi? (lead : UInt8) (rest : Bytes) : Option (Piece × Bytes) :=
  let n := lead.toNat
  if 0xC2 ≤ n ∧ n ≤ 0xDF then
    match rest with
    | b :: rest => do
      let x ← tail? b 0x80 0xBF
      return (.char ((n % 32) * 64 + x) [lead, b], rest)
    | [] => none
  else if 0xE0 ≤ n ∧ n ≤ 0xEF then
    match rest with
    | b :: c :: rest => do
      let x ← tail? b (secondOfThree n).1 (secondOfThree n).2
      let y ← tail? c 0x80 0xBF
      return (.char (((n % 16) * 64 + x) * 64 + y) [lead, b, c], rest)
    | _ => none
  else if 0xF0 ≤ n ∧ n ≤ 0xF4 then
    match rest with
    | b :: c :: d :: rest => do
      let x ← tail? b (secondOfFour n).1 (secondOfFour n).2
      let y ← tail? c 0x80 0xBF
      let z ← tail? d 0x80 0xBF
      return (.char ((((n % 8) * 64 + x) * 64 + y) * 64 + z) [lead, b, c, d], rest)
    | _ => none
  else none

/-- The first piece of a byte string that starts with `lead`, and what follows it. -/
def first (lead : UInt8) (rest : Bytes) : Piece × Bytes :=
  if lead.toNat < 0x80 then (.char lead.toNat [lead], rest)
  else (multi? lead rest).getD (.stray lead, rest)

/-- At most `fuel` pieces of a byte string. -/
def scanAux : Nat → Bytes → List Piece
  | 0, _ => []
  | _, [] => []
  | fuel + 1, b :: bs =>
    let (piece, rest) := first b bs
    piece :: scanAux fuel rest

/-- The pieces of a byte string, in order. -/
def scan (bs : Bytes) : List Piece := scanAux bs.length bs

/-- Whether a byte string is well-formed UTF-8. -/
def isValid (bs : Bytes) : Bool := (scan bs).all Piece.isChar

/-- The UTF-8 bytes of a code point below U+110000. -/
def encode (code : Nat) : Bytes :=
  if code < 0x80 then [code.toUInt8]
  else if code < 0x800 then [(0xC0 + code / 64).toUInt8, (0x80 + code % 64).toUInt8]
  else if code < 0x10000 then
    [(0xE0 + code / 4096).toUInt8, (0x80 + code / 64 % 64).toUInt8, (0x80 + code % 64).toUInt8]
  else
    [(0xF0 + code / 262144).toUInt8, (0x80 + code / 4096 % 64).toUInt8,
      (0x80 + code / 64 % 64).toUInt8, (0x80 + code % 64).toUInt8]

end HavokScript.Utf8
