import HavokScript.Cursor

/-!
# Sessions

A session is one byte string and one operation after the other on it, going on after failures. It
has what a `Cursor` has, but its positions are 64-bit integers, and so are the lengths and positions
that callers ask for: sums wrap around, and asking for a part of the byte string that there is not
crashes. A failure does not take back what the operation did before.
-/

namespace HavokScript

/-- A position in a byte string, as a 64-bit integer. -/
structure Session where
  /-- the whole byte string -/
  data : Bytes
  /-- how many bytes lie behind the position -/
  offset : Int64
  /-- the byte order of multi-byte reads -/
  order : ByteOrder
  /-- saved positions, the last one first -/
  saved : List Int64
  deriving DecidableEq, Repr

namespace Session

/-- A step: a value or a failure with the session behind it, or nothing at all after a crash. -/
abbrev Step (α : Type) := ExceptT CursorError (StateT Session Option) α

/-- The session in front of a byte string; little-endian if there is no order. -/
def start (data : Bytes) (order : Option ByteOrder) : Session :=
  ⟨data, 0, order.getD .little, []⟩

/-- The number of all bytes. -/
def length (s : Session) : Int64 := .ofNat s.data.length

/-- The number of bytes in front of the position. -/
def remaining (s : Session) : Int64 := s.length - s.offset

/-- The bytes from one position up to another, if these are two positions in this order. -/
def part? (s : Session) (first last : Int64) : Option Bytes :=
  if 0 ≤ first ∧ first ≤ last ∧ last ≤ s.length then
    some ((s.data.take last.toNatClampNeg).drop first.toNatClampNeg)
  else none

/-! ## Moving -/

/-- The next `n` bytes. -/
def take (n : Int64) : Step Bytes := do
  let s ← get
  if n < 0 ∨ s.remaining < n then
    throw (.unexpectedEnd n.toInt s.offset.toNatClampNeg s.remaining.toNatClampNeg)
  let bs ← s.part? s.offset (s.offset + n)
  set { s with offset := s.offset + n }
  return bs

/-- Passes over `n` bytes. -/
def skip (n : Int64) : Step Unit := do
  let _ ← take n

/-- Moves to a position; the end of the byte string is one. -/
def seek (target : Int64) : Step Unit := do
  let s ← get
  if target < 0 ∨ s.length < target then throw (.badSeek target.toInt s.data.length)
  set { s with offset := target }

/-- Passes over the bytes up to the next multiple of `align`. -/
def pad (align : Int64) : Step Unit := do
  if align ≤ 1 then return
  let s ← get
  let past := s.offset % align
  if past = 0 then return
  skip (align - past)

/-- Saves the position. -/
def push : Step Unit := modify fun s => { s with saved := s.offset :: s.saved }

/-- Moves to the position saved last and forgets it. -/
def pop : Step Unit := do
  let s ← get
  match s.saved with
  | [] => throw .emptyStack
  | offset :: saved => set { s with offset, saved }

/-- Changes the byte order of the reads that follow. -/
def setOrder (order : ByteOrder) : Step Unit := modify fun s => { s with order }

/-! ## Reading numbers -/

/-- How many bytes an integer can have. -/
inductive Width where
  | one | two | four | eight
  deriving DecidableEq, Repr

/-- The number of bytes. -/
def Width.bytes : Width → Nat
  | one => 1
  | two => 2
  | four => 4
  | eight => 8

/-- The numbers of a fixed width. -/
inductive Number where
  /-- an unsigned integer -/
  | unsigned (width : Width)
  /-- a signed integer -/
  | signed (width : Width)
  /-- a floating point number of four bytes -/
  | single
  /-- a floating point number of eight bytes -/
  | double
  deriving DecidableEq, Repr

/-- What an operation gives. -/
inductive Value where
  /-- nothing -/
  | nothing
  /-- an integer -/
  | integer (value : Int)
  /-- a floating point number by its bits -/
  | float (format : Format) (bits : Nat)
  /-- bytes -/
  | bytes (bs : Bytes)
  deriving DecidableEq, Repr

namespace Number

/-- The number of bytes. -/
def width : Number → Nat
  | unsigned w | signed w => w.bytes
  | single => 4
  | double => 8

/-- The number that bytes stand for in a byte order. -/
def value (k : Number) (order : ByteOrder) (bs : Bytes) : Value :=
  match k with
  | unsigned _ => .integer (bs.toNat order)
  | signed w => .integer (HavokScript.signed w.bytes (bs.toNat order))
  | single => .float .single (bs.toNat order)
  | double => .float .double (bs.toNat order)

end Number

/-- A number of a fixed width. -/
def number (k : Number) : Step Value := do
  let bs ← take (.ofNat k.width)
  let s ← get
  return k.value s.order bs

/-- The unsigned integers by their width. -/
def Width.ofInt64? (n : Int64) : Option Width :=
  if n = 1 then some .one
  else if n = 2 then some .two
  else if n = 4 then some .four
  else if n = 8 then some .eight
  else none

/-- An unsigned integer of one, two, four or eight bytes. -/
def sized (width : Int64) : Step Value :=
  match Width.ofInt64? width with
  | some w => number (.unsigned w)
  | none => throw (.unsupportedWidth width.toInt)

/-! ## Operations -/

/-- An operation on a session. -/
inductive Operation where
  /-- reads a number of a fixed width -/
  | number (k : Number)
  /-- reads an unsigned integer of a width that is asked for -/
  | sized (width : Int64)
  /-- reads bytes -/
  | bytes (n : Int64)
  /-- reads bytes as a text -/
  | string (n : Int64)
  /-- moves to a position -/
  | seek (target : Int64)
  /-- passes over bytes -/
  | skip (n : Int64)
  /-- passes over the bytes up to a multiple -/
  | pad (align : Int64)
  /-- saves the position -/
  | push
  /-- moves back to the saved position -/
  | pop
  /-- changes the byte order -/
  | setOrder (order : ByteOrder)
  deriving DecidableEq, Repr

/-- What an operation does. -/
def Operation.perform : Operation → Step Value
  | number k => Session.number k
  | sized width => Session.sized width
  | bytes n | string n => do return .bytes (← take n)
  | seek target => do
    Session.seek target
    return .nothing
  | skip n => do
    Session.skip n
    return .nothing
  | pad align => do
    Session.pad align
    return .nothing
  | push => do
    Session.push
    return .nothing
  | pop => do
    Session.pop
    return .nothing
  | setOrder order => do
    Session.setOrder order
    return .nothing

/-- The session after an operation, whether it failed or not. -/
def after (s : Session) (op : Operation) : Option Session := (op.perform s).map Prod.snd

/-- The session after operations, one after the other. -/
def run (ops : List Operation) (s : Session) : Option Session := ops.foldlM after s

end Session

end HavokScript
