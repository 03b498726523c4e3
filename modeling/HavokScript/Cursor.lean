import HavokScript.Number.Binary
import HavokScript.Text.Numeral

/-!
# Cursors

A cursor is a position in a byte string, with the byte order of multi-byte reads and a stack of
saved positions. Every operation either gives a value and the cursor after it, or an error and no
new cursor: an error changes nothing.
-/

namespace HavokScript

/-- A position in a byte string. -/
structure Cursor where
  /-- the whole byte string -/
  data : Bytes
  /-- how many bytes lie behind the cursor -/
  offset : Nat
  /-- the byte order of multi-byte reads -/
  order : ByteOrder
  /-- saved positions, the last one first -/
  saved : List Nat
  deriving DecidableEq, Repr

/-- Why a cursor operation failed. -/
inductive CursorError where
  /-- more bytes were wanted than there are, or a negative number of them -/
  | unexpectedEnd (need : Int) (offset remaining : Nat)
  /-- a position outside the byte string -/
  | badSeek (target : Int) (length : Nat)
  /-- no position was saved -/
  | emptyStack
  /-- no unsigned integer has this many bytes -/
  | unsupportedWidth (width : Int)
  deriving DecidableEq, Repr

/-- The text of an error. -/
def CursorError.message : CursorError → Bytes
  | unexpectedEnd need offset remaining =>
    utf8 "unexpected end of data: need " ++ Numeral.int need ++ utf8 " bytes at offset " ++
      Numeral.nat offset ++ utf8 ", have " ++ Numeral.nat remaining
  | badSeek target length =>
    utf8 "seek out of range: " ++ Numeral.int target ++ utf8 " (len " ++ Numeral.nat length ++
      utf8 ")"
  | emptyStack => utf8 "position stack is empty"
  | unsupportedWidth width => utf8 "unsupported integer width " ++ Numeral.int width

/-- A reading step: a value and the cursor after it, or an error. -/
abbrev Read (α : Type) := StateT Cursor (Except CursorError) α

namespace Cursor

/-- The cursor in front of a byte string. -/
def start (data : Bytes) (order : ByteOrder) : Cursor := ⟨data, 0, order, []⟩

/-- The number of bytes in front of the cursor. -/
def remaining (c : Cursor) : Nat := c.data.length - c.offset

/-! ## Moving -/

/-- The next `n` bytes. -/
def take (n : Int) : Read Bytes := fun c =>
  if n < 0 ∨ (c.remaining : Int) < n then .error (.unexpectedEnd n c.offset c.remaining)
  else .ok ((c.data.drop c.offset).take n.toNat, { c with offset := c.offset + n.toNat })

/-- Passes over `n` bytes. -/
def skip (n : Int) : Read Unit := do
  let _ ← take n

/-- Moves to a position; the end of the byte string is one. -/
def seek (target : Int) : Read Unit := fun c =>
  if target < 0 ∨ (c.data.length : Int) < target then .error (.badSeek target c.data.length)
  else .ok ((), { c with offset := target.toNat })

/-- Passes over the bytes up to the next multiple of `align`. -/
def pad (align : Int) : Read Unit := fun c =>
  if align ≤ 1 ∨ (c.offset : Int) % align = 0 then .ok ((), c)
  else skip (align - c.offset % align) c

/-- Saves the position. -/
def push : Read Unit := fun c => .ok ((), { c with saved := c.offset :: c.saved })

/-- Moves to the position saved last and forgets it. -/
def pop : Read Unit := fun c =>
  match c.saved with
  | [] => .error .emptyStack
  | offset :: saved => .ok ((), { c with offset, saved })

/-- Changes the byte order of the reads that follow. -/
def setOrder (order : ByteOrder) : Read Unit := fun c => .ok ((), { c with order })

/-! ## Reading numbers -/

/-- An unsigned integer of `width` bytes. -/
def unsigned (width : Nat) : Read Nat := do
  let bs ← take width
  let c ← get
  return bs.toNat c.order

/-- A signed integer of `width` bytes. -/
def integer (width : Nat) : Read Int := do
  return signed width (← unsigned width)

/-- An unsigned integer of one, two, four or eight bytes. -/
def sized (width : Int) : Read Nat :=
  if width = 1 ∨ width = 2 ∨ width = 4 ∨ width = 8 then unsigned width.toNat
  else fun _ => .error (.unsupportedWidth width)

end Cursor

end HavokScript
