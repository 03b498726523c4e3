import HavokScript.Bytes

/-!
# Integer literals

Integers of 64 bits as they are written on the command line: an optional sign, then decimal digits,
or octal digits behind a zero, or digits behind `0x`, `0o` or `0b`. Single underscores may stand
between digits and behind the letter of the base.
-/

namespace HavokScript.Integer

/-- Why a text is no integer. -/
inductive Fault where
  /-- the text is malformed -/
  | malformed
  /-- the number does not have 64 bits -/
  | tooLarge
  deriving DecidableEq, Repr

/-- The value of a digit or a letter. -/
def digit? (b : UInt8) : Option Nat :=
  let n := b.toNat
  if 48 ≤ n ∧ n ≤ 57 then some (n - 48)
  else if 65 ≤ n ∧ n ≤ 90 then some (n - 55)
  else if 97 ≤ n ∧ n ≤ 122 then some (n - 87)
  else none

/-- The number with the given digits behind `n`. A number that gets too large is reported before
what follows is looked at. -/
def readDigits (base : Nat) : Nat → Bytes → Except Fault Nat
  | n, [] => .ok n
  | n, b :: bs =>
    if b = 95 then readDigits base n bs
    else match digit? b with
      | none => .error .malformed
      | some d =>
        if base ≤ d then .error .malformed
        else if 0x10000000000000000 ≤ n * base + d then .error .tooLarge
        else readDigits base (n * base + d) bs

/-- Whether every underscore has a digit on both sides; `after` tells whether one comes first. -/
def isGrouped (after : Bool) : Bytes → Bool
  | [] => true
  | b :: bs => if b = 95 then after && !bs.isEmpty && isGrouped false bs else isGrouped true bs

/-- An unsigned integer with the given base, grouped by underscores. -/
def readBased (base : Nat) (marked : Bool) (body : Bytes) : Except Fault Nat := do
  let n ← readDigits base 0 body
  if isGrouped marked body then return n else throw .malformed

/-- An unsigned integer. -/
def readUnsigned : Bytes → Except Fault Nat
  | [] => .error .malformed
  | 48 :: mark :: b :: bs =>
    if mark = 120 ∨ mark = 88 then readBased 16 true (b :: bs)
    else if mark = 111 ∨ mark = 79 then readBased 8 true (b :: bs)
    else if mark = 98 ∨ mark = 66 then readBased 2 true (b :: bs)
    else readBased 8 true (mark :: b :: bs)
  | 48 :: bs => readBased 8 true bs
  | bs => readBased 10 false bs

/-- A signed integer. -/
def read (text : Bytes) : Except Fault Int := do
  let (negative, body) := match text with
    | 45 :: body => (true, body)
    | 43 :: body => (false, body)
    | body => (false, body)
  let n ← readUnsigned body
  if negative then
    if n ≤ 0x8000000000000000 then return -(n : Int) else throw .tooLarge
  else if n < 0x8000000000000000 then return n
  else throw .tooLarge

end HavokScript.Integer
