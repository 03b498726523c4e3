import HavokScript.Bytes

/-!
# Quoted strings

A string literal of the script language: the bytes between double quotes, with a backslash in front
of every backslash and double quote. `unquote` is the left-to-right scan that undoes it.
-/

namespace HavokScript.Quoted

/-- The byte of `"`. -/
def quoteMark : UInt8 := 34

/-- The byte of a backslash. -/
def backslash : UInt8 := 92

/-- The bytes between the quotes. -/
def escape : Bytes → Bytes
  | [] => []
  | b :: bs =>
    if b = quoteMark ∨ b = backslash then backslash :: b :: escape bs else b :: escape bs

/-- A string literal. -/
def quote (s : Bytes) : Bytes := quoteMark :: (escape s ++ [quoteMark])

/-- The bytes up to the first quote that no backslash escapes, and what follows that quote. -/
def unescape : Bytes → Option (Bytes × Bytes)
  | [] => none
  | [b] => if b = quoteMark then some ([], []) else none
  | b :: c :: rest =>
    if b = quoteMark then some ([], c :: rest)
    else if b = backslash then (unescape rest).map fun r => (c :: r.1, r.2)
    else (unescape (c :: rest)).map fun r => (b :: r.1, r.2)

/-- The string a literal at the front of the input stands for, and what follows the literal. -/
def unquote : Bytes → Option (Bytes × Bytes)
  | [] => none
  | b :: bs => if b = quoteMark then unescape bs else none

end HavokScript.Quoted
