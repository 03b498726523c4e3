import HavokScript.Payload
import HavokScript.Text.Quoted

/-!
# Constants

A constant is a type tag and a payload. A chunk only has payloads that belong to their tag; a model
that was read back from an export may have any payload under any tag.
-/

namespace HavokScript

/-- The type tag of a constant; files may hold codes without a meaning. -/
structure Tag where
  /-- the code -/
  code : UInt8
  deriving DecidableEq, Repr

namespace Tag

/-- No value. -/
def nil : Tag := ⟨0⟩

/-- A boolean. -/
def boolean : Tag := ⟨1⟩

/-- An address. -/
def lightUserdata : Tag := ⟨2⟩

/-- A number. -/
def number : Tag := ⟨3⟩

/-- A string. -/
def string : Tag := ⟨4⟩

/-- An unsigned 64-bit integer. -/
def ui64 : Tag := ⟨11⟩

/-- The names of the type tags, in the order of their codes. -/
def names : List String :=
  ["TNIL", "TBOOLEAN", "TLIGHTUSERDATA", "TNUMBER", "TSTRING", "TTABLE", "TFUNCTION", "TUSERDATA",
   "TTHREAD", "TIFUNCTION", "TCFUNCTION", "TUI64", "TSTRUCT"]

/-- The name of a type tag. -/
def name (t : Tag) : Bytes :=
  match names[t.code.toNat]? with
  | some n => utf8 n
  | none => utf8 "Type(" ++ Numeral.nat t.code.toNat ++ utf8 ")"

end Tag

/-- An entry of the constants of a prototype. -/
structure Constant where
  /-- the type tag -/
  tag : Tag
  /-- the payload -/
  payload : Payload
  deriving Repr

namespace Constant

/-- The string of a string constant. -/
def string? (c : Constant) : Option Bytes :=
  match c.payload with
  | .string s => if c.tag = .string then some s else none
  | _ => none

/-- The string of a constant; empty unless it is a string constant. -/
def stringOrEmpty (c : Constant) : Bytes := c.string?.getD []

/-- Whether the payload is the boolean true. -/
def isTrue (c : Constant) : Bool :=
  match c.payload with
  | .bool b => b
  | _ => false

/-- The constant as a listing shows it. -/
def text (c : Constant) : Bytes :=
  if c.tag = .nil then utf8 "nil"
  else if c.tag = .boolean then if c.isTrue then utf8 "true" else utf8 "false"
  else if c.tag = .string then Quoted.quote c.stringOrEmpty
  else if c.tag = .lightUserdata ∨ c.tag = .ui64 then
    c.tag.name ++ utf8 "(" ++ c.payload.integerText ++ utf8 ")"
  else c.payload.text

end Constant

end HavokScript
