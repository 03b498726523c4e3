import HavokScript.Text.Numeral
import HavokScript.Text.Printable
import HavokScript.Text.Utf8

/-!
# Escaped texts

One-line texts for outlines and messages: double quotes around the characters, with escapes for
quotes, backslashes, control characters, stray bytes and characters that are not printable. A
single character stands between single quotes.
-/

namespace HavokScript.Escaped

/-- The letter after the backslash for a character that has a short escape. -/
def short? (code : Nat) : Option Bytes :=
  if code = 7 then some (utf8 "a")
  else if code = 8 then some (utf8 "b")
  else if code = 9 then some (utf8 "t")
  else if code = 10 then some (utf8 "n")
  else if code = 11 then some (utf8 "v")
  else if code = 12 then some (utf8 "f")
  else if code = 13 then some (utf8 "r")
  else if code = 34 then some (utf8 "\"")
  else if code = 92 then some (utf8 "\\")
  else none

/-- One character or stray byte as it stands between the quotes. -/
def piece : Utf8.Piece → Bytes
  | .stray b => utf8 "\\x" ++ Numeral.lowerHex 2 b.toNat
  | .char code raw =>
    match short? code with
    | some letter => utf8 "\\" ++ letter
    | none =>
      if Printable.contains code then raw
      else if code < 0x80 then utf8 "\\x" ++ Numeral.lowerHex 2 code
      else if code < 0x10000 then utf8 "\\u" ++ Numeral.lowerHex 4 code
      else utf8 "\\U" ++ Numeral.lowerHex 8 code

/-- The escaped text of a byte string. -/
def text (s : Bytes) : Bytes := utf8 "\"" ++ (Utf8.scan s).flatMap piece ++ utf8 "\""

/-- One character in single quotes. -/
def character (code : Nat) : Bytes :=
  let inner :=
    if code = 39 then utf8 "\\'"
    else if code = 34 then utf8 "\""
    else piece (.char code (Utf8.encode code))
  utf8 "'" ++ inner ++ utf8 "'"

end HavokScript.Escaped
