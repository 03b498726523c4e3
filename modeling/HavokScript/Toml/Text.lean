import HavokScript.Text.Utf8

/-!
# Quoted texts of TOML

A basic text stands between double quotes and has escapes; a literal text stands between single
quotes and has none. Tripled quotes allow line breaks: a break right after the opening is dropped,
and up to two quotes may stand in front of the closing ones. In a basic text over several lines a
backslash at the end of a line joins it with the next one that is not blank.

Every reader starts behind the opening quotes and gives the text and the rest of the input.
-/

namespace HavokScript.Toml

/-- A reader takes a value off the front of the input, or refuses. -/
abbrev Scan := StateT Bytes Option

/-- A space or a tab. -/
def isBlank (b : UInt8) : Bool := b = 32 || b = 9

/-- A byte of a line break. -/
def isBreak (b : UInt8) : Bool := b = 10 || b = 13

/-- The double quote. -/
def doubleQuote : UInt8 := 34

/-- The single quote. -/
def singleQuote : UInt8 := 39

/-- The backslash. -/
def backslash : UInt8 := 92

/-! ## Escapes -/

/-- The value of a hexadecimal digit. -/
def hexDigit? (b : UInt8) : Option Nat :=
  let n := b.toNat
  if 48 ≤ n ∧ n ≤ 57 then some (n - 48)
  else if 65 ≤ n ∧ n ≤ 70 then some (n - 55)
  else if 97 ≤ n ∧ n ≤ 102 then some (n - 87)
  else none

/-- The number with the given hexadecimal digits. -/
def hexNumber? (digits : Bytes) : Option Nat :=
  digits.foldlM (fun n b => do return n * 16 + (← hexDigit? b)) 0

/-- Whether a number is the code point of a character. -/
def isCharacter (code : Nat) : Bool := code < 0xD800 || (0xE000 ≤ code && code < 0x110000)

/-- The character whose code point has `width` hexadecimal digits in front of the input. -/
def codePoint? (width : Nat) (input : Bytes) : Option (Bytes × Bytes) := do
  guard (width ≤ input.length)
  let code ← hexNumber? (input.take width)
  guard (isCharacter code)
  return (Utf8.encode code, input.drop width)

/-- The text of an escape, read behind its backslash. -/
def escape? : Bytes → Option (Bytes × Bytes)
  | [] => none
  | b :: input =>
    match Char.ofNat b.toNat with
    | 'b' => some ([8], input)
    | 't' => some ([9], input)
    | 'n' => some ([10], input)
    | 'f' => some ([12], input)
    | 'r' => some ([13], input)
    | 'e' => some ([27], input)
    | '"' => some ([doubleQuote], input)
    | '\\' => some ([backslash], input)
    | 'x' => codePoint? 2 input
    | 'u' => codePoint? 4 input
    | 'U' => codePoint? 8 input
    | _ => none

/-! ## Texts on one line -/

/-- A basic text of at most `fuel` pieces. -/
def basicAux : Nat → Bytes → Option (Bytes × Bytes)
  | fuel + 1, b :: input =>
    if b = doubleQuote then some ([], input)
    else if b = backslash then do
      let (piece, input) ← escape? input
      let (text, input) ← basicAux fuel input
      return (piece ++ text, input)
    else if isBreak b then none
    else do
      let (text, input) ← basicAux fuel input
      return (b :: text, input)
  | _, _ => none

/-- A basic text. -/
def basic : Scan Bytes := fun input => basicAux input.length input

/-- A literal text. -/
def literal : Scan Bytes := fun input =>
  match input.dropWhile fun b => b ≠ singleQuote && !isBreak b with
  | [] => none
  | b :: rest =>
    if b = singleQuote then some (input.takeWhile fun b => b ≠ singleQuote && !isBreak b, rest)
    else none

/-! ## Texts over several lines -/

/-- The number of equal bytes in front of the input. -/
def run (b : UInt8) (input : Bytes) : Nat := (input.takeWhile (· = b)).length

/-- The input without a line break in front. -/
def dropBreak : Bytes → Bytes
  | 10 :: input => input
  | 13 :: 10 :: input => input
  | input => input

/-- The input behind a line end and all blanks and breaks around it, if the line ends there. -/
def joinLines? (input : Bytes) : Option Bytes :=
  let isGap (b : UInt8) : Bool := isBlank b || isBreak b
  if (input.takeWhile isGap).contains 10 then some (input.dropWhile isGap) else none

/-- A basic text over several lines of at most `fuel` pieces. At most `spare` quotes in front of the
closing ones belong to it: two, and three behind an escaped backslash. -/
def multiBasicAux : Nat → Nat → Bytes → Option (Bytes × Bytes)
  | fuel + 1, spare, b :: input =>
    let quotes := run doubleQuote (b :: input)
    if 3 ≤ quotes then
      if quotes ≤ 3 + spare then
        some (List.replicate (quotes - 3) doubleQuote, (b :: input).drop quotes)
      else none
    else if b = backslash then
      match joinLines? input with
      | some input => multiBasicAux fuel 2 input
      | none => do
        let (piece, rest) ← escape? input
        let (text, rest) ← multiBasicAux fuel (if input.head? = some backslash then 3 else 2) rest
        return (piece ++ text, rest)
    else do
      let (text, input) ← multiBasicAux fuel 2 input
      return (b :: text, input)
  | _, _, _ => none

/-- A basic text over several lines. -/
def multiBasic : Scan Bytes := fun input =>
  let input := dropBreak input
  multiBasicAux input.length 2 input

/-- The rest of a literal text over several lines. -/
def multiLiteralRest : Bytes → Option (Bytes × Bytes)
  | [] => none
  | b :: input =>
    let quotes := run singleQuote (b :: input)
    if 3 ≤ quotes then
      if quotes ≤ 5 then
        some (List.replicate (quotes - 3) singleQuote, (b :: input).drop quotes)
      else none
    else do
      let (text, input) ← multiLiteralRest input
      return (b :: text, input)

/-- A literal text over several lines. -/
def multiLiteral : Scan Bytes := fun input => multiLiteralRest (dropBreak input)

end HavokScript.Toml
