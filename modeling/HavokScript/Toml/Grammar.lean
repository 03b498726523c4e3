import HavokScript.Toml.Scalar
import HavokScript.Toml.Text

/-!
# The statements of a TOML file

A file is a sequence of statements, each on a line of its own: a header that opens a table, a header
that opens one more element of an array of tables, or a key with a value. Keys are dotted paths.
Line breaks, comments and a comma at the end are allowed inside arrays and inline tables.

`Toml.statements?` accepts exactly the well-formed files; what the statements mean together, and
which of them may not stand together, is told by the document.
-/

namespace HavokScript.Toml

open Numeral (isDigit)

/-- A value as it is written. -/
inductive Literal where
  /-- a quoted text -/
  | string (text : Bytes)
  /-- an integer -/
  | integer (value : Int)
  /-- a truth value -/
  | boolean (value : Bool)
  /-- a floating point number, as written -/
  | float (word : Bytes)
  /-- a date, a time or both, as written -/
  | moment (word : Bytes)
  /-- an array -/
  | array (items : List Literal)
  /-- a table in braces: dotted keys and their values -/
  | inline (entries : List (List Bytes × Literal))
  deriving Repr

/-- A line of a file. -/
inductive Statement where
  /-- `[path]` -/
  | table (path : List Bytes)
  /-- `[[path]]` -/
  | element (path : List Bytes)
  /-- `path = value` -/
  | entry (path : List Bytes) (value : Literal)
  deriving Repr

/-! ## Bytes, blanks and comments -/

/-- Takes the byte `b` if it comes next. -/
def accept (b : UInt8) : Scan Bool := fun
  | c :: input => if c = b then some (true, input) else some (false, c :: input)
  | [] => some (false, [])

/-- Takes the byte `b`, which has to come next. -/
def expect (b : UInt8) : Scan Unit := do guard (← accept b)

/-- The longest word of bytes with a property. -/
def word (p : UInt8 → Bool) : Scan Bytes := fun input => some (input.takeWhile p, input.dropWhile p)

/-- Skips spaces and tabs. -/
def skipBlanks : Scan Unit := modify (·.dropWhile isBlank)

/-- The input without the blanks, line breaks and comments in front. -/
def dropGap (inComment : Bool) : Bytes → Bytes
  | [] => []
  | b :: input =>
    if inComment then dropGap (b ≠ 10) input
    else if isBlank b || isBreak b then dropGap false input
    else if b = 35 then dropGap true input
    else b :: input

/-- Skips blanks, line breaks and comments. -/
def skipGap : Scan Unit := modify (dropGap false)

/-! ## Keys -/

/-- A byte of a key without quotes. -/
def isBare (b : UInt8) : Bool :=
  isDigit b || (65 ≤ b && b ≤ 90) || (97 ≤ b && b ≤ 122) || b = 95 || b = 45

/-- One part of a key. -/
def keyPart : Scan Bytes := do
  if ← accept doubleQuote then basic
  else if ← accept singleQuote then literal
  else
    let part ← word isBare
    guard (part ≠ [])
    return part

/-- A dotted key of at most `fuel` parts. -/
def pathAux : Nat → Scan (List Bytes)
  | 0 => failure
  | fuel + 1 => do
    skipBlanks
    let part ← keyPart
    skipBlanks
    if ← accept 46 then return part :: (← pathAux fuel) else return [part]

/-- A dotted key. -/
def path : Scan (List Bytes) := do pathAux (← get).length

/-! ## Values -/

/-- The number, date or truth value that a word is. -/
def scalar? (w : Bytes) : Option Literal :=
  if w = utf8 "true" then some (.boolean true)
  else if w = utf8 "false" then some (.boolean false)
  else match integer? w with
    | some i => some (.integer i)
    | none => if isFloat w then some (.float w) else none

/-- A byte of a number or a truth value. -/
def isWordByte (b : UInt8) : Bool := isBare b || b = 43 || b = 46

/-- A byte of a date and time, which may have a space in between. -/
def isMomentByte (b : UInt8) : Bool :=
  isDigit b || [45, 58, 84, 116, 32, 46, 90, 122, 43].contains b

/-- Whether a date or time comes next: digits, and a dash or a colon. -/
def startsMoment (input : Bytes) : Bool :=
  match input.takeWhile isDigit, input.dropWhile isDigit with
  | [], _ => false
  | _, b :: _ => b = 45 || b = 58
  | _, [] => false

/-- A value without quotes and brackets. -/
def scalar : Scan Literal := do
  if startsMoment (← get) then
    let w := ((← word isMomentByte).reverse.dropWhile isBlank).reverse
    guard (isMoment w)
    return .moment w
  else StateT.lift (scalar? (← word isWordByte))

/-- A quoted text, if one comes next. -/
def quoted : Scan (Option Bytes) := do
  let input ← get
  if 3 ≤ run doubleQuote input then
    set (input.drop 3)
    return some (← multiBasic)
  else if 3 ≤ run singleQuote input then
    set (input.drop 3)
    return some (← multiLiteral)
  else if ← accept doubleQuote then return some (← basic)
  else if ← accept singleQuote then return some (← literal)
  else return none

mutual

/-- A value; `fuel` bounds the nesting and the number of items. -/
def value : Nat → Scan Literal
  | 0 => failure
  | fuel + 1 => do
    skipBlanks
    if ← accept 91 then return .array (← items fuel)
    else if ← accept 123 then return .inline (← entries fuel)
    else match ← quoted with
      | some text => return .string text
      | none => scalar

/-- The items of an array and its closing bracket. -/
def items : Nat → Scan (List Literal)
  | 0 => failure
  | fuel + 1 => do
    skipGap
    if ← accept 93 then return []
    let item ← value fuel
    skipGap
    if ← accept 44 then return item :: (← items fuel)
    expect 93
    return [item]

/-- The entries of an inline table and its closing brace. -/
def entries : Nat → Scan (List (List Bytes × Literal))
  | 0 => failure
  | fuel + 1 => do
    skipGap
    if ← accept 125 then return []
    let key ← path
    expect 61
    let item ← value fuel
    skipGap
    if ← accept 44 then return (key, item) :: (← entries fuel)
    expect 125
    return [(key, item)]

end

/-! ## Statements -/

/-- One statement. -/
def statement : Scan Statement := do
  if ← accept 91 then
    if ← accept 91 then
      let key ← path
      expect 93
      expect 93
      return .element key
    else
      let key ← path
      expect 93
      return .table key
  else
    let key ← path
    expect 61
    return .entry key (← value (2 * (← get).length + 2))

/-- The end of a line: only blanks and a comment may follow. -/
def endOfLine : Scan Unit := do
  skipBlanks
  match (← get).head? with
  | none => return
  | some b => guard (isBreak b || b = 35)

/-- At most `fuel` statements up to the end of the input. -/
def statementsAux : Nat → Scan (List Statement)
  | 0 => failure
  | fuel + 1 => do
    skipGap
    if (← get).isEmpty then return []
    let s ← statement
    endOfLine
    return s :: (← statementsAux fuel)

/-! ## Files -/

/-- The input without a byte order mark. -/
def dropMark : Bytes → Bytes
  | 0xFF :: 0xFE :: input => input
  | 0xFE :: 0xFF :: input => input
  | 0xEF :: 0xBB :: 0xBF :: input => input
  | input => input

/-- Whether there are no control characters but tabs and line breaks; a carriage return is only
allowed in front of a line feed. -/
def isClean : Bytes → Bool
  | [] => true
  | b :: input =>
    (if b = 13 then input.head? = some 10 else b = 9 || b = 10 || (32 ≤ b && b ≠ 127)) &&
      isClean input

/-- The statements of a file. -/
def statements? (input : Bytes) : Option (List Statement) := do
  let input := dropMark input
  guard (Utf8.isValid input && isClean input)
  let (statements, _) ← statementsAux (input.length + 1) input
  return statements

end HavokScript.Toml
