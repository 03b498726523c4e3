import HavokScript.Number.Binary
import HavokScript.Text.Numeral
import HavokScript.Text.Utf8

/-!
# CBOR data items

The generic data items of the concise binary object representation. `Item.bytes` writes an item in
its shortest form; `Item.ofBytes?` reads a byte string that is exactly one well-formed item, in any
form, with bounds on nesting and on the number of elements.
-/

namespace HavokScript.Cbor

/-- A data item. -/
inductive Item where
  /-- a non-negative integer -/
  | unsigned (n : UInt64)
  /-- the integer `-1 - n` -/
  | negative (n : UInt64)
  /-- a byte string, in chunks -/
  | bytes (chunks : List Bytes)
  /-- a text string, in chunks -/
  | text (chunks : List Bytes)
  /-- an array -/
  | array (items : List Item)
  /-- a map, in the order of its entries -/
  | map (entries : List (Item × Item))
  /-- an item with a tag in front -/
  | tagged (tag : UInt64) (item : Item)
  /-- a simple value -/
  | simple (code : UInt8)
  /-- a floating point number -/
  | float (x : Double)
  deriving Repr

namespace Item

/-- The simple value false or true. -/
def bool (b : Bool) : Item := simple (if b then 21 else 20)

/-- The simple value null. -/
def null : Item := simple 22

/-- Whether the item is null or undefined. -/
def isNull : Item → Bool
  | simple code => code = 22 ∨ code = 23
  | _ => false

/-- The item of an integer of 64 bits. -/
def ofInt : Int → Item
  | .ofNat n => unsigned n.toUInt64
  | .negSucc n => negative n.toUInt64

/-! ## Writing -/

/-- The head of an item: its major type and its argument in the fewest bytes. -/
def head (major n : Nat) : Bytes :=
  let first (info : Nat) : UInt8 := (major * 32 + info).toUInt8
  if n < 24 then [first n]
  else if n < 0x100 then first 24 :: Bytes.ofNat .big 1 n
  else if n < 0x10000 then first 25 :: Bytes.ofNat .big 2 n
  else if n < 0x100000000 then first 26 :: Bytes.ofNat .big 4 n
  else first 27 :: Bytes.ofNat .big 8 n

/-- A floating point number in the narrowest format that has it; every not-a-number is the same. -/
def floatBytes (x : Double) : Bytes :=
  if x.isNaN then [0xF9, 0x7E, 0x00]
  else if x.fits .half then 0xF9 :: Bytes.ofNat .big 2 (x.toFormat .half)
  else if x.fits .single then 0xFA :: Bytes.ofNat .big 4 (x.toFormat .single)
  else 0xFB :: Bytes.ofNat .big 8 x.bits.toNat

mutual

/-- The bytes of an item. -/
def toBytes : Item → Bytes
  | unsigned n => head 0 n.toNat
  | negative n => head 1 n.toNat
  | bytes chunks => head 2 chunks.flatten.length ++ chunks.flatten
  | text chunks => head 3 chunks.flatten.length ++ chunks.flatten
  | array items => head 4 items.length ++ listBytes items
  | map entries => head 5 entries.length ++ entryBytes entries
  | tagged tag item => head 6 tag.toNat ++ toBytes item
  | simple code => head 7 code.toNat
  | float x => floatBytes x

/-- The bytes of items one after the other. -/
def listBytes : List Item → Bytes
  | [] => []
  | i :: is => toBytes i ++ listBytes is

/-- The bytes of map entries one after the other. -/
def entryBytes : List (Item × Item) → Bytes
  | [] => []
  | (k, v) :: es => toBytes k ++ toBytes v ++ entryBytes es

end

/-- Whether a key comes before another one: shorter keys first, then by their bytes. -/
def keyBefore (k l : Item) : Bool :=
  let a := k.toBytes
  let b := l.toBytes
  a.length < b.length || (a.length = b.length && a.toNat .big ≤ b.toNat .big)

/-- A map with its entries in the order of their keys. -/
def sortedMap (entries : List (Item × Item)) : Item :=
  map (entries.mergeSort fun e f => keyBefore e.1 f.1)

/-! ## Reading -/

/-- A reading step: a value and what follows it. -/
abbrev Parser (α : Type) := StateT Bytes Option α

/-- How deep items may be nested. -/
def maxLevels : Nat := 32

/-- How many elements an array, and how many entries a map may have. -/
def maxElements : Nat := 131072

/-- The head of an item as it stands. -/
structure Head where
  /-- the major type -/
  major : Nat
  /-- the additional information: how the argument is written -/
  info : Nat
  /-- the argument -/
  argument : Nat
  deriving DecidableEq, Repr

/-- The next byte. -/
def next : Parser UInt8
  | [] => none
  | b :: bs => some (b, bs)

/-- The next `n` bytes. -/
def takeBytes (n : Nat) : Parser Bytes := fun bs =>
  if n ≤ bs.length then some (bs.take n, bs.drop n) else none

/-- The next head. Additional information 28 to 30 is reserved, and 31 stands for an indefinite
length, which only strings, arrays and maps have. -/
def headParser : Parser Head := do
  let b ← next
  let major := b.toNat / 32
  let info := b.toNat % 32
  if info < 24 then return ⟨major, info, info⟩
  else if info ≤ 27 then
    let n := (← takeBytes (Nat.pow 2 (info - 24))).toNat .big
    if major = 7 ∧ info = 24 ∧ n < 32 then failure
    return ⟨major, info, n⟩
  else if info = 31 ∧ 2 ≤ major ∧ major ≤ 5 then return ⟨major, info, 0⟩
  else failure

/-- The byte that ends an item of indefinite length. -/
def breakByte : UInt8 := 0xFF

/-- The values up to the break; at most `fuel` bytes are left. -/
def untilBreak {α : Type} (p : Parser α) : Nat → Parser (List α)
  | 0 => failure
  | fuel + 1 => fun bs =>
    match bs with
    | [] => none
    | b :: rest =>
      if b = breakByte then some ([], rest)
      else do
        let (x, rest) ← p bs
        let (xs, rest) ← untilBreak p fuel rest
        return (x :: xs, rest)

/-- A chunk of a string of a major type: a string of that type and of definite length. -/
def chunk (major : Nat) : Parser Bytes := do
  let h ← headParser
  if h.major ≠ major ∨ h.info = 31 then failure
  takeBytes h.argument

/-- The chunks of a string with a given head. -/
def chunks (h : Head) : Parser (List Bytes) := fun bs =>
  if h.info = 31 then untilBreak (chunk h.major) bs.length bs
  else (takeBytes h.argument bs).map fun r => ([r.1], r.2)

/-- `n` values. -/
def repeated {α : Type} (p : Parser α) : Nat → Parser (List α)
  | 0 => return []
  | n + 1 => do
    let x ← p
    let xs ← repeated p n
    return x :: xs

/-- The values of a container with a given head. -/
def elements {α : Type} (p : Parser α) (h : Head) : Parser (List α) := fun bs => do
  let r ← if h.info = 31 then untilBreak p bs.length bs
    else if maxElements < h.argument then none else repeated p h.argument bs
  if maxElements < r.1.length then none else return r

/-- A map entry. -/
def entry (p : Parser Item) : Parser (Item × Item) := do
  let k ← p
  let v ← p
  return (k, v)

/-- The item behind a head, other than a tag; `inner` reads the items one level down, if there may
be any. -/
def body (inner : Option (Parser Item)) (h : Head) : Parser Item :=
  match h.major with
  | 0 => return unsigned h.argument.toUInt64
  | 1 => return negative h.argument.toUInt64
  | 2 => do return bytes (← chunks h)
  | 3 => do return text (← chunks h)
  | 4 =>
    match inner with
    | some p => do return array (← elements p h)
    | none => failure
  | 5 =>
    match inner with
    | some p => do return map (← elements (entry p) h)
    | none => failure
  | _ =>
    match h.info with
    | 25 => return float (.ofHalf h.argument)
    | 26 => return float (.ofSingle h.argument)
    | 27 => return float ⟨h.argument.toUInt64⟩
    | _ => return simple h.argument.toUInt8

/-- An item; `inner` reads the items one level down, if there may be any. A tag in front of another
tag takes a level too. -/
def itemWith (inner : Option (Parser Item)) : Parser Item := do
  let h ← headParser
  if h.major = 6 then
    let bs ← get
    match bs with
    | [] => failure
    | b :: _ =>
      if b.toNat / 32 = 6 then
        match inner with
        | some p => return tagged h.argument.toUInt64 (← p)
        | none => failure
      else
        let g ← headParser
        return tagged h.argument.toUInt64 (← body inner g)
  else body inner h

/-- An item with a number of levels below it. -/
def item : Nat → Parser Item
  | 0 => itemWith none
  | levels + 1 => itemWith (some (item levels))

/-- The item that a byte string is. -/
def ofBytes? (bs : Bytes) : Option Item :=
  match item maxLevels bs with
  | some (i, []) => some i
  | _ => none

/-! ## Taking apart -/

/-- The tag in front of the text of a date and time. -/
def dateTag : UInt64 := 0

/-- The tag in front of a number of seconds since the start of 1970. -/
def secondsTag : UInt64 := 1

/-- The tag in front of the bytes of a non-negative integer of any size. -/
def bigTag : UInt64 := 2

/-- The tag in front of the bytes of `n`, for the integer `-1 - n` of any size. -/
def bigNegativeTag : UInt64 := 3

/-- Whether a tag may stand in front of an item: those with a meaning ask for a kind of item. -/
def admits (tag : UInt64) : Item → Bool
  | unsigned _ | negative _ | float _ => tag ≠ dateTag ∧ tag ≠ bigTag ∧ tag ≠ bigNegativeTag
  | bytes _ => tag ≠ dateTag ∧ tag ≠ secondsTag
  | text _ => tag ≠ secondsTag ∧ tag ≠ bigTag ∧ tag ≠ bigNegativeTag
  | _ => tag ≠ dateTag ∧ tag ≠ secondsTag ∧ tag ≠ bigTag ∧ tag ≠ bigNegativeTag

/-- The integer that a tag in front of bytes makes of them. -/
def bigOf? (tag : UInt64) : Item → Option Int
  | bytes chunks =>
    let n := Bytes.toNat .big chunks.flatten
    if tag = bigTag then some n else if tag = bigNegativeTag then some (-1 - n) else none
  | _ => none

/-- The item without tags in front, those of integers of any size apart. -/
def untagged? : Item → Option Item
  | tagged tag i =>
    if !admits tag i then none
    else if tag = bigTag ∨ tag = bigNegativeTag then some (tagged tag i)
    else untagged? i
  | i => some i

/-- The text of the chunks of a text string, each of which must be well-formed. -/
def textOf? (chunks : List Bytes) : Option Bytes :=
  if chunks.all Utf8.isValid then some chunks.flatten else none

/-- The integer that an item stands for; null stands for zero, and a simple value without a meaning
for its code. -/
def integer? (i : Item) : Option Int := do
  match ← i.untagged? with
  | unsigned n => some n.toNat
  | negative n => some (-1 - n.toNat)
  | tagged tag j => bigOf? tag j
  | simple code =>
    if code = 22 ∨ code = 23 then some 0
    else if code = 20 ∨ code = 21 then none
    else some code.toNat
  | _ => none

/-- An unsigned integer of at most `bound`. -/
def unsigned? (bound : Nat) (i : Item) : Option Nat := do
  let n ← i.integer?
  if 0 ≤ n ∧ n ≤ bound then some n.toNat else none

/-- A byte. -/
def byte? (i : Item) : Option UInt8 := (i.unsigned? 0xFF).map Nat.toUInt8

/-- An unsigned integer of 32 bits. -/
def word? (i : Item) : Option UInt32 := (i.unsigned? 0xFFFFFFFF).map Nat.toUInt32

/-- A signed integer of 64 bits. -/
def int? (i : Item) : Option Int := do
  let n ← i.integer?
  if -0x8000000000000000 ≤ n ∧ n < 0x8000000000000000 then some n else none

/-- A text string; null stands for the empty one. -/
def text? (i : Item) : Option Bytes := do
  match ← i.untagged? with
  | text chunks => textOf? chunks
  | j => if j.isNull then some [] else none

/-- The items of an array, each read by `read`; null stands for no list at all. -/
def list? {α : Type} (read : Item → Option α) (i : Item) : Option (Option (List α)) := do
  match ← i.untagged? with
  | array items => (items.mapM read).map some
  | j => if j.isNull then some none else none

/-- The key of a field. -/
inductive Key where
  /-- an integer of 64 bits -/
  | number (n : Int)
  /-- a text -/
  | name (label : Bytes)
  deriving DecidableEq, Repr

/-- Whether a key stands for the field with a number: by that number, or by its numeral. -/
def Key.isFor (field : Nat) : Key → Bool
  | number n => n = field
  | name label => label = Numeral.nat field

/-- The key of a map entry; integers wrap around at 64 bits, and only integers and texts are
allowed. -/
def key? : Item → Option Key
  | unsigned n => some (.number (wrap64 n.toNat))
  | negative n => some (.number (wrap64 (-1 - n.toNat)))
  | text chunks => (textOf? chunks).map .name
  | _ => none

/-- The fields of a record: map entries by their keys. -/
abbrev Fields := List (Key × Item)

/-- The fields of a record; null stands for one without fields. -/
def fields? (i : Item) : Option Fields := do
  match ← i.untagged? with
  | map entries => entries.mapM fun e => (key? e.1).map fun k => (k, e.2)
  | j => if j.isNull then some [] else none

/-- The first field with a number; a field that is missing is null. -/
def Fields.get (fs : Fields) (field : Nat) : Item :=
  match fs.find? fun f => f.1.isFor field with
  | some f => f.2
  | none => null

/-- A record with the keys from one on, without the fields that are left out. -/
def record (fields : List (Option Item)) : Item :=
  map ((fields.zipIdx 1).filterMap fun f => f.1.map fun i => (unsigned f.2.toUInt64, i))

end Item

end HavokScript.Cbor
