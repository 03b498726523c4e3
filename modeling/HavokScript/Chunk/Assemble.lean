import HavokScript.Chunk.Model

/-!
# Writing chunk files

An assembly is a chunk file to be: a header, and functions given by their instruction words.
`Assembly.bytes` writes it. A constant whose payload does not belong to its tag is written with the
zero payload of the tag.
-/

namespace HavokScript

/-- A function to be written, without its closures. -/
structure SourceCode where
  /-- the number of upvalues -/
  upvalues : UInt32
  /-- the number of parameters -/
  parameters : UInt32
  /-- not zero if the function takes further arguments -/
  varargFlags : UInt8
  /-- the number of registers -/
  registers : UInt32
  /-- the instruction words -/
  words : List Word
  /-- the constants -/
  constants : List Constant
  /-- the hash of the debug record, if there is to be one -/
  debug : Option UInt32
  deriving Repr

/-- A function to be written, with its closures. -/
structure SourceFunction extends SourceCode where
  /-- the closures -/
  closures : List SourceFunction
  deriving Repr

/-- A chunk file to be written; the type records are those of its header. -/
structure Assembly where
  /-- the header -/
  header : Header
  /-- the main function -/
  root : Option SourceFunction
  deriving Repr

/-- A little-endian header of the newer revision with sizes and numbers of eight bytes. -/
def Header.standard : Header where
  signature := 0x61754C1B
  version := 0x51
  format := 14
  endianness := 1
  intSize := 4
  sizeSize := 8
  instructionSize := 4
  numberSize := 8
  numberType := 0
  buildFlags := 0
  sharingMode := 0
  types := none

namespace Assembly

/-- Four bytes in the order of the header. -/
def word (h : Header) (n : Nat) : Bytes := Bytes.ofNat h.order 4 n

/-- Eight bytes in the order of the header. -/
def long (h : Header) (n : Nat) : Bytes := Bytes.ofNat h.order 8 n

/-- A size: four bytes if the header says so, and eight otherwise. -/
def size (h : Header) (n : Nat) : Bytes := if h.sizeSize = 4 then word h n else long h n

/-- A type record: its number, the length of its name with a terminator, and the two. -/
def typeRecord (h : Header) (t : TypeRecord) : Bytes :=
  word h t.id.toNat ++ word h (t.name.length + 1) ++ t.name ++ [0]

/-- The header. The signature stands in front of the endianness code and is little-endian. -/
def headerBytes (h : Header) : Bytes :=
  Bytes.ofNat .little 4 h.signature.toNat ++
  [h.version, h.format, h.endianness, h.intSize, h.sizeSize, h.instructionSize, h.numberSize,
    h.numberType, h.buildFlags, h.sharingMode] ++
  word h h.types.items.length ++ h.types.items.flatMap (typeRecord h)

/-- The integer of a numeric payload. -/
def integerOf : Payload → Int
  | .float x => x.truncate
  | .signed i => i.toInt
  | _ => 0

/-- The floating point number of a numeric payload. -/
def floatOf : Payload → Double
  | .float x => x
  | .signed i => .ofInt i.toInt
  | _ => .zero

/-- A number, of the type and width the header declares. -/
def number (h : Header) (p : Payload) : Bytes :=
  if h.integers then
    if h.numberSize = 4 then word h (unsigned64 (integerOf p))
    else long h (unsigned64 (integerOf p))
  else if h.numberSize = 4 then word h ((floatOf p).toFormat .single)
  else long h (floatOf p).bits.toNat

/-- The unsigned integer of a payload. -/
def unsignedOf : Payload → Nat
  | .unsigned n => n.toNat
  | _ => 0

/-- The byte string of a payload. -/
def stringOf : Payload → Bytes
  | .string s => s
  | _ => []

/-- A string: its length with a terminator and the two; the empty string is a length of zero. -/
def string (h : Header) (s : Bytes) : Bytes :=
  if s.isEmpty then size h 0 else size h (s.length + 1) ++ s ++ [0]

/-- A constant: its tag and its payload. -/
def constant (h : Header) (c : Constant) : Bytes :=
  c.tag.code ::
    if c.tag = .boolean then [if c.isTrue then 1 else 0]
    else if c.tag = .lightUserdata then size h (unsignedOf c.payload)
    else if c.tag = .number then number h c.payload
    else if c.tag = .string then string h (stringOf c.payload)
    else if c.tag = .ui64 then long h (unsignedOf c.payload)
    else []

/-- The debug record: a flag and the hash, or a zero. -/
def debug (h : Header) : Option UInt32 → Bytes
  | some hash => word h 1 ++ word h hash.toNat
  | none => word h 0

/-- How many zero bytes lead from a position to the next multiple of four. -/
def padding (offset : Nat) : Nat := (4 - offset % 4) % 4

/-- A function that starts at a position of the file, up to the number of its closures. -/
def code (h : Header) (offset : Nat) (f : SourceCode) : Bytes :=
  let front :=
    word h f.upvalues.toNat ++ word h f.parameters.toNat ++ [f.varargFlags] ++
      word h f.registers.toNat ++ size h f.words.length
  front ++ List.replicate (padding (offset + front.length)) 0 ++
    f.words.flatMap (fun w => word h w.toNat) ++
    word h f.constants.length ++ f.constants.flatMap (constant h) ++ debug h f.debug

mutual

/-- A function that starts at a position of the file, and its closures. -/
def function (h : Header) (offset : Nat) : SourceFunction → Bytes
  | ⟨f, closures⟩ =>
    let front := code h offset f ++ word h closures.length
    front ++ functions h (offset + front.length) closures

/-- Functions one after the other, the first of which starts at a position of the file. -/
def functions (h : Header) (offset : Nat) : List SourceFunction → Bytes
  | [] => []
  | f :: fs =>
    let front := function h offset f
    front ++ functions h (offset + front.length) fs

end

/-- The bytes of a chunk file. -/
def bytes (a : Assembly) : Bytes :=
  let front := headerBytes a.header
  front ++
    match a.root with
    | some f => function a.header front.length f
    | none => []

end Assembly

end HavokScript
