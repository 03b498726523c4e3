import HavokScript.Constant
import HavokScript.Instruction

/-!
# Chunk files

A chunk file is a header and a tree of prototypes. The codes in the header are kept as they are;
those with a meaning have names.
-/

namespace HavokScript

/-! ## The header -/

/-- A code shown by its name, or as a number after the name of its kind. -/
def codeName (kind : String) (names : List (UInt8 × String)) (code : UInt8) : Bytes :=
  match names.lookup code with
  | some n => utf8 n
  | none => utf8 kind ++ utf8 "(" ++ Numeral.nat code.toNat ++ utf8 ")"

/-- The name of a layout revision of chunk files. -/
def formatName : UInt8 → Bytes := codeName "Format" [(13, "V13"), (14, "V14")]

/-- The name of a number type. -/
def numberTypeName : UInt8 → Bytes := codeName "NumberType" [(0, "FLOAT"), (1, "INT")]

/-- The name of a sharing mode. -/
def sharingModeName : UInt8 → Bytes :=
  codeName "SharingMode" [(0, "OFF"), (1, "ON"), (2, "SECURE")]

/-- The name of an endianness code: every code but zero is little-endian. -/
def endiannessName (code : UInt8) : Bytes := if code = 0 then utf8 "BIG" else utf8 "LITTLE"

/-- The byte order of an endianness code. -/
def endiannessOrder (code : UInt8) : ByteOrder := if code = 0 then .big else .little

/-- A custom type record. -/
structure TypeRecord where
  /-- the number of the type -/
  id : UInt32
  /-- its name -/
  name : Bytes
  deriving DecidableEq, Repr

/-- The header of a chunk file. -/
structure Header where
  /-- the first four bytes of the file -/
  signature : UInt32
  /-- the version of the language -/
  version : UInt8
  /-- the layout revision -/
  format : UInt8
  /-- the endianness code -/
  endianness : UInt8
  /-- the width of an integer -/
  intSize : UInt8
  /-- the width of a size -/
  sizeSize : UInt8
  /-- the width of an instruction word -/
  instructionSize : UInt8
  /-- the width of a number -/
  numberSize : UInt8
  /-- the number type -/
  numberType : UInt8
  /-- the flags the chunk was built with -/
  buildFlags : UInt8
  /-- the sharing mode -/
  sharingMode : UInt8
  /-- the custom type records -/
  types : Section TypeRecord
  deriving DecidableEq, Repr

/-- The byte order of the file behind the endianness code. -/
def Header.order (h : Header) : ByteOrder := endiannessOrder h.endianness

/-- Whether numbers are integers. -/
def Header.integers (h : Header) : Bool := h.numberType = 1

/-! ## Prototypes -/

/-- A compiled function without its closures. -/
structure Code where
  /-- the position of the function in the file -/
  address : Int
  /-- the number of upvalues -/
  upvalues : UInt32
  /-- the number of parameters -/
  parameters : UInt32
  /-- not zero if the function takes further arguments -/
  varargFlags : UInt8
  /-- the number of registers -/
  registers : UInt32
  /-- the instructions -/
  instructions : Section Instruction
  /-- the constants -/
  constants : Section Constant
  /-- the hash of the debug record, if there is one -/
  debug : Option UInt32
  deriving Repr

namespace Code

/-- The name of a function, from its position. -/
def label (c : Code) : Bytes := utf8 "_id_" ++ Numeral.hex 8 c.address

/-- A constant by its index. -/
def constant? (c : Code) (i : Int) : Option Constant :=
  if i < 0 then none else c.constants.items[i.toNat]?

/-- The text that says that there is no constant with an index. -/
def missingConstant (c : Code) (i : Int) : Bytes :=
  utf8 "constant index out of range: " ++ Numeral.int i ++ utf8 " of " ++
    Numeral.nat c.constants.items.length ++ utf8 " in " ++ c.label

end Code

/-- A compiled function and the prototypes of the closures it makes. -/
structure Prototype extends Code where
  /-- the prototypes of the closures, a section -/
  closures : Option (List Prototype)
  deriving Repr

namespace Prototype

/-- The prototypes of the closures. -/
def inner (p : Prototype) : List Prototype := Section.items p.closures

/-- The prototype of a closure by its index. -/
def closure? (p : Prototype) (i : Int) : Option Prototype :=
  if i < 0 then none else p.inner[i.toNat]?

mutual

/-- The prototype and all below it, each before the prototypes of its closures. -/
def walk : Prototype → List Prototype
  | ⟨code, none⟩ => [⟨code, none⟩]
  | ⟨code, some ps⟩ => ⟨code, some ps⟩ :: walkAll ps

/-- The walks of a list of prototypes, one after the other. -/
def walkAll : List Prototype → List Prototype
  | [] => []
  | p :: ps => walk p ++ walkAll ps

end

end Prototype

/-! ## Incomplete functions -/

/-- A compiled function of which the prototypes of some closures may be missing. No chunk has one,
but an export can name them. -/
structure Draft extends Code where
  /-- the prototypes of the closures, a section -/
  closures : Option (List (Option Draft))
  deriving Repr

namespace Draft

mutual

/-- The prototype that a draft is, if nothing is missing in it. -/
def complete? : Draft → Option Prototype
  | ⟨code, none⟩ => some ⟨code, none⟩
  | ⟨code, some ds⟩ => (completeAll? ds).map fun ps => ⟨code, some ps⟩

/-- The prototypes that drafts are, if none is missing or has something missing in it. -/
def completeAll? : List (Option Draft) → Option (List Prototype)
  | [] => some []
  | none :: _ => none
  | some d :: ds => do
    let p ← complete? d
    let ps ← completeAll? ds
    return p :: ps

end

end Draft

/-! ## Files -/

/-- A chunk file. -/
structure ChunkFile where
  /-- the header -/
  header : Header
  /-- the main function -/
  root : Option Prototype
  /-- further functions, which no chunk has -/
  prototypes : Section (Option Draft)
  deriving Repr

/-- The prototypes of the main function and all below it. -/
def ChunkFile.walk (f : ChunkFile) : List Prototype :=
  match f.root with
  | some p => p.walk
  | none => []

end HavokScript
