import HavokScript.Chunk.Model
import HavokScript.Cursor

/-!
# Reading chunk files

`ChunkFile.decode` reads the header and the main function from the front of a byte string; bytes
behind them are left alone. A failure says where reading stopped: at the word of an unknown opcode,
at the tag of an unsupported constant, and otherwise at the cursor.
-/

namespace HavokScript

/-! ## Failures -/

/-- What was being read. -/
inductive Part where
  | signature | version | format | endianness | typeSizes | numberType | buildFlags | sharingMode
  | typeCount
  | typeId (index : Nat)
  | typeNameLength (index : Nat)
  | typeName (index : Nat)
  | upvalueCount | parameterCount | varargFlags | registerCount | instructionCount
  | instruction (index : Nat)
  | constantCount | constantType | stringLength | string | debugFlag | debugHash | closureCount
  deriving DecidableEq, Repr

/-- The name of a part. -/
def Part.name : Part → Bytes
  | signature => utf8 "signature"
  | version => utf8 "version"
  | format => utf8 "format"
  | endianness => utf8 "endianness"
  | typeSizes => utf8 "type sizes"
  | numberType => utf8 "number type"
  | buildFlags => utf8 "build flags"
  | sharingMode => utf8 "sharing mode"
  | typeCount => utf8 "type count"
  | typeId i => utf8 "type " ++ Numeral.nat i ++ utf8 " id"
  | typeNameLength i => utf8 "type " ++ Numeral.nat i ++ utf8 " name length"
  | typeName i => utf8 "type " ++ Numeral.nat i ++ utf8 " name"
  | upvalueCount => utf8 "upvalue count"
  | parameterCount => utf8 "parameter count"
  | varargFlags => utf8 "vararg flags"
  | registerCount => utf8 "register count"
  | instructionCount => utf8 "instruction count"
  | instruction i => utf8 "instruction " ++ Numeral.nat i
  | constantCount => utf8 "constant count"
  | constantType => utf8 "constant type"
  | stringLength => utf8 "string length"
  | string => utf8 "string"
  | debugFlag => utf8 "debug flag"
  | debugHash => utf8 "debug hash"
  | closureCount => utf8 "closure count"

/-- A step of the way to a failure. -/
inductive Context where
  /-- a part could not be read -/
  | reading (part : Part)
  /-- the instructions could not be aligned -/
  | aligning
  /-- inside the instruction with this index -/
  | instruction (index : Nat)
  /-- inside the constant with this index -/
  | constant (index : Nat)
  deriving DecidableEq, Repr

/-- The text in front of the cause. -/
def Context.message : Context → Bytes
  | reading part => utf8 "failed to read " ++ part.name ++ utf8 ": "
  | aligning => utf8 "failed to align instructions: "
  | instruction i => utf8 "instruction " ++ Numeral.nat i ++ utf8 ": "
  | constant i => utf8 "constant " ++ Numeral.nat i ++ utf8 ": "

/-- A width the header declares. -/
inductive Width where
  | instruction | size | number
  deriving DecidableEq, Repr

/-- The name of a width. -/
def Width.name : Width → Bytes
  | instruction => utf8 "instruction"
  | size => utf8 "size_t"
  | number => utf8 "number"

/-- Why a chunk file cannot be read. -/
inductive DecodeCause where
  /-- the cursor failed -/
  | cursor (error : CursorError)
  /-- a size is larger than the rest of the file -/
  | oversized (size remaining : Nat)
  /-- more instructions are declared than the rest of the file can hold -/
  | tooManyInstructions (count : Nat)
  /-- the layout revision is not supported -/
  | unsupportedFormat (code : UInt8)
  /-- a width is not supported -/
  | unsupportedWidth (what : Width) (bytes : UInt8)
  /-- no opcode has this code -/
  | unknownOpcode (code : UInt8)
  /-- constants of this type are not supported -/
  | unsupportedConstant (tag : Tag)
  deriving DecidableEq, Repr

/-- The text of a cause. -/
def DecodeCause.message : DecodeCause → Bytes
  | cursor error => error.message
  | oversized size remaining =>
    utf8 "unexpected end of data: size " ++ Numeral.nat size ++ utf8 " with " ++
      Numeral.nat remaining ++ utf8 " bytes left"
  | tooManyInstructions count =>
    utf8 "unexpected end of data: " ++ Numeral.nat count ++ utf8 " instructions declared"
  | unsupportedFormat code => utf8 "unsupported format version: " ++ Numeral.nat code.toNat
  | unsupportedWidth what bytes =>
    utf8 "unsupported type size: " ++ what.name ++ utf8 " size " ++ Numeral.nat bytes.toNat
  | unknownOpcode code => utf8 "unknown opcode: 0x" ++ Numeral.hex 2 code.toNat
  | unsupportedConstant tag => utf8 "unsupported constant type: " ++ tag.name

/-- A failure to read a chunk file. -/
structure DecodeError where
  /-- where reading stopped -/
  offset : Nat
  /-- the way to the cause, the outermost step first -/
  path : List Context
  /-- the cause -/
  cause : DecodeCause
  deriving DecidableEq, Repr

/-- The text of a failure. -/
def DecodeError.message (e : DecodeError) : Bytes :=
  utf8 "decode error at offset 0x" ++ Numeral.hex 0 e.offset ++ utf8 ": " ++
    e.path.flatMap Context.message ++ e.cause.message

/-- A step of reading a chunk file. -/
abbrev Decoder (α : Type) := StateT Cursor (Except DecodeError) α

namespace Decoder

/-- Fails at the cursor. -/
def fail {α : Type} (cause : DecodeCause) : Decoder α := fun c => .error ⟨c.offset, [], cause⟩

/-- Fails at a position. -/
def failAt {α : Type} (offset : Nat) (cause : DecodeCause) : Decoder α := fun _ =>
  .error ⟨offset, [], cause⟩

/-- A cursor operation. -/
def lift {α : Type} (step : Read α) : Decoder α := fun c =>
  match step c with
  | .ok r => .ok r
  | .error e => .error ⟨c.offset, [], .cursor e⟩

/-- A step whose failures happen in a context. -/
def within {α : Type} (context : Context) (step : Decoder α) : Decoder α := fun c =>
  match step c with
  | .ok r => .ok r
  | .error e => .error { e with path := context :: e.path }

/-- A cursor operation that reads a part. -/
def reading {α : Type} (part : Part) (step : Read α) : Decoder α :=
  within (.reading part) (lift step)

/-- One byte of a part. -/
def byte (part : Part) : Decoder UInt8 := do
  return (← reading part (Cursor.unsigned 1)).toUInt8

/-- Four bytes of a part. -/
def word (part : Part) : Decoder UInt32 := do
  return (← reading part (Cursor.unsigned 4)).toUInt32

/-- `count` items, where `item` reads the one with a given index; the first has the index `i`. -/
def repeated {α : Type} (item : Nat → Decoder α) : Nat → Nat → Decoder (List α)
  | _, 0 => return []
  | i, count + 1 => do
    let x ← item i
    let xs ← repeated item (i + 1) count
    return x :: xs

/-! ## The header -/

/-- The byte string without the zero bytes at its end. -/
def trimZeros (name : Bytes) : Bytes := (name.reverse.dropWhile (· = 0)).reverse

/-- The type record with a given index. -/
def typeRecord (i : Nat) : Decoder TypeRecord := do
  let id ← word (.typeId i)
  let length ← reading (.typeNameLength i) (Cursor.integer 4)
  let name ← reading (.typeName i) (Cursor.take length)
  return ⟨id, trimZeros name⟩

/-- The header. -/
def header : Decoder Header := do
  let signature ← word .signature
  let version ← byte .version
  let format ← byte .format
  unless format = 13 ∨ format = 14 do fail (.unsupportedFormat format)
  let endianness ← byte .endianness
  lift (Cursor.setOrder (endiannessOrder endianness))
  let intSize ← byte .typeSizes
  let sizeSize ← byte .typeSizes
  let instructionSize ← byte .typeSizes
  let numberSize ← byte .typeSizes
  unless instructionSize = 4 do fail (.unsupportedWidth .instruction instructionSize)
  unless sizeSize = 4 ∨ sizeSize = 8 do fail (.unsupportedWidth .size sizeSize)
  unless numberSize = 4 ∨ numberSize = 8 do fail (.unsupportedWidth .number numberSize)
  let numberType ← byte .numberType
  let buildFlags ← byte .buildFlags
  let sharingMode ← byte .sharingMode
  let typeCount ← word .typeCount
  let types ← repeated typeRecord 0 typeCount.toNat
  return { signature, version, format, endianness, intSize, sizeSize, instructionSize, numberSize,
           numberType, buildFlags, sharingMode, types := Section.ofItems types }

/-! ## Prototypes -/

/-- A size. It counts bytes or items that follow, so it is not larger than the rest of the file. -/
def size (h : Header) : Decoder Nat := do
  let n ← lift (Cursor.sized h.sizeSize.toNat)
  let c ← get
  if c.remaining < n then fail (.oversized n c.remaining)
  return n

/-- The instruction with a given index. -/
def instruction (i : Nat) : Decoder Instruction := do
  let c ← get
  let w : Word ← word (.instruction i)
  match Instruction.decode c.offset w with
  | some x => return x
  | none => within (.instruction i) (failAt c.offset (.unknownOpcode (Word.op w)))

/-- The instructions: their number, and from the next multiple of four on their words. -/
def instructions (h : Header) : Decoder (List Instruction) := do
  let count ← within (.reading .instructionCount) (size h)
  within .aligning (lift (Cursor.pad 4))
  let c ← get
  if c.remaining / 4 < count then fail (.tooManyInstructions count)
  repeated instruction 0 count

/-- A number, of the type and width the header declares. -/
def number (h : Header) : Decoder Payload := do
  let width := if h.numberSize = 4 then 4 else 8
  if h.integers then
    return .signed (.ofInt (← lift (Cursor.integer width)))
  else
    let bits ← lift (Cursor.unsigned width)
    return .float (if width = 4 then .ofSingle bits else ⟨bits.toUInt64⟩)

/-- A string: its length with a terminator, and unless that is zero the bytes and the terminator. -/
def string (h : Header) : Decoder Bytes := do
  let length ← within (.reading .stringLength) (size h)
  if length = 0 then return []
  let s ← reading .string (Cursor.take length)
  return s.dropLast

/-- The payload of a constant whose tag stands at `offset`. -/
def payload (h : Header) (offset : Nat) (tag : Tag) : Decoder Payload :=
  if tag = .nil then return .nil
  else if tag = .boolean then do return .bool ((← lift (Cursor.unsigned 1)) ≠ 0)
  else if tag = .lightUserdata then do
    return .unsigned (← lift (Cursor.sized h.sizeSize.toNat)).toUInt64
  else if tag = .number then number h
  else if tag = .string then do return .string (← string h)
  else if tag = .ui64 then do return .unsigned (← lift (Cursor.unsigned 8)).toUInt64
  else failAt offset (.unsupportedConstant tag)

/-- The constant with a given index. -/
def constant (h : Header) (i : Nat) : Decoder Constant :=
  within (.constant i) do
    let c ← get
    let tag : Tag := ⟨← byte .constantType⟩
    return ⟨tag, ← payload h c.offset tag⟩

/-- The hash of the debug record, if there is one. -/
def debug : Decoder (Option UInt32) := do
  let flag ← word .debugFlag
  if flag = 1 then return some (← word .debugHash) else return none

/-- The function at the cursor, without its closures. -/
def code (h : Header) : Decoder Code := do
  let c ← get
  let upvalues ← word .upvalueCount
  let parameters ← word .parameterCount
  let varargFlags ← byte .varargFlags
  let registers ← word .registerCount
  let instructions ← instructions h
  let constantCount ← word .constantCount
  let constants ← repeated (constant h) 0 constantCount.toNat
  let debug ← debug
  return { address := c.offset, upvalues, parameters, varargFlags, registers,
           instructions := some instructions, constants := Section.ofItems constants, debug }

/-- The prototype at the cursor; `depth` bounds how deep prototypes are nested. Each level takes
some bytes, so no file is deeper than it is long. -/
def prototype (h : Header) : Nat → Decoder Prototype
  | 0 => do fail (.oversized 0 0)
  | depth + 1 => do
    let code ← code h
    let count ← word .closureCount
    let closures ← repeated (fun _ => prototype h depth) 0 count.toNat
    return { toCode := code, closures := Section.ofItems closures }

/-- The whole file. -/
def file : Decoder ChunkFile := do
  let h ← header
  let c ← get
  let root ← prototype h (c.data.length + 1)
  return ⟨h, some root, none⟩

end Decoder

/-- The chunk file at the front of a byte string. -/
def ChunkFile.decode (data : Bytes) : Except DecodeError ChunkFile :=
  (Decoder.file.run (Cursor.start data .little)).map Prod.fst

end HavokScript
