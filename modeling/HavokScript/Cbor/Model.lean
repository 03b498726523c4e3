import HavokScript.Cbor.Payload
import HavokScript.Chunk.Model

/-!
# Exported chunk files

A chunk file as a CBOR item: records are maps with small integer keys, a section is an array or
null, and a missing debug record is left out. Reading back fits the payloads of constants to the
number type of the header, since an item does not tell signed integers from unsigned ones.
-/

namespace HavokScript

open Cbor (Item)

/-! ## Writing -/

namespace Cbor

/-- The item of a small unsigned integer. -/
def ofByte (b : UInt8) : Item := .unsigned b.toNat.toUInt64

/-- The item of an unsigned integer of 32 bits. -/
def ofWord (w : UInt32) : Item := .unsigned w.toNat.toUInt64

/-- The item of a section. -/
def ofSection {α : Type} (write : α → Item) : Section α → Item
  | some items => .array (items.map write)
  | none => .null

end Cbor

open Cbor

/-- The item of a constant. -/
def Constant.toItem (c : Constant) : Item :=
  .record [some (ofByte c.tag.code), some c.payload.toItem]

/-- The item of an operand. -/
def Operand.toItem (o : Operand) : Item :=
  .record [some (ofByte o.role.code), some (.ofInt o.value)]

/-- The item of an instruction. -/
def Instruction.toItem (i : Instruction) : Item :=
  .record [some (.ofInt i.address), some (ofByte i.op), some (ofWord i.raw),
    some (ofSection Operand.toItem i.operands)]

/-- The item of a type record. -/
def TypeRecord.toItem (t : TypeRecord) : Item := .record [some (ofWord t.id), some (.text [t.name])]

/-- The item of a header. -/
def Header.toItem (h : Header) : Item :=
  .record [some (ofWord h.signature), some (ofByte h.version), some (ofByte h.format),
    some (ofByte h.endianness), some (ofByte h.intSize), some (ofByte h.sizeSize),
    some (ofByte h.instructionSize), some (ofByte h.numberSize), some (ofByte h.numberType),
    some (ofByte h.buildFlags), some (ofByte h.sharingMode),
    some (ofSection TypeRecord.toItem h.types)]

/-- The item of a function with a given item for its closures. -/
def Code.toItem (c : Code) (closures : Item) : Item :=
  .record [some (.ofInt c.address), some (ofWord c.upvalues), some (ofWord c.parameters),
    some (ofByte c.varargFlags), some (ofWord c.registers),
    some (ofSection Instruction.toItem c.instructions),
    some (ofSection Constant.toItem c.constants),
    c.debug.map fun hash => .record [some (ofWord hash)], some closures]

mutual

/-- The item of a prototype. -/
def Prototype.toItem : Prototype → Item
  | ⟨code, none⟩ => code.toItem .null
  | ⟨code, some ps⟩ => code.toItem (.array (Prototype.toItems ps))

/-- The items of prototypes. -/
def Prototype.toItems : List Prototype → List Item
  | [] => []
  | p :: ps => p.toItem :: Prototype.toItems ps

end

mutual

/-- The item of a draft. -/
def Draft.toItem : Draft → Item
  | ⟨code, none⟩ => code.toItem .null
  | ⟨code, some ds⟩ => code.toItem (.array (Draft.toItems ds))

/-- The items of drafts, null for those that are missing. -/
def Draft.toItems : List (Option Draft) → List Item
  | [] => []
  | none :: ds => .null :: Draft.toItems ds
  | some d :: ds => d.toItem :: Draft.toItems ds

end

/-- The item of a chunk file. -/
def ChunkFile.toItem (f : ChunkFile) : Item :=
  .record [some f.header.toItem, some ((f.root.map Prototype.toItem).getD .null),
    some (match f.prototypes with
      | some ds => .array (Draft.toItems ds)
      | none => .null)]

/-- The export of a chunk file. -/
def ChunkFile.exported (f : ChunkFile) : Bytes := f.toItem.toBytes

/-! ## Reading -/

/-- The constant of an item. -/
def Constant.ofItem? (i : Item) : Option Constant := do
  let fs ← i.fields?
  return ⟨⟨← (fs.get 1).byte?⟩, ← Payload.ofItem? true (fs.get 2)⟩

/-- The operand of an item. -/
def Operand.ofItem? (i : Item) : Option Operand := do
  let fs ← i.fields?
  return ⟨⟨← (fs.get 1).byte?⟩, ← (fs.get 2).int?⟩

/-- The instruction of an item. -/
def Instruction.ofItem? (i : Item) : Option Instruction := do
  let fs ← i.fields?
  return ⟨← (fs.get 1).int?, ← (fs.get 2).byte?, ← (fs.get 3).word?,
    ← (fs.get 4).list? Operand.ofItem?⟩

/-- The type record of an item. -/
def TypeRecord.ofItem? (i : Item) : Option TypeRecord := do
  let fs ← i.fields?
  return ⟨← (fs.get 1).word?, ← (fs.get 2).text?⟩

/-- The header of an item. -/
def Header.ofItem? (i : Item) : Option Header := do
  let fs ← i.fields?
  return ⟨← (fs.get 1).word?, ← (fs.get 2).byte?, ← (fs.get 3).byte?, ← (fs.get 4).byte?,
    ← (fs.get 5).byte?, ← (fs.get 6).byte?, ← (fs.get 7).byte?, ← (fs.get 8).byte?,
    ← (fs.get 9).byte?, ← (fs.get 10).byte?, ← (fs.get 11).byte?,
    ← (fs.get 12).list? TypeRecord.ofItem?⟩

/-- What `read` makes of an item; null stands for nothing. -/
def Cbor.optional? {α : Type} (read : Item → Option α) (i : Item) : Option (Option α) :=
  if i.isNull then some none else (read i).map some

/-- The hash of the item of a debug record. -/
def debugOfItem? (i : Item) : Option UInt32 := do
  let fs ← i.fields?
  (fs.get 1).word?

/-- The function of the fields of an item, without its closures. -/
def Code.ofFields? (fs : Item.Fields) : Option Code := do
  return ⟨← (fs.get 1).int?, ← (fs.get 2).word?, ← (fs.get 3).word?, ← (fs.get 4).byte?,
    ← (fs.get 5).word?, ← (fs.get 6).list? Instruction.ofItem?,
    ← (fs.get 7).list? Constant.ofItem?, ← Cbor.optional? debugOfItem? (fs.get 8)⟩

/-- The draft of an item; `levels` bounds how deep functions are nested. -/
def Draft.ofItem? : Nat → Item → Option Draft
  | 0, _ => none
  | levels + 1, i => do
    let fs ← i.fields?
    let code ← Code.ofFields? fs
    let closures ← (fs.get 9).list? (Cbor.optional? (Draft.ofItem? levels))
    return { toCode := code, closures }

/-- The payload of a constant fitted to its tag: numbers are signed integers if `integers` says so
and floating point numbers otherwise, and addresses and 64-bit integers are unsigned. -/
def Constant.normalize (integers : Bool) (c : Constant) : Constant :=
  if c.tag = .number then
    match integers, c.payload with
    | true, .unsigned n => ⟨c.tag, .signed n.toInt64⟩
    | true, .float x => ⟨c.tag, .signed (.ofInt x.truncate)⟩
    | true, _ => c
    | false, p =>
      match p.float? with
      | some x => ⟨c.tag, .float x⟩
      | none => c
  else if c.tag = .lightUserdata ∨ c.tag = .ui64 then
    match c.payload with
    | .signed i => ⟨c.tag, .unsigned i.toUInt64⟩
    | _ => c
  else c

/-- The function with the payloads of its constants fitted to their tags. -/
def Code.normalize (integers : Bool) (c : Code) : Code :=
  { c with constants := c.constants.map fun cs => cs.map (Constant.normalize integers) }

mutual

/-- The prototype, and all below it, with the payloads of the constants fitted to their tags. -/
def Prototype.normalize (integers : Bool) : Prototype → Prototype
  | ⟨code, none⟩ => ⟨code.normalize integers, none⟩
  | ⟨code, some ps⟩ => ⟨code.normalize integers, some (Prototype.normalizeAll integers ps)⟩

/-- The same for a list of prototypes. -/
def Prototype.normalizeAll (integers : Bool) : List Prototype → List Prototype
  | [] => []
  | p :: ps => p.normalize integers :: Prototype.normalizeAll integers ps

end

/-- Why an export cannot be read. -/
inductive ImportError where
  /-- it is no item, or not the item of a chunk file -/
  | malformed
  /-- the prototype of a closure is missing somewhere below the main function -/
  | missingClosure
  deriving DecidableEq, Repr

/-- The header, the main function and the further functions of an item. -/
def draftsOfItem? (i : Item) : Option (Header × Option Draft × Section (Option Draft)) := do
  let fs ← i.fields?
  return (← Header.ofItem? (fs.get 1),
    ← Cbor.optional? (Draft.ofItem? Item.maxLevels) (fs.get 2),
    ← (fs.get 3).list? (Cbor.optional? (Draft.ofItem? Item.maxLevels)))

/-- The chunk file of an export. Only the constants below the main function are fitted to their
tags, and nothing may be missing there. -/
def ChunkFile.imported (data : Bytes) : Except ImportError ChunkFile :=
  match (Item.ofBytes? data).bind draftsOfItem? with
  | none => .error .malformed
  | some (header, none, further) => .ok ⟨header, none, further⟩
  | some (header, some draft, further) =>
    match draft.complete? with
    | some root => .ok ⟨header, some (root.normalize header.integers), further⟩
    | none => .error .missingClosure

end HavokScript
