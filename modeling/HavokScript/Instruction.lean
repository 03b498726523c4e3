import HavokScript.Opcode

/-!
# Instructions

An instruction word has 32 bits: the opcode in the highest 7, then B in 8, C in 9 and A in the
lowest 8; Bx is B and C taken together. `Instruction.decode` splits a word into operands by the
layout of its opcode.
-/

namespace HavokScript

/-- A 32-bit instruction word. -/
abbrev Word := UInt32

namespace Word

/-! ## Fields -/

/-- The code of the opcode. -/
def op (w : Word) : UInt8 := (w.toNat / 0x2000000).toUInt8

/-- The field A. -/
def a (w : Word) : Nat := w.toNat % 0x100

/-- The field B. -/
def b (w : Word) : Nat := w.toNat / 0x20000 % 0x100

/-- The field C. -/
def c (w : Word) : Nat := w.toNat / 0x100 % 0x200

/-- The wide field Bx. -/
def bx (w : Word) : Nat := w.toNat / 0x100 % 0x20000

/-- What the wide field holds for the offset zero. -/
def bias : Int := 0xFFFF

/-- The branch offset in the wide field. -/
def sbx (w : Word) : Int := w.bx - bias

/-! ## Packing -/

/-- The low `width` bits of an integer. -/
def field (width : Nat) (x : Int) : Nat := (x % (Nat.pow 2 width : Nat)).toNat

/-- The word with an opcode and the fields A and Bx, each cut to its width. -/
def ofABx (op : UInt8) (a bx : Int) : Word :=
  (op.toNat % 0x80 * 0x2000000 + field 17 bx * 0x100 + field 8 a).toUInt32

/-- The word with an opcode and the fields A, B and C, each cut to its width. -/
def ofABC (op : UInt8) (a b c : Int) : Word :=
  (op.toNat % 0x80 * 0x2000000 + field 8 b * 0x20000 + field 9 c * 0x100 + field 8 a).toUInt32

/-- The word with an opcode, the field A and a branch offset. -/
def ofAsBx (op : UInt8) (a sbx : Int) : Word := ofABx op a (sbx + bias)

end Word

/-- What an operand refers to; files may hold codes without a meaning. -/
structure Role where
  /-- the code -/
  code : UInt8
  deriving DecidableEq, Repr

namespace Role

/-- A plain number. -/
def number : Role := ⟨0⟩

/-- A register. -/
def register : Role := ⟨1⟩

/-- A constant. -/
def constant : Role := ⟨2⟩

/-- The name of a role. -/
def name (r : Role) : Bytes :=
  if r = number then utf8 "NUMBER"
  else if r = register then utf8 "REGISTER"
  else if r = constant then utf8 "CONSTANT"
  else utf8 "Role(" ++ Numeral.nat r.code.toNat ++ utf8 ")"

end Role

/-- One argument of an instruction. -/
structure Operand where
  /-- what the value refers to -/
  role : Role
  /-- the value -/
  value : Int
  deriving DecidableEq, Repr

namespace Operand

/-- The operand as a listing shows it. -/
def text (o : Operand) : Bytes :=
  if o.role = .register then utf8 "R(" ++ Numeral.int o.value ++ utf8 ")"
  else if o.role = .constant then utf8 "K(" ++ Numeral.int o.value ++ utf8 ")"
  else Numeral.int o.value

/-- The operand of a field that holds a register, or a constant from 256 on. -/
def ofRegisterOrConstant (c : Nat) : Operand :=
  if 256 ≤ c then ⟨.constant, c % 256⟩ else ⟨.register, c⟩

/-- The operand of a field, unless the field is unused. -/
def ofField : Argument → Nat → List Operand
  | .unused, _ => []
  | .number, x | .offset, x => [⟨.number, x⟩]
  | .register, x => [⟨.register, x⟩]
  | .constant, x => [⟨.constant, x⟩]
  | .registerOrConstant, x => [ofRegisterOrConstant x]

end Operand

/-- A list that a model may also lack altogether. -/
abbrev Section (α : Type) := Option (List α)

/-- The items of a section; one that is lacking has none. -/
def Section.items {α : Type} (s : Section α) : List α := s.getD []

/-- The section of some items: lacking if there are none. -/
def Section.ofItems {α : Type} (items : List α) : Section α :=
  if items.isEmpty then none else some items

@[simp] theorem Section.items_ofItems {α : Type} (items : List α) :
    (Section.ofItems items).items = items := by
  cases items <;> rfl

/-- An instruction: where its word stands in the file, its opcode, the word and its operands. -/
structure Instruction where
  /-- the position of the word -/
  address : Int
  /-- the code of the opcode -/
  op : UInt8
  /-- the word -/
  raw : Word
  /-- the operands -/
  operands : Section Operand
  deriving DecidableEq, Repr

namespace Instruction

/-- The value of an operand; zero if there is no such operand. -/
def argument (i : Instruction) (n : Nat) : Int :=
  match i.operands.items[n]? with
  | some o => o.value
  | none => 0

/-- The instruction as a listing shows it. -/
def text (i : Instruction) : Bytes :=
  match i.operands.items with
  | [] => Opcode.name i.op
  | os => Opcode.name i.op ++ utf8 " " ++ Bytes.join (utf8 ", ") (os.map Operand.text)

/-- The operands of a word by the layout of its opcode. -/
def operandsOf (layout : Layout) (w : Word) : List Operand :=
  match layout with
  | .abc a b c => Operand.ofField a w.a ++ Operand.ofField b w.b ++ Operand.ofField c w.c
  | .abx a b => Operand.ofField a w.a ++ Operand.ofField b w.bx
  | .asbx a => Operand.ofField a w.a ++ [⟨.number, w.sbx⟩]

/-- The instruction of a word, unless its opcode is unknown. -/
def decode (address : Int) (w : Word) : Option Instruction :=
  (Opcode.ofCode? w.op).map fun op =>
    ⟨address, w.op, w, Section.ofItems (operandsOf op.layout w)⟩

end Instruction

end HavokScript
