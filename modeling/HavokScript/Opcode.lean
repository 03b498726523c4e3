import HavokScript.Text.Numeral

/-!
# Opcodes

The instruction set of the virtual machine: the mnemonic of each opcode, the layout of its
instruction word and what each argument field means. The code of an opcode is its place in `all`.
-/

namespace HavokScript

/-- What an argument field of an instruction word means. -/
inductive Argument where
  /-- nothing -/
  | unused
  /-- a plain number -/
  | number
  /-- a register -/
  | register
  /-- an index into the constants -/
  | constant
  /-- a branch offset -/
  | offset
  /-- a register, or a constant if the highest bit of the field is set -/
  | registerOrConstant
  deriving DecidableEq, Repr

/-- The number of an argument kind. -/
def Argument.code : Argument → Nat
  | unused => 0
  | number => 1
  | register => 2
  | constant => 3
  | offset => 4
  | registerOrConstant => 5

/-- The name of a layout code. -/
def layoutName (code : UInt8) : Bytes :=
  if code = 0 then utf8 "ABC"
  else if code = 1 then utf8 "ABx"
  else if code = 2 then utf8 "AsBx"
  else utf8 "Mode(" ++ Numeral.nat code.toNat ++ utf8 ")"

/-- How an instruction word is divided into fields, and what they mean. -/
inductive Layout where
  /-- three fields A, B and C -/
  | abc (a b c : Argument)
  /-- a field A and a wide field Bx -/
  | abx (a b : Argument)
  /-- a field A and a signed branch offset in the wide field -/
  | asbx (a : Argument)
  deriving DecidableEq, Repr

namespace Layout

/-- The code of the division into fields. -/
def code : Layout → UInt8
  | abc .. => 0
  | abx .. => 1
  | asbx _ => 2

/-- The meaning of the field A. -/
def a : Layout → Argument
  | abc a _ _ => a
  | abx a _ => a
  | asbx a => a

/-- The meaning of the field B, or of the wide field. -/
def b : Layout → Argument
  | abc _ b _ => b
  | abx _ b => b
  | asbx _ => .offset

/-- The meaning of the field C. -/
def c : Layout → Argument
  | abc _ _ c => c
  | _ => .unused

end Layout

/-- The instructions of the virtual machine. -/
inductive Opcode where
  -- field access, calls and comparison
  | getField | test | callI | callC | eq | eqBK | getGlobal | move | self | ret
  -- tables
  | getTableS | getTableN | getTable | loadBool | tForLoop | setField | setTableS | setTableSBK
  | setTableN | setTableNBK | setTable | setTableBK
  -- tail calls, loads and jumps
  | tailCallI | tailCallC | tailCallM | loadK | loadNil | setGlobal | jmp | callM | call
  -- intrinsics
  | intrinsicIndex | intrinsicNewIndex | intrinsicSelf | intrinsicIndexLiteral
  | intrinsicNewIndexLiteral | intrinsicSelfLiteral
  -- upvalues
  | tailCall | getUpval | setUpval
  -- arithmetic
  | add | addBK | sub | subBK | mul | mulBK | div | divBK | mod | modBK | pow | powBK
  -- unary operators, comparison and loops
  | newTable | unm | not | len | lt | ltBK | le | leBK | concat | testSet | forPrep | forLoop
  -- closures and variants
  | setList | close | closure | vararg | tailCallIR1 | callIR1 | setUpvalR1 | testR1 | notR1
  | getFieldR1 | setFieldR1 | newStruct | data
  -- typed slots
  | setSlotN | setSlotI | setSlot | setSlotS | setSlotMT | checkType | checkTypes | getSlot
  | getSlotMT | selfSlot | selfSlotMT | getFieldMM | checkTypeD | getSlotD | getGlobalMem
  | delete | deleteBK
  deriving DecidableEq, Repr

namespace Opcode

/-- Every opcode, in the order of the codes. -/
def all : List Opcode :=
  [.getField, .test, .callI, .callC, .eq, .eqBK, .getGlobal, .move, .self, .ret, .getTableS,
   .getTableN, .getTable, .loadBool, .tForLoop, .setField, .setTableS, .setTableSBK, .setTableN,
   .setTableNBK, .setTable, .setTableBK, .tailCallI, .tailCallC, .tailCallM, .loadK, .loadNil,
   .setGlobal, .jmp, .callM, .call, .intrinsicIndex, .intrinsicNewIndex, .intrinsicSelf,
   .intrinsicIndexLiteral, .intrinsicNewIndexLiteral, .intrinsicSelfLiteral, .tailCall,
   .getUpval, .setUpval, .add, .addBK, .sub, .subBK, .mul, .mulBK, .div, .divBK, .mod, .modBK,
   .pow, .powBK, .newTable, .unm, .not, .len, .lt, .ltBK, .le, .leBK, .concat, .testSet,
   .forPrep, .forLoop, .setList, .close, .closure, .vararg, .tailCallIR1, .callIR1, .setUpvalR1,
   .testR1, .notR1, .getFieldR1, .setFieldR1, .newStruct, .data, .setSlotN, .setSlotI, .setSlot,
   .setSlotS, .setSlotMT, .checkType, .checkTypes, .getSlot, .getSlotMT, .selfSlot, .selfSlotMT,
   .getFieldMM, .checkTypeD, .getSlotD, .getGlobalMem, .delete, .deleteBK]

/-- The opcode with a given code. -/
def ofCode? (code : UInt8) : Option Opcode := all[code.toNat]?

/-- The mnemonic. -/
def mnemonic : Opcode → String
  | .getField => "GETFIELD"
  | .test => "TEST"
  | .callI => "CALL_I"
  | .callC => "CALL_C"
  | .eq => "EQ"
  | .eqBK => "EQ_BK"
  | .getGlobal => "GETGLOBAL"
  | .move => "MOVE"
  | .self => "SELF"
  | .ret => "RETURN"
  | .getTableS => "GETTABLE_S"
  | .getTableN => "GETTABLE_N"
  | .getTable => "GETTABLE"
  | .loadBool => "LOADBOOL"
  | .tForLoop => "TFORLOOP"
  | .setField => "SETFIELD"
  | .setTableS => "SETTABLE_S"
  | .setTableSBK => "SETTABLE_S_BK"
  | .setTableN => "SETTABLE_N"
  | .setTableNBK => "SETTABLE_N_BK"
  | .setTable => "SETTABLE"
  | .setTableBK => "SETTABLE_BK"
  | .tailCallI => "TAILCALL_I"
  | .tailCallC => "TAILCALL_C"
  | .tailCallM => "TAILCALL_M"
  | .loadK => "LOADK"
  | .loadNil => "LOADNIL"
  | .setGlobal => "SETGLOBAL"
  | .jmp => "JMP"
  | .callM => "CALL_M"
  | .call => "CALL"
  | .intrinsicIndex => "INTRINSIC_INDEX"
  | .intrinsicNewIndex => "INTRINSIC_NEWINDEX"
  | .intrinsicSelf => "INTRINSIC_SELF"
  | .intrinsicIndexLiteral => "INTRINSIC_INDEX_LITERAL"
  | .intrinsicNewIndexLiteral => "INTRINSIC_NEWINDEX_LITERAL"
  | .intrinsicSelfLiteral => "INTRINSIC_SELF_LITERAL"
  | .tailCall => "TAILCALL"
  | .getUpval => "GETUPVAL"
  | .setUpval => "SETUPVAL"
  | .add => "ADD"
  | .addBK => "ADD_BK"
  | .sub => "SUB"
  | .subBK => "SUB_BK"
  | .mul => "MUL"
  | .mulBK => "MUL_BK"
  | .div => "DIV"
  | .divBK => "DIV_BK"
  | .mod => "MOD"
  | .modBK => "MOD_BK"
  | .pow => "POW"
  | .powBK => "POW_BK"
  | .newTable => "NEWTABLE"
  | .unm => "UNM"
  | .not => "NOT"
  | .len => "LEN"
  | .lt => "LT"
  | .ltBK => "LT_BK"
  | .le => "LE"
  | .leBK => "LE_BK"
  | .concat => "CONCAT"
  | .testSet => "TESTSET"
  | .forPrep => "FORPREP"
  | .forLoop => "FORLOOP"
  | .setList => "SETLIST"
  | .close => "CLOSE"
  | .closure => "CLOSURE"
  | .vararg => "VARARG"
  | .tailCallIR1 => "TAILCALL_I_R1"
  | .callIR1 => "CALL_I_R1"
  | .setUpvalR1 => "SETUPVAL_R1"
  | .testR1 => "TEST_R1"
  | .notR1 => "NOT_R1"
  | .getFieldR1 => "GETFIELD_R1"
  | .setFieldR1 => "SETFIELD_R1"
  | .newStruct => "NEWSTRUCT"
  | .data => "DATA"
  | .setSlotN => "SETSLOTN"
  | .setSlotI => "SETSLOTI"
  | .setSlot => "SETSLOT"
  | .setSlotS => "SETSLOTS"
  | .setSlotMT => "SETSLOTMT"
  | .checkType => "CHECKTYPE"
  | .checkTypes => "CHECKTYPES"
  | .getSlot => "GETSLOT"
  | .getSlotMT => "GETSLOTMT"
  | .selfSlot => "SELFSLOT"
  | .selfSlotMT => "SELFSLOTMT"
  | .getFieldMM => "GETFIELD_MM"
  | .checkTypeD => "CHECKTYPE_D"
  | .getSlotD => "GETSLOT_D"
  | .getGlobalMem => "GETGLOBAL_MEM"
  | .delete => "DELETE"
  | .deleteBK => "DELETE_BK"

/-- The layout of the instruction word. -/
def layout : Opcode → Layout
  | .getField => .abc .register .register .constant
  | .test => .abc .register .unused .number
  | .callI => .abc .register .number .number
  | .callC => .abc .register .number .number
  | .eq => .abc .number .register .registerOrConstant
  | .eqBK => .abc .number .constant .register
  | .getGlobal => .abx .register .constant
  | .move => .abc .register .register .unused
  | .self => .abc .register .register .registerOrConstant
  | .ret => .abc .register .number .unused
  | .getTableS => .abc .register .register .registerOrConstant
  | .getTableN => .abc .register .register .registerOrConstant
  | .getTable => .abc .register .register .registerOrConstant
  | .loadBool => .abc .register .number .number
  | .tForLoop => .abc .register .unused .number
  | .setField => .abc .register .constant .registerOrConstant
  | .setTableS => .abc .register .register .registerOrConstant
  | .setTableSBK => .abc .register .constant .registerOrConstant
  | .setTableN => .abc .register .register .registerOrConstant
  | .setTableNBK => .abc .register .constant .registerOrConstant
  | .setTable => .abc .register .register .registerOrConstant
  | .setTableBK => .abc .register .constant .registerOrConstant
  | .tailCallI => .abc .register .number .number
  | .tailCallC => .abc .register .number .number
  | .tailCallM => .abc .register .number .number
  | .loadK => .abx .register .constant
  | .loadNil => .abc .register .register .unused
  | .setGlobal => .abx .register .constant
  | .jmp => .asbx .unused
  | .callM => .abc .register .number .number
  | .call => .abc .register .number .number
  | .intrinsicIndex => .abc .register .register .registerOrConstant
  | .intrinsicNewIndex => .abc .register .register .registerOrConstant
  | .intrinsicSelf => .abc .register .register .registerOrConstant
  | .intrinsicIndexLiteral => .abc .register .register .registerOrConstant
  | .intrinsicNewIndexLiteral => .abc .register .register .registerOrConstant
  | .intrinsicSelfLiteral => .abc .register .register .registerOrConstant
  | .tailCall => .abc .register .number .number
  | .getUpval => .abc .register .number .unused
  | .setUpval => .abc .register .number .unused
  | .add => .abc .register .register .registerOrConstant
  | .addBK => .abc .register .constant .register
  | .sub => .abc .register .register .registerOrConstant
  | .subBK => .abc .register .constant .register
  | .mul => .abc .register .register .registerOrConstant
  | .mulBK => .abc .register .constant .register
  | .div => .abc .register .register .registerOrConstant
  | .divBK => .abc .register .constant .register
  | .mod => .abc .register .register .registerOrConstant
  | .modBK => .abc .register .constant .register
  | .pow => .abc .register .register .registerOrConstant
  | .powBK => .abc .register .constant .register
  | .newTable => .abc .register .number .number
  | .unm => .abc .register .register .unused
  | .not => .abc .register .register .unused
  | .len => .abc .register .register .unused
  | .lt => .abc .number .register .registerOrConstant
  | .ltBK => .abc .number .constant .register
  | .le => .abc .number .register .registerOrConstant
  | .leBK => .abc .number .constant .register
  | .concat => .abc .register .register .register
  | .testSet => .abc .register .register .number
  | .forPrep => .asbx .register
  | .forLoop => .asbx .register
  | .setList => .abc .register .number .number
  | .close => .abc .register .unused .unused
  | .closure => .abx .register .number
  | .vararg => .abc .register .number .unused
  | .tailCallIR1 => .abc .register .number .number
  | .callIR1 => .abc .register .number .number
  | .setUpvalR1 => .abc .register .number .unused
  | .testR1 => .abc .register .unused .number
  | .notR1 => .abc .register .register .unused
  | .getFieldR1 => .abc .register .register .constant
  | .setFieldR1 => .abc .register .constant .registerOrConstant
  | .newStruct => .abc .register .number .number
  | .data => .abx .number .number
  | .setSlotN => .abc .register .number .unused
  | .setSlotI => .abc .register .number .unused
  | .setSlot => .abc .register .number .register
  | .setSlotS => .abc .register .number .register
  | .setSlotMT => .abc .register .number .register
  | .checkType => .abx .register .number
  | .checkTypes => .abx .register .number
  | .getSlot => .abc .register .register .number
  | .getSlotMT => .abc .register .register .number
  | .selfSlot => .abc .register .register .number
  | .selfSlotMT => .abc .register .register .number
  | .getFieldMM => .abc .register .register .constant
  | .checkTypeD => .abx .register .number
  | .getSlotD => .abc .register .register .number
  | .getGlobalMem => .abx .register .constant
  | .delete => .abc .register .register .registerOrConstant
  | .deleteBK => .abc .register .constant .register

/-- Whether the opcode is a call that returns here. -/
def isCall : Opcode → Bool
  | .call | .callI | .callIR1 | .callC | .callM => true
  | _ => false

/-- Whether the opcode is a call that returns to the caller. -/
def isTailCall : Opcode → Bool
  | .tailCall | .tailCallI | .tailCallIR1 | .tailCallC | .tailCallM => true
  | _ => false

/-- Whether the instruction carries a signed branch offset. -/
def isJump (op : Opcode) : Bool :=
  match op.layout with
  | .asbx _ => true
  | _ => false

/-- The mnemonic of a code; a code without an opcode is shown as a number. -/
def name (code : UInt8) : Bytes :=
  match ofCode? code with
  | some op => utf8 op.mnemonic
  | none => utf8 "UNKNOWN(0x" ++ Numeral.hex 2 code.toNat ++ utf8 ")"

end Opcode

end HavokScript
