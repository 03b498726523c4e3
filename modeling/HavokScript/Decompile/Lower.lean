import HavokScript.Decompile.Error
import HavokScript.Tree.Numbering

/-!
# Lowering

Every instruction of a function becomes at most two statements at its address; branches become
markers. Nested functions are not looked at.
-/

namespace HavokScript

/-- A function as statements. -/
structure Declaration where
  /-- the address of the function -/
  address : Int
  /-- the registers that hold the arguments -/
  parameters : List Register
  /-- whether the function takes further arguments -/
  vararg : Bool
  /-- the statements -/
  body : List Node
  deriving Repr

namespace Declaration

/-- The declaration with its registers numbered, parameters first. -/
def numbered (d : Declaration) : Declaration :=
  let (parameters, n) := (d.parameters.mapM Register.renumber).run 0
  { d with parameters, body := ((Node.renumberAll d.body).run n).1 }

/-- The declaration as a function without a name. -/
def toNode (d : Declaration) : Node :=
  .function d.address .missing d.parameters d.vararg (.block d.address d.body)

end Declaration

namespace Lower

/-- A register that is read or written by the instruction at an address. -/
def reg (address index : Int) : Expr := .register ⟨0, address, index, 0⟩

/-- `count` registers from `first` on. -/
def regs (address first : Int) (count : Nat) : List Expr :=
  (List.range count).map fun (i : Nat) => reg address (wrap64 (first + i))

/-- A constant by its index. -/
def constant (c : Code) (index : Int) : Except DecompileCause Constant :=
  match c.constant? index with
  | some k => .ok k
  | none => .error (.constantIndex index c.constants.items.length c.label)

/-- The literal of a constant: nil, a boolean, a number or a string. -/
def literal (c : Code) (address index : Int) : Except DecompileCause Expr := do
  let k ← constant c index
  if k.tag = .nil then return .nil address
  else if k.tag = .boolean then return .bool address k.isTrue
  else if k.tag = .number then return .number address (k.payload.float?.getD .zero)
  else if k.tag = .string then return .string address k.stringOrEmpty
  else throw (.constantKind index k.tag)

/-- The name that a string constant is. -/
def name (c : Code) (address index : Int) : Except DecompileCause Expr := do
  let k ← constant c index
  match k.string? with
  | some s => return .identifier address s
  | none => throw (.globalKey index k.tag)

/-- The expression of an operand, by its role. -/
def operand (c : Code) (i : Instruction) (n : Nat) : Except DecompileCause Expr :=
  match i.operands.items[n]? with
  | none => .error (.missingOperand n)
  | some o =>
    if o.role = .register then .ok (reg i.address o.value)
    else if o.role = .constant then literal c i.address o.value
    else .ok (.number i.address (.ofInt o.value))

/-- An assignment of one value to one target. -/
def assign (address : Int) (target value : Expr) : Node := .assign address [target] [value] false

/-- `R(A) = B operator C`. -/
def arithmetic (c : Code) (i : Instruction) (op : String) : Except DecompileCause (List Node) := do
  let left ← operand c i 1
  let right ← operand c i 2
  return [assign i.address (reg i.address (i.argument 0))
    (.binary i.address (utf8 op) left right)]

/-- `R(A) = operator R(B)`. -/
def unary (i : Instruction) (op : String) : Except DecompileCause (List Node) :=
  return [assign i.address (reg i.address (i.argument 0))
    (.unary i.address (utf8 op) (reg i.address (i.argument 1)))]

/-- A test of a comparison; the operator is `whenOne` if A is one. -/
def comparison (c : Code) (i : Instruction) (op whenOne : String) :
    Except DecompileCause (List Node) := do
  let left ← operand c i 1
  let right ← operand c i 2
  let op := if i.argument 0 = 1 then whenOne else op
  return [.test i.address (.binary i.address (utf8 op) left right)]

/-- `R(A)(R(A+1), …, R(A+B-1))`. -/
def call (i : Instruction) : Expr :=
  .call i.address (reg i.address (i.argument 0))
    (regs i.address (wrap64 (i.argument 0 + 1)) (i.argument 1 - 1).toNat)

/-- A register, negated if the argument `n` is one. -/
def condition (i : Instruction) (register : Int) (n : Nat) : Expr :=
  if i.argument n = 1 then .unary i.address (utf8 "not ") (reg i.address register)
  else reg i.address register

/-- The name of an upvalue. -/
def upvalue (address index : Int) : Expr :=
  .identifier address (utf8 "U" ++ Numeral.int index)

/-- The registers from A to B set to nil, and A at least. -/
def loadNil (i : Instruction) : List Node :=
  let a := i.argument 0
  let count := max 1 (i.argument 1 - a + 1).toNat
  [.assign i.address (regs i.address a count) (List.replicate count (.nil i.address)) false]

/-- The register B, and those from the next one to C, joined from left to right. -/
def concat (i : Instruction) : Expr :=
  let second := wrap64 (i.argument 1 + 1)
  (regs i.address second (i.argument 2 - second + 1).toNat).foldl
    (fun e r => .binary i.address (utf8 "..") e r) (reg i.address (i.argument 1))

/-- The statements of an instruction with a given opcode. -/
def opcode (c : Code) (i : Instruction) : Opcode → Except DecompileCause (List Node)
  | .add | .addBK => arithmetic c i "+"
  | .sub | .subBK => arithmetic c i "-"
  | .mul | .mulBK => arithmetic c i "*"
  | .div | .divBK => arithmetic c i "/"
  | .mod | .modBK => arithmetic c i "%"
  | .pow | .powBK => arithmetic c i "^"
  | .unm => unary i "-"
  | .not | .notR1 => unary i "not "
  | .len => unary i "#"
  | .eq | .eqBK => comparison c i "==" "~="
  | .lt | .ltBK => comparison c i "<" ">="
  | .le | .leBK => comparison c i "<=" ">"
  | .call | .callI | .callIR1 | .callC | .callM =>
    return [.assign i.address (regs i.address (i.argument 0) (i.argument 2 - 1).toNat) [call i]
      false]
  | .tailCall | .tailCallI | .tailCallIR1 | .tailCallC | .tailCallM =>
    return [.returns i.address [call i]]
  | .jmp => return [.jump i.address (i.argument 0)]
  | .forPrep =>
    let a := i.argument 0
    return [.forPrep i.address (reg i.address a) (reg i.address (wrap64 (a + 1)))
      (reg i.address (wrap64 (a + 2))) ⟨0, i.address, wrap64 (a + 3), 0⟩]
  | .forLoop => return [.forLoop i.address (reg i.address (i.argument 0)) (i.argument 1)]
  | .tForLoop =>
    return [.tForLoop i.address ((List.range (i.argument 1).toNat).map fun (n : Nat) =>
      ⟨0, i.address, wrap64 (i.argument 0 + 3 + n), 0⟩)]
  | .test | .testR1 => return [.test i.address (condition i (i.argument 0) 1)]
  | .testSet =>
    return [.test i.address (condition i (i.argument 1) 2),
      assign i.address (reg i.address (i.argument 0)) (reg i.address (i.argument 1))]
  | .loadBool =>
    return assign i.address (reg i.address (i.argument 0)) (.bool i.address (i.argument 1 ≠ 0)) ::
      if i.argument 2 = 0 then [] else [.jump i.address 1]
  | .loadNil => return loadNil i
  | .loadK => do
    let k ← operand c i 1
    return [assign i.address (reg i.address (i.argument 0)) k]
  | .getGlobal | .getGlobalMem => do
    let g ← name c i.address (i.argument 1)
    return [assign i.address (reg i.address (i.argument 0)) g]
  | .setGlobal => do
    let g ← name c i.address (i.argument 1)
    return [assign i.address g (reg i.address (i.argument 0))]
  | .move =>
    return [assign i.address (reg i.address (i.argument 0)) (reg i.address (i.argument 1))]
  | .concat => return [assign i.address (reg i.address (i.argument 0)) (concat i)]
  | .vararg =>
    return [.assign i.address
      (regs i.address (i.argument 0) (max 1 (i.argument 1 - 1).toNat)) [.vararg i.address] false]
  | .ret =>
    if i.argument 1 ≤ 0 then return []
    else
      return [.returns i.address (regs i.address (i.argument 0) (i.argument 1 - 1).toNat)]
  | .closure =>
    return [assign i.address (reg i.address (i.argument 0)) (.closure i.address (i.argument 1))]
  | .getField | .getFieldR1 | .getFieldMM => do
    let key ← name c i.address (i.argument 2)
    return [assign i.address (reg i.address (i.argument 0))
      (.index i.address (reg i.address (i.argument 1)) key)]
  | .setField | .setFieldR1 => do
    let key ← name c i.address (i.argument 1)
    let value ← operand c i 2
    return [assign i.address (.index i.address (reg i.address (i.argument 0)) key) value]
  | .getTable | .getTableS | .getTableN => do
    let key ← operand c i 2
    return [assign i.address (reg i.address (i.argument 0))
      (.index i.address (reg i.address (i.argument 1)) key)]
  | .setTable | .setTableS | .setTableN | .setTableBK | .setTableSBK | .setTableNBK => do
    let key ← operand c i 1
    let value ← operand c i 2
    return [assign i.address (.index i.address (reg i.address (i.argument 0)) key) value]
  | .self => do
    let key ← operand c i 2
    return [assign i.address (reg i.address (wrap64 (i.argument 0 + 1)))
        (reg i.address (i.argument 1)),
      assign i.address (reg i.address (i.argument 0))
        (.index i.address (reg i.address (i.argument 1)) key)]
  | .getUpval =>
    return [assign i.address (reg i.address (i.argument 0)) (upvalue i.address (i.argument 1))]
  | .setUpval | .setUpvalR1 =>
    return [assign i.address (upvalue i.address (i.argument 1)) (reg i.address (i.argument 0))]
  | .newTable => return [assign i.address (reg i.address (i.argument 0)) (.table i.address [] [])]
  | _ => return []

/-- The statements of an instruction. -/
def instruction (c : Code) (i : Instruction) : Except DecompileError (List Node) :=
  match Opcode.ofCode? i.op with
  | none => .ok []
  | some op =>
    match opcode c i op with
    | .ok ns => .ok ns
    | .error cause => .error (.failed i.address (some i.op) cause)

/-- The statements of instructions, one after the other. -/
def instructions (c : Code) : List Instruction → Except DecompileError (List Node)
  | [] => return []
  | i :: is => do
    let ns ← instruction c i
    let rest ← instructions c is
    return ns ++ rest

end Lower

/-- The function as flat statements. -/
def Code.lower (c : Code) : Except DecompileError Declaration := do
  let body ← Lower.instructions c c.instructions.items
  return Declaration.numbered
    { address := c.address
      parameters := (List.range c.parameters.toNat).map fun (i : Nat) => ⟨0, c.address, i, 0⟩
      vararg := c.varargFlags ≠ 0
      body }

end HavokScript
