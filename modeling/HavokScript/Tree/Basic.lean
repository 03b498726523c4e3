import HavokScript.Number.Binary

/-!
# Decompiled trees

The tree of a decompiled chunk: expressions, statements, and the markers that stand for branches
until loops are recovered. Every node has the address of the instruction it came from, or of the
first instruction of what it contains.

A register node has an identity: the same node may stand at several places of a function, and then
its use count is the same at all of them. Likewise a `shared` expression is one expression that
stands at every place with its number.
-/

namespace HavokScript

/-- A register of the virtual machine, used as a local variable. -/
structure Register where
  /-- which register node of its function this is -/
  id : Nat
  /-- the address of the instruction -/
  address : Int
  /-- the register -/
  index : Int
  /-- how often the value written here is read -/
  uses : Int
  deriving DecidableEq, Repr

/-- An expression. -/
inductive Expr where
  /-- no expression at all -/
  | missing
  /-- a register -/
  | register (r : Register)
  /-- the closure of a nested function, `C1` -/
  | closure (address index : Int)
  /-- the name of a global variable, a field or an upvalue -/
  | identifier (address : Int) (name : Bytes)
  /-- `nil` -/
  | nil (address : Int)
  /-- `true` or `false` -/
  | bool (address : Int) (value : Bool)
  /-- a number -/
  | number (address : Int) (value : Double)
  /-- a string -/
  | string (address : Int) (value : Bytes)
  /-- `...` -/
  | vararg (address : Int)
  /-- `function(arguments)` -/
  | call (address : Int) (function : Expr) (arguments : List Expr)
  /-- `left operator right` -/
  | binary (address : Int) (operator : Bytes) (left right : Expr)
  /-- an operator, with the blank that follows it if there is one, and its operand -/
  | unary (address : Int) (operator : Bytes) (operand : Expr)
  /-- `{[key] = value}`; a value without a key is positional -/
  | table (address : Int) (keys values : List Expr)
  /-- `table.key` or `table[key]` -/
  | index (address : Int) (table key : Expr)
  /-- the one expression that stands at every place with this number -/
  | shared (number : Nat) (value : Expr)
  deriving Repr

/-- A statement, a part of one that is no expression, or an expression in such a place. -/
inductive Node where
  /-- no node at all -/
  | missing
  /-- an expression -/
  | expr (e : Expr)
  /-- a whole file -/
  | chunk (address : Int) (body : List Node)
  /-- a list of statements -/
  | block (address : Int) (body : List Node)
  /-- `do … end`, the body a block -/
  | scope (address : Int) (body : Node)
  /-- `while condition do … end` -/
  | whileLoop (address : Int) (condition : Expr) (body : Node)
  /-- `repeat … until condition` -/
  | repeatLoop (address : Int) (body : Node) (condition : Expr)
  /-- `if condition then … end`, with its `elseif` arms and its `else` block -/
  | branch (address : Int) (condition : Expr) (body : Node) (arms : List Node) (otherwise : Node)
  /-- an `elseif` arm -/
  | arm (address : Int) (condition : Expr) (body : Node)
  /-- `for var = init, limit, step do … end`; the bounds are the assignments that load them
  until they are inlined -/
  | numericFor (address : Int) (var : Register) (init limit step body : Node)
  /-- `for vars in values do … end` -/
  | genericFor (address : Int) (vars values : List Expr) (body : Node)
  /-- `function name(parameters) … end` -/
  | function (address : Int) (name : Expr) (parameters : List Register) (vararg : Bool)
      (body : Node)
  /-- `local function name(parameters) … end` -/
  | localFunction (address : Int) (name : Expr) (parameters : List Register) (vararg : Bool)
      (body : Node)
  /-- `local names = values` -/
  | locals (address : Int) (names values : List Expr)
  /-- `targets = values`, or a call statement if there are no targets; `kept` marks a call whose
  result was given a name -/
  | assign (address : Int) (targets values : List Expr) (kept : Bool)
  /-- `return values` -/
  | returns (address : Int) (values : List Expr)
  /-- a marker: a branch by a number of instructions -/
  | jump (address offset : Int)
  /-- a marker: the next instruction is skipped unless the condition holds -/
  | test (address : Int) (condition : Expr)
  /-- a marker: the start of a numeric loop -/
  | forPrep (address : Int) (init limit step : Expr) (var : Register)
  /-- a marker: the end of a numeric loop, a branch back behind its start -/
  | forLoop (address : Int) (counter : Expr) (offset : Int)
  /-- a marker: the call of an iterator, with the registers its results go to -/
  | tForLoop (address : Int) (vars : List Register)
  deriving Repr

namespace Expr

/-- The expression without the mark of a shared one. -/
def peel : Expr → Expr
  | shared _ e => e.peel
  | e => e

/-- The register that an expression is, if it is one. -/
def register? : Expr → Option Register
  | register r => some r
  | _ => none

/-- Whether the expression is a call. -/
def isCall (e : Expr) : Bool :=
  match e.peel with
  | call .. => true
  | _ => false

/-- The address of an expression. -/
def address : Expr → Int
  | missing => 0
  | register r => r.address
  | closure a _ | identifier a _ | nil a | bool a _ | number a _ | string a _ | vararg a
  | call a _ _ | binary a _ _ _ | unary a _ _ | table a _ _ | index a _ _ => a
  | shared _ e => e.address

end Expr

namespace Node

/-- An expression as a node; no expression is no node. -/
def ofExpr : Expr → Node
  | .missing => missing
  | e => expr e

/-- The address of a node. -/
def address : Node → Int
  | missing => 0
  | expr e => e.address
  | chunk a _ | block a _ | scope a _ | whileLoop a _ _ | repeatLoop a _ _ | branch a _ _ _ _
  | arm a _ _ | numericFor a _ _ _ _ _ | genericFor a _ _ _ | function a _ _ _ _
  | localFunction a _ _ _ _ | locals a _ _ | assign a _ _ _ | returns a _ | jump a _ | test a _
  | forPrep a _ _ _ _ | forLoop a _ _ | tForLoop a _ => a

/-- Whether the node is a statement. -/
def isStatement : Node → Bool
  | missing | expr _ | chunk .. | arm .. => false
  | _ => true

/-- Whether the node is a marker, which only stands for a branch. -/
def isMarker : Node → Bool
  | jump .. | test .. | forPrep .. | forLoop .. | tForLoop .. => true
  | _ => false

/-- The statements of a block; no block has none. -/
def statements : Node → List Node
  | block _ body => body
  | _ => []

end Node

/-- The address that a branch at an address leads to: offsets count words of four bytes from the
next one on. -/
def branchTarget (address offset : Int) : Int := wrap64 (address + 4 + offset * 4)

end HavokScript
