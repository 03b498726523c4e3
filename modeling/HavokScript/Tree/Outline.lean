import HavokScript.Number.Decimal
import HavokScript.Text.Escaped
import HavokScript.Tree.Basic

/-!
# Outlines

A tree seen only as nodes with children in source order. `Node.outline` makes the view, `visited`
walks it from the root down, and `Outline.text` draws it with one node on each line.
-/

namespace HavokScript

/-- A node and the outlines of its children. -/
inductive Outline where
  /-- a node and what is below it -/
  | node (root : Node) (children : List Outline)
  deriving Repr

namespace Outline

/-- The node at the root. -/
def root : Outline → Node
  | node n _ => n

/-- What is below the root. -/
def children : Outline → List Outline
  | node _ cs => cs

/-- A register. -/
def ofRegister (r : Register) : Outline := node (.expr (.register r)) []

end Outline

mutual

/-- The outline of an expression; a missing one has none. -/
def Expr.outline : Expr → List Outline
  | .missing => []
  | .shared _ e => e.outline
  | .call a f args => [.node (.expr (.call a f args)) (f.outline ++ Expr.outlines args)]
  | .binary a op l r => [.node (.expr (.binary a op l r)) (l.outline ++ r.outline)]
  | .unary a op e => [.node (.expr (.unary a op e)) e.outline]
  | .table a ks vs => [.node (.expr (.table a ks vs)) (Expr.outlines ks ++ Expr.outlines vs)]
  | .index a t k => [.node (.expr (.index a t k)) (t.outline ++ k.outline)]
  | e => [.node (.expr e) []]

/-- The outlines of expressions, one after the other. -/
def Expr.outlines : List Expr → List Outline
  | [] => []
  | e :: es => e.outline ++ Expr.outlines es

end

mutual

/-- The outline of a node; a missing one has none. -/
def Node.outline : Node → List Outline
  | .missing => []
  | .expr e => e.outline
  | .chunk a body => [.node (.chunk a body) (Node.outlines body)]
  | .block a body => [.node (.block a body) (Node.outlines body)]
  | .scope a body => [.node (.scope a body) body.outline]
  | .whileLoop a c body => [.node (.whileLoop a c body) (c.outline ++ body.outline)]
  | .repeatLoop a body c => [.node (.repeatLoop a body c) (body.outline ++ c.outline)]
  | .branch a c body arms other =>
    [.node (.branch a c body arms other)
      (c.outline ++ body.outline ++ Node.outlines arms ++ other.outline)]
  | .arm a c body => [.node (.arm a c body) (c.outline ++ body.outline)]
  | .numericFor a v init limit step body =>
    [.node (.numericFor a v init limit step body)
      (.ofRegister v :: (init.outline ++ limit.outline ++ step.outline ++ body.outline))]
  | .genericFor a vars es body =>
    [.node (.genericFor a vars es body) (Expr.outlines vars ++ Expr.outlines es ++ body.outline)]
  | .function a name params vararg body =>
    [.node (.function a name params vararg body)
      (name.outline ++ params.map .ofRegister ++ body.outline)]
  | .localFunction a name params vararg body =>
    [.node (.localFunction a name params vararg body)
      (name.outline ++ params.map .ofRegister ++ body.outline)]
  | .locals a names vs => [.node (.locals a names vs) (Expr.outlines names ++ Expr.outlines vs)]
  | .assign a ts vs kept => [.node (.assign a ts vs kept) (Expr.outlines ts ++ Expr.outlines vs)]
  | .returns a vs => [.node (.returns a vs) (Expr.outlines vs)]
  | .jump a offset => [.node (.jump a offset) []]
  | .test a c => [.node (.test a c) c.outline]
  | .forPrep a init limit step v =>
    [.node (.forPrep a init limit step v)
      (init.outline ++ limit.outline ++ step.outline ++ [.ofRegister v])]
  | .forLoop a counter offset => [.node (.forLoop a counter offset) counter.outline]
  | .tForLoop a vars => [.node (.tForLoop a vars) (vars.map .ofRegister)]

/-- The outlines of nodes, one after the other. -/
def Node.outlines : List Node → List Outline
  | [] => []
  | n :: ns => n.outline ++ Node.outlines ns

end

/-- The children of a node, in source order. -/
def Node.children (n : Node) : List Node :=
  (n.outline.flatMap Outline.children).map Outline.root

/-! ## Walking -/

mutual

/-- The nodes of an outline, each before what is below it; nothing below a node is visited unless
`descend` holds of it. -/
def Outline.visited (descend : Node → Bool) : Outline → List Node
  | .node n cs => n :: if descend n then Outline.visitedAll descend cs else []

/-- The nodes of outlines, one outline after the other. -/
def Outline.visitedAll (descend : Node → Bool) : List Outline → List Node
  | [] => []
  | c :: cs => c.visited descend ++ Outline.visitedAll descend cs

end

/-- The nodes of a tree, each before what is below it. -/
def Node.visited (descend : Node → Bool) (n : Node) : List Node :=
  Outline.visitedAll descend n.outline

/-! ## Labels -/

/-- The name of the kind of an expression. -/
def Expr.kind : Expr → String
  | .missing => ""
  | .register _ => "Register"
  | .closure .. => "Closure"
  | .identifier .. => "Identifier"
  | .nil _ => "NilLiteral"
  | .bool .. => "BoolLiteral"
  | .number .. => "NumberLiteral"
  | .string .. => "StringLiteral"
  | .vararg _ => "VarargLiteral"
  | .call .. => "Call"
  | .binary .. => "BinaryExpr"
  | .unary .. => "UnaryExpr"
  | .table .. => "TableConstructor"
  | .index .. => "TableAccess"
  | .shared _ e => e.kind

/-- The name of the kind of a node. -/
def Node.kind : Node → String
  | .missing => ""
  | .expr e => e.kind
  | .chunk .. => "Chunk"
  | .block .. => "Block"
  | .scope .. => "Do"
  | .whileLoop .. => "While"
  | .repeatLoop .. => "Repeat"
  | .branch .. => "If"
  | .arm .. => "ElseIf"
  | .numericFor .. => "NumericFor"
  | .genericFor .. => "GenericFor"
  | .function .. => "Function"
  | .localFunction .. => "LocalFunction"
  | .locals .. => "Local"
  | .assign .. => "Assign"
  | .returns .. => "Return"
  | .jump .. => "Jump"
  | .test .. => "Test"
  | .forPrep .. => "ForPrep"
  | .forLoop .. => "ForLoop"
  | .tForLoop .. => "TForLoop"

/-- The text of an address in a label. -/
def atAddress (address : Int) : Bytes := utf8 " @" ++ Numeral.hex 4 address

/-- The description of an expression without what is below it. -/
def Expr.label : Expr → Bytes
  | .missing => []
  | .register r => utf8 "R" ++ Numeral.int r.index ++ utf8 " uses=" ++ Numeral.int r.uses
  | .closure _ i => utf8 "C" ++ Numeral.int i
  | .identifier _ name => utf8 "Identifier " ++ name
  | .nil _ => utf8 "nil"
  | .bool _ b => if b then utf8 "true" else utf8 "false"
  | .number _ x => Decimal.ofDouble x
  | .string _ s => Escaped.text s
  | .vararg _ => utf8 "..."
  | .call a _ args => utf8 "Call" ++ atAddress a ++ utf8 " args=" ++ Numeral.nat args.length
  | .binary _ op _ _ => utf8 "Binary " ++ op
  | .unary _ op _ => utf8 "Unary " ++ op
  | .table .. => utf8 "Table \x7b\x7d"
  | .index .. => utf8 "Index"
  | .shared _ e => e.label

/-- The description of a node without what is below it. -/
def Node.label : Node → Bytes
  | .missing => []
  | .expr e => e.label
  | .block a body =>
    utf8 "Block" ++ atAddress a ++ utf8 " (" ++ Numeral.nat body.length ++ utf8 ")"
  | .function a _ params _ _ =>
    utf8 "Function" ++ atAddress a ++ utf8 " params=" ++ Numeral.nat params.length
  | .localFunction a _ params _ _ =>
    utf8 "LocalFunction" ++ atAddress a ++ utf8 " params=" ++ Numeral.nat params.length
  | .assign a _ _ kept =>
    utf8 "Assign" ++ atAddress a ++ if kept then utf8 " call" else []
  | .jump a offset => utf8 "Jump" ++ atAddress a ++ utf8 " " ++ Numeral.signedInt offset
  | .forLoop a _ offset => utf8 "ForLoop" ++ atAddress a ++ utf8 " " ++ Numeral.signedInt offset
  | n => utf8 n.kind ++ atAddress n.address

/-! ## Drawing -/

/-- The line in front of what stands below a child that has siblings after it, or has none. -/
def Outline.link (last : Bool) : Bytes := if last then utf8 "    " else utf8 "│   "

/-- A label in which every line but the first starts with the given margin. -/
def Outline.hanging (margin : Bytes) (label : Bytes) : Bytes :=
  label.flatMap fun b => if b = 10 then b :: margin else [b]

mutual

/-- An outline as a child, behind a margin. -/
def Outline.branch (margin : Bytes) (last : Bool) : Outline → Bytes
  | .node n cs =>
    let inner := margin ++ Outline.link last
    margin ++ (if last then utf8 "└── " else utf8 "├── ") ++ Outline.hanging inner n.label ++
      utf8 "\n" ++ Outline.branches inner cs

/-- Outlines as the children of one node, behind a margin. -/
def Outline.branches (margin : Bytes) : List Outline → Bytes
  | [] => []
  | c :: cs => c.branch margin cs.isEmpty ++ Outline.branches margin cs

end

/-- The drawing of an outline: its root, and the branches below it. -/
def Outline.text : Outline → Bytes
  | .node n cs => n.label ++ utf8 "\n" ++ Outline.branches [] cs

/-- The drawing of a tree. -/
def Node.dump (n : Node) : Bytes := n.outline.flatMap Outline.text

end HavokScript
