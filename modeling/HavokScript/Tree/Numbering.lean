import HavokScript.Tree.Basic

/-!
# Numbering registers

A tree that was just made has no register node at two places. Numbering gives its register nodes
different numbers, in source order, which from then on say which nodes are one and the same.
-/

namespace HavokScript

/-- A numbering step; the state is the next number. -/
abbrev Numbering (α : Type) := StateM Nat α

/-- The register with the next number. -/
def Register.renumber (r : Register) : Numbering Register := fun n => ({ r with id := n }, n + 1)

mutual

/-- The expression with its registers numbered. -/
def Expr.renumber : Expr → Numbering Expr
  | .register r => do return .register (← r.renumber)
  | .call a f args => do return .call a (← f.renumber) (← Expr.renumberAll args)
  | .binary a op l r => do return .binary a op (← l.renumber) (← r.renumber)
  | .unary a op e => do return .unary a op (← e.renumber)
  | .table a ks vs => do return .table a (← Expr.renumberAll ks) (← Expr.renumberAll vs)
  | .index a t k => do return .index a (← t.renumber) (← k.renumber)
  | .shared n e => do return .shared n (← e.renumber)
  | e => return e

/-- The expressions with their registers numbered. -/
def Expr.renumberAll : List Expr → Numbering (List Expr)
  | [] => return []
  | e :: es => do return (← e.renumber) :: (← Expr.renumberAll es)

end

mutual

/-- The node with its registers numbered. -/
def Node.renumber : Node → Numbering Node
  | .missing => return .missing
  | .expr e => do return .expr (← e.renumber)
  | .chunk a body => do return .chunk a (← Node.renumberAll body)
  | .block a body => do return .block a (← Node.renumberAll body)
  | .scope a body => do return .scope a (← body.renumber)
  | .whileLoop a c body => do return .whileLoop a (← c.renumber) (← body.renumber)
  | .repeatLoop a body c => do return .repeatLoop a (← body.renumber) (← c.renumber)
  | .branch a c body arms other => do
    return .branch a (← c.renumber) (← body.renumber) (← Node.renumberAll arms) (← other.renumber)
  | .arm a c body => do return .arm a (← c.renumber) (← body.renumber)
  | .numericFor a v init limit step body => do
    return .numericFor a (← v.renumber) (← init.renumber) (← limit.renumber) (← step.renumber)
      (← body.renumber)
  | .genericFor a vars es body => do
    return .genericFor a (← Expr.renumberAll vars) (← Expr.renumberAll es) (← body.renumber)
  | .function a name params vararg body => do
    return .function a (← name.renumber) (← params.mapM Register.renumber) vararg (← body.renumber)
  | .localFunction a name params vararg body => do
    return .localFunction a (← name.renumber) (← params.mapM Register.renumber) vararg
      (← body.renumber)
  | .locals a names vs => do return .locals a (← Expr.renumberAll names) (← Expr.renumberAll vs)
  | .assign a ts vs kept => do
    return .assign a (← Expr.renumberAll ts) (← Expr.renumberAll vs) kept
  | .returns a vs => do return .returns a (← Expr.renumberAll vs)
  | .jump a offset => return .jump a offset
  | .test a c => do return .test a (← c.renumber)
  | .forPrep a init limit step v => do
    return .forPrep a (← init.renumber) (← limit.renumber) (← step.renumber) (← v.renumber)
  | .forLoop a counter offset => do return .forLoop a (← counter.renumber) offset
  | .tForLoop a vars => do return .tForLoop a (← vars.mapM Register.renumber)

/-- The nodes with their registers numbered. -/
def Node.renumberAll : List Node → Numbering (List Node)
  | [] => return []
  | n :: ns => do return (← n.renumber) :: (← Node.renumberAll ns)

end

/-- The tree with its registers numbered from zero on. -/
def Node.numbered (n : Node) : Node := (n.renumber.run 0).1

end HavokScript
