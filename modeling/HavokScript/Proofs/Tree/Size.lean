import HavokScript.Decompile.Uses
import HavokScript.Proofs.Tree.Addresses

/-!
# The size of a tree

`Node.size` is the number of nodes of a tree, those of a shared expression at each of its places. It is how
many nodes a walk over the tree comes to (`Node.length_visited`), but it is computed without the walk.
-/

namespace HavokScript

mutual

/-- The number of nodes of an expression. -/
def Expr.size : Expr → Nat
  | .missing => 0
  | .call _ f args => f.size + Expr.sizeAll args + 1
  | .binary _ _ l r => l.size + r.size + 1
  | .unary _ _ e => e.size + 1
  | .table _ ks vs => Expr.sizeAll ks + Expr.sizeAll vs + 1
  | .index _ t k => t.size + k.size + 1
  | .shared _ e => e.size
  | _ => 1

/-- The number of nodes of expressions. -/
def Expr.sizeAll : List Expr → Nat
  | [] => 0
  | e :: es => e.size + Expr.sizeAll es

end

mutual

/-- The number of nodes of a tree. -/
def Node.size : Node → Nat
  | .missing => 0
  | .expr e => e.size
  | .chunk _ body | .block _ body => Node.sizeAll body + 1
  | .scope _ body => body.size + 1
  | .whileLoop _ c body | .arm _ c body => c.size + body.size + 1
  | .repeatLoop _ body c => body.size + c.size + 1
  | .branch _ c body arms other => c.size + body.size + Node.sizeAll arms + other.size + 1
  | .numericFor _ _ init limit step body => init.size + limit.size + step.size + body.size + 1 + 1
  | .genericFor _ vars es body => Expr.sizeAll vars + Expr.sizeAll es + body.size + 1
  | .function _ name params _ body | .localFunction _ name params _ body =>
    name.size + params.length + body.size + 1
  | .locals _ ts vs | .assign _ ts vs _ => Expr.sizeAll ts + Expr.sizeAll vs + 1
  | .returns _ vs => Expr.sizeAll vs + 1
  | .jump .. => 1
  | .test _ c | .forLoop _ c _ => c.size + 1
  | .forPrep _ x y z _ => x.size + y.size + z.size + 1 + 1
  | .tForLoop _ vars => vars.length + 1

/-- The number of nodes of statements. -/
def Node.sizeAll : List Node → Nat
  | [] => 0
  | n :: ns => n.size + Node.sizeAll ns

end

/-! ## Walks -/

mutual

theorem Expr.length_addresses (e : Expr) : e.addresses.length = e.size := by
  cases e with
  | call a f args => simp [size, f.length_addresses, Expr.length_addressesAll args]
  | binary a op l r => simp [size, l.length_addresses, r.length_addresses]
  | unary a op e => simp [size, e.length_addresses]
  | table a ks vs => simp [size, Expr.length_addressesAll ks, Expr.length_addressesAll vs]
  | index a t k => simp [size, t.length_addresses, k.length_addresses]
  | shared n e => exact e.length_addresses
  | _ => rfl

theorem Expr.length_addressesAll (es : List Expr) : (Expr.addressesAll es).length = Expr.sizeAll es := by
  cases es with
  | nil => rfl
  | cons e es => simp [sizeAll, e.length_addresses, Expr.length_addressesAll es]

end

mutual

theorem Node.length_addresses (n : Node) : n.addresses.length = n.size := by
  have hone := Expr.length_addresses
  have hall := Expr.length_addressesAll
  cases n with
  | missing | jump => rfl
  | expr e => exact hone e
  | chunk a body | block a body => simp [size, Node.length_addressesAll body]
  | scope a body => simp [size, body.length_addresses]
  | whileLoop a c body | arm a c body | repeatLoop a body c => simp [size, hone, body.length_addresses]
  | branch a c body arms other =>
    simp [size, hone, body.length_addresses, Node.length_addressesAll arms, other.length_addresses,
      Nat.add_assoc]
  | numericFor a v init limit step body =>
    simp [size, init.length_addresses, limit.length_addresses, step.length_addresses,
      body.length_addresses, Nat.add_assoc]
  | genericFor a vars es body => simp [size, hall, body.length_addresses, Nat.add_assoc]
  | function a name params vararg body | localFunction a name params vararg body =>
    simp [size, hone, body.length_addresses, Nat.add_assoc]
  | locals | assign | returns => simp [size, hall]
  | test | forLoop | tForLoop => simp [size, hone]
  | forPrep => simp [size, hone, Nat.add_assoc]

theorem Node.length_addressesAll (ns : List Node) : (Node.addressesAll ns).length = Node.sizeAll ns := by
  cases ns with
  | nil => rfl
  | cons n ns => simp [sizeAll, n.length_addresses, Node.length_addressesAll ns]

end

namespace Node

/-- A walk comes to all nodes. -/
theorem length_visited (n : Node) : (n.visited fun _ => true).length = n.size := by
  rw [← n.length_addresses, addresses, List.length_map]

theorem sizeAll_append (ms ns : List Node) : sizeAll (ms ++ ns) = sizeAll ms + sizeAll ns := by
  rw [← length_addressesAll, addressesAll_append, List.length_append, length_addressesAll,
    length_addressesAll]

end Node

/-! ## Reads that are added -/

mutual

theorem Expr.size_addReads (reads : List Nat) (e : Expr) : (e.addReads reads).size = e.size := by
  cases e with
  | call a f args => simp [addReads, size, f.size_addReads, Expr.sizeAll_addReadsAll reads args]
  | binary a op l r => simp [addReads, size, l.size_addReads, r.size_addReads]
  | unary a op e => simp [addReads, size, e.size_addReads]
  | table a ks vs =>
    simp [addReads, size, Expr.sizeAll_addReadsAll reads ks, Expr.sizeAll_addReadsAll reads vs]
  | index a t k => simp [addReads, size, t.size_addReads, k.size_addReads]
  | shared n e => exact e.size_addReads reads
  | _ => rfl

theorem Expr.sizeAll_addReadsAll (reads : List Nat) (es : List Expr) :
    Expr.sizeAll (Expr.addReadsAll reads es) = Expr.sizeAll es := by
  cases es with
  | nil => rfl
  | cons e es => simp [addReadsAll, sizeAll, e.size_addReads, Expr.sizeAll_addReadsAll reads es]

end

mutual

theorem Node.size_addReads (reads : List Nat) (n : Node) : (n.addReads reads).size = n.size := by
  have hone := Expr.size_addReads reads
  have hall := Expr.sizeAll_addReadsAll reads
  cases n with
  | missing | jump => rfl
  | expr e => exact hone e
  | chunk a body | block a body => simp [addReads, size, Node.sizeAll_addReadsAll reads body]
  | scope a body => simp [addReads, size, body.size_addReads]
  | whileLoop a c body | arm a c body | repeatLoop a body c =>
    simp [addReads, size, hone, body.size_addReads]
  | branch a c body arms other =>
    simp [addReads, size, hone, body.size_addReads, Node.sizeAll_addReadsAll reads arms,
      other.size_addReads]
  | numericFor a v init limit step body =>
    simp [addReads, size, init.size_addReads, limit.size_addReads, step.size_addReads,
      body.size_addReads]
  | genericFor a vars es body => simp [addReads, size, hall, body.size_addReads]
  | function a name params vararg body | localFunction a name params vararg body =>
    simp [addReads, size, body.size_addReads]
  | locals | assign | returns => simp [addReads, size, hall]
  | test | forPrep | forLoop | tForLoop => simp [addReads, size, hone]

theorem Node.sizeAll_addReadsAll (reads : List Nat) (ns : List Node) :
    Node.sizeAll (Node.addReadsAll reads ns) = Node.sizeAll ns := by
  cases ns with
  | nil => rfl
  | cons n ns => simp [addReadsAll, sizeAll, n.size_addReads, Node.sizeAll_addReadsAll reads ns]

end

end HavokScript
