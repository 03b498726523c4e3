import HavokScript.Decompile.Slots

/-!
# Use counts

Each read of a register is a use of the register node that was written last. `Node.tally` walks a
function in the order of evaluation and notes every read; `Node.countUses` adds the reads to the
counts. Every function is a scope of its own: it starts with its parameters written and nothing
else, and what it reads counts inside it only.
-/

namespace HavokScript

/-- What is known at a point of a scope: the register node written last to each register, and the
nodes that were read, the last one first. -/
structure Tally where
  /-- the node written last to each register -/
  live : Slots Nat
  /-- the nodes that were read -/
  reads : List Nat

/-- A step of the walk. -/
abbrev Counting (α : Type) := StateT Tally (Except DecompileError) α

namespace Tally

/-- The start of a scope. -/
def empty : Tally := ⟨Slots.empty, []⟩

/-- A register is written. -/
def bind (r : Register) : Counting Unit := fun t =>
  .ok ((), { t with live := t.live.set r.index r.id })

/-- A register is read. -/
def read (r : Register) : Counting Unit := fun t =>
  match t.live r.index with
  | some id => .ok ((), { t with reads := id :: t.reads })
  | none => .error (unbound r)

/-- Registers are written one after the other. -/
def bindAll : List Register → Counting Unit
  | [] => return ()
  | r :: rs => do bind r; bindAll rs

end Tally

/-! ## Reads -/

mutual

/-- Reads the registers of an expression. -/
def Expr.tally : Expr → Counting Unit
  | .register r => Tally.read r
  | .call _ f args => do f.tally; Expr.tallyAll args
  | .binary _ _ l r => do l.tally; r.tally
  | .unary _ _ e => e.tally
  | .table _ ks vs => do Expr.tallyAll ks; Expr.tallyAll vs
  | .index _ t k => do t.tally; k.tally
  | .shared _ e => e.tally
  | _ => return ()

/-- Reads the registers of expressions, from left to right. -/
def Expr.tallyAll : List Expr → Counting Unit
  | [] => return ()
  | e :: es => do e.tally; Expr.tallyAll es

end

/-- Writes a target: a register is written, and what any other target consists of is read. -/
def Expr.tallyTarget : Expr → Counting Unit
  | .register r => Tally.bind r
  | e => e.tally

/-- Writes targets from left to right. -/
def Expr.tallyTargets : List Expr → Counting Unit
  | [] => return ()
  | e :: es => do e.tallyTarget; Expr.tallyTargets es

/-- Writes the variables of all iterator calls of a statement list: they are written before the
loop body, which stands in front of the call. -/
def Node.bindIterators : List Node → Counting Unit
  | [] => return ()
  | .tForLoop _ vars :: ns => do Tally.bindAll vars; Node.bindIterators ns
  | _ :: ns => Node.bindIterators ns

/-- A walk in a scope of its own, of which only a failure is seen outside. -/
def Tally.nested (parameters : List Register) (walk : Counting Unit) : Counting Unit := fun t =>
  match (do bindAll parameters; walk : Counting Unit) Tally.empty with
  | .ok _ => .ok ((), t)
  | .error e => .error e

mutual

/-- Walks a node in the order of evaluation. -/
def Node.tally : Node → Counting Unit
  | .missing => return ()
  | .expr e => e.tally
  | .chunk _ body => do Node.bindIterators body; Node.tallyAll body
  | .block _ body => do Node.bindIterators body; Node.tallyAll body
  | .scope _ body => body.tally
  | .whileLoop _ c body => do c.tally; body.tally
  | .repeatLoop _ body c => do body.tally; c.tally
  | .branch _ c body arms other => do c.tally; body.tally; Node.tallyAll arms; other.tally
  | .arm _ c body => do c.tally; body.tally
  | .numericFor _ v init limit step body => do
    init.tally; limit.tally; step.tally; Tally.bind v; body.tally
  | .genericFor _ vars es body => do
    Expr.tallyAll es; Expr.tallyTargets vars; body.tally
  | .function _ _ params _ body => Tally.nested params body.tally
  | .localFunction _ _ params _ body => Tally.nested params body.tally
  | .locals _ names vs => do Expr.tallyAll vs; Expr.tallyTargets names
  | .assign _ ts vs _ => do Expr.tallyAll vs; Expr.tallyTargets ts
  | .returns _ vs => Expr.tallyAll vs
  | .jump _ _ => return ()
  | .test _ c => c.tally
  | .forPrep _ init limit step v => do init.tally; limit.tally; step.tally; Tally.bind v
  | .forLoop _ counter _ => counter.tally
  | .tForLoop _ vars => Tally.bindAll vars

/-- Walks nodes one after the other. -/
def Node.tallyAll : List Node → Counting Unit
  | [] => return ()
  | n :: ns => do n.tally; Node.tallyAll ns

end

/-! ## Counts -/

/-- The register with the reads of its node added; a count wraps around at 64 bits. -/
def Register.addReads (reads : List Nat) (r : Register) : Register :=
  { r with uses := wrap64 (r.uses + reads.count r.id) }

mutual

/-- The expression with reads added to its registers. -/
def Expr.addReads (reads : List Nat) : Expr → Expr
  | .register r => .register (r.addReads reads)
  | .call a f args => .call a (f.addReads reads) (Expr.addReadsAll reads args)
  | .binary a op l r => .binary a op (l.addReads reads) (r.addReads reads)
  | .unary a op e => .unary a op (e.addReads reads)
  | .table a ks vs => .table a (Expr.addReadsAll reads ks) (Expr.addReadsAll reads vs)
  | .index a t k => .index a (t.addReads reads) (k.addReads reads)
  | .shared n e => .shared n (e.addReads reads)
  | e => e

/-- The expressions with reads added to their registers. -/
def Expr.addReadsAll (reads : List Nat) : List Expr → List Expr
  | [] => []
  | e :: es => e.addReads reads :: Expr.addReadsAll reads es

end

/-- The reads of a function, which has a scope of its own. -/
def Tally.readsOf (parameters : List Register) (body : Node) : List Nat :=
  match (do bindAll parameters; body.tally : Counting Unit) Tally.empty with
  | .ok (_, t) => t.reads
  | .error _ => []

mutual

/-- The node with reads added to the registers of its scope, and in nested functions the reads of
these. -/
def Node.addReads (reads : List Nat) : Node → Node
  | .missing => .missing
  | .expr e => .expr (e.addReads reads)
  | .chunk a body => .chunk a (Node.addReadsAll reads body)
  | .block a body => .block a (Node.addReadsAll reads body)
  | .scope a body => .scope a (body.addReads reads)
  | .whileLoop a c body => .whileLoop a (c.addReads reads) (body.addReads reads)
  | .repeatLoop a body c => .repeatLoop a (body.addReads reads) (c.addReads reads)
  | .branch a c body arms other =>
    .branch a (c.addReads reads) (body.addReads reads) (Node.addReadsAll reads arms)
      (other.addReads reads)
  | .arm a c body => .arm a (c.addReads reads) (body.addReads reads)
  | .numericFor a v init limit step body =>
    .numericFor a (v.addReads reads) (init.addReads reads) (limit.addReads reads)
      (step.addReads reads) (body.addReads reads)
  | .genericFor a vars es body =>
    .genericFor a (Expr.addReadsAll reads vars) (Expr.addReadsAll reads es) (body.addReads reads)
  | .function a name params vararg body =>
    let inner := Tally.readsOf params body
    .function a name (params.map (Register.addReads inner)) vararg (body.addReads inner)
  | .localFunction a name params vararg body =>
    let inner := Tally.readsOf params body
    .localFunction a name (params.map (Register.addReads inner)) vararg (body.addReads inner)
  | .locals a names vs => .locals a (Expr.addReadsAll reads names) (Expr.addReadsAll reads vs)
  | .assign a ts vs kept => .assign a (Expr.addReadsAll reads ts) (Expr.addReadsAll reads vs) kept
  | .returns a vs => .returns a (Expr.addReadsAll reads vs)
  | .jump a offset => .jump a offset
  | .test a c => .test a (c.addReads reads)
  | .forPrep a init limit step v =>
    .forPrep a (init.addReads reads) (limit.addReads reads) (step.addReads reads)
      (v.addReads reads)
  | .forLoop a counter offset => .forLoop a (counter.addReads reads) offset
  | .tForLoop a vars => .tForLoop a (vars.map (Register.addReads reads))

/-- The nodes with reads added to the registers of their scope. -/
def Node.addReadsAll (reads : List Nat) : List Node → List Node
  | [] => []
  | n :: ns => n.addReads reads :: Node.addReadsAll reads ns

end

/-- The tree with all reads added to the use counts, unless a register is read that was not
written. -/
def Node.countUses (n : Node) : Except DecompileError Node :=
  match n.tally Tally.empty with
  | .ok (_, t) => .ok (n.addReads t.reads)
  | .error e => .error e

end HavokScript
