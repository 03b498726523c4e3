import HavokScript.Decompile.Slots

/-!
# Inlining

An assignment to a lone register that is read at most once is deleted, and its value is put where
the register is read; any other written register stays as it is. The pass trusts the use counts.

A value that is put at several places after all is one shared expression: it has a number, and what
a later pass does to it at one place it does at all of them. Inside a scope `versions` holds the
latest form of each shared expression that was visited; `settle` brings all places up to date when
the scope ends.
-/

namespace HavokScript

/-- What is known at a point of a scope. -/
structure Scope where
  /-- what a read of each register is replaced with -/
  live : Slots Expr
  /-- the latest form of the shared expressions that were visited -/
  versions : List (Nat × Expr)
  /-- the next number of a shared expression -/
  next : Nat

/-- A step of inlining. -/
abbrev Inlining (α : Type) := StateT Scope (Except DecompileError) α

namespace Scope

/-- The start of a scope in a tree whose shared expressions have numbers below `bound`. -/
def start (bound : Nat) : Scope := ⟨Slots.empty, [], bound⟩

/-- Reads of the register are replaced with a value. -/
def set (index : Int) (value : Expr) : Inlining Unit := fun s =>
  .ok ((), { s with live := s.live.set index value })

/-- The register stays as it is. -/
def keep (r : Register) : Inlining Unit := set r.index (.register r)

/-- Registers stay as they are. -/
def keepAll : List Register → Inlining Unit
  | [] => return ()
  | r :: rs => do keep r; keepAll rs

/-- The registers among some targets stay as they are. -/
def keepTargets : List Expr → Inlining Unit
  | [] => return ()
  | .register r :: es => do keep r; keepTargets es
  | _ :: es => keepTargets es

/-- What a read of a register is replaced with. -/
def read (r : Register) : Inlining Expr := fun s =>
  match s.live r.index with
  | some e => .ok (e, s)
  | none => .error (unbound r)

/-- The latest form of a shared expression. -/
def latest (n : Nat) (e : Expr) : Inlining Expr := fun s =>
  .ok ((s.versions.lookup n).getD e, s)

/-- A shared expression has a new form. -/
def record (n : Nat) (e : Expr) : Inlining Unit := fun s =>
  .ok ((), { s with versions := (n, e) :: s.versions })

/-- The expression as one that may stand at several places. One without parts needs no number. -/
def share (e : Expr) : Inlining Expr := fun s =>
  match e with
  | .call .. | .binary .. | .unary .. | .table .. | .index .. =>
    .ok (.shared s.next e, { s with next := s.next + 1 })
  | _ => .ok (e, s)

end Scope

/-! ## Expressions -/

mutual

/-- The expression with its reads replaced; `visit` updates a shared expression. -/
def Expr.swapWith (visit : Nat → Expr → Inlining Expr) : Expr → Inlining Expr
  | .register r => Scope.read r
  | .call a f args => do
    let f ← f.swapWith visit
    let args ← Expr.swapAllWith visit args
    return .call a f args
  | .binary a op l r => do
    let l ← l.swapWith visit
    let r ← r.swapWith visit
    return .binary a op l r
  | .unary a op e => do
    let e ← e.swapWith visit
    return .unary a op e
  | .table a ks vs => do
    let ks ← Expr.swapAllWith visit ks
    let vs ← Expr.swapAllWith visit vs
    return .table a ks vs
  | .index a t k => do
    let t ← t.swapWith visit
    let k ← k.swapWith visit
    return .index a t k
  | .shared n e => visit n e
  | e => return e

/-- The expressions with their reads replaced, from left to right. -/
def Expr.swapAllWith (visit : Nat → Expr → Inlining Expr) : List Expr → Inlining (List Expr)
  | [] => return []
  | e :: es => do
    let e ← e.swapWith visit
    let es ← Expr.swapAllWith visit es
    return e :: es

end

/-- Updates the latest form of a shared expression; `depth` bounds how deep shared expressions are
nested. -/
def Expr.visitShared : Nat → Nat → Expr → Inlining Expr
  | 0, n, e => return .shared n e
  | depth + 1, n, e => do
    let e ← Scope.latest n e
    let e ← e.swapWith (Expr.visitShared depth)
    Scope.record n e
    return .shared n e

/-- The expression with its reads replaced. -/
def Expr.swap (depth : Nat) (e : Expr) : Inlining Expr := e.swapWith (Expr.visitShared depth)

/-- The expressions with their reads replaced. -/
def Expr.swapAll (depth : Nat) (es : List Expr) : Inlining (List Expr) :=
  Expr.swapAllWith (Expr.visitShared depth) es

/-- Targets with their reads replaced: a register is written and not read. -/
def Expr.swapTargets (depth : Nat) : List Expr → Inlining (List Expr)
  | [] => return []
  | .register r :: es => do
    let es ← Expr.swapTargets depth es
    return .register r :: es
  | e :: es => do
    let e ← e.swap depth
    let es ← Expr.swapTargets depth es
    return e :: es

mutual

/-- The expression with each shared expression replaced by what `visit` makes of it. -/
def Expr.mapShared (visit : Nat → Expr → Expr) : Expr → Expr
  | .call a f args => .call a (f.mapShared visit) (Expr.mapSharedAll visit args)
  | .binary a op l r => .binary a op (l.mapShared visit) (r.mapShared visit)
  | .unary a op e => .unary a op (e.mapShared visit)
  | .table a ks vs => .table a (Expr.mapSharedAll visit ks) (Expr.mapSharedAll visit vs)
  | .index a t k => .index a (t.mapShared visit) (k.mapShared visit)
  | .shared n e => visit n e
  | e => e

/-- The same for expressions. -/
def Expr.mapSharedAll (visit : Nat → Expr → Expr) : List Expr → List Expr
  | [] => []
  | e :: es => e.mapShared visit :: Expr.mapSharedAll visit es

end

/-- The latest form of a shared expression, and of those inside it. -/
def Expr.settleShared (versions : List (Nat × Expr)) : Nat → Nat → Expr → Expr
  | 0, n, e => .shared n e
  | depth + 1, n, e =>
    .shared n (((versions.lookup n).getD e).mapShared (Expr.settleShared versions depth))

/-- The expression at the end of a scope. -/
def Scope.settle (s : Scope) (e : Expr) : Expr :=
  if s.versions.isEmpty then e else e.mapShared (Expr.settleShared s.versions s.next)

mutual

/-- A bound above the numbers of the shared expressions of an expression. -/
def Expr.sharedBound : Expr → Nat
  | .call _ f args => max f.sharedBound (Expr.sharedBoundAll args)
  | .binary _ _ l r => max l.sharedBound r.sharedBound
  | .unary _ _ e => e.sharedBound
  | .table _ ks vs => max (Expr.sharedBoundAll ks) (Expr.sharedBoundAll vs)
  | .index _ t k => max t.sharedBound k.sharedBound
  | .shared n e => max (n + 1) e.sharedBound
  | _ => 0

/-- A bound above the numbers of the shared expressions of expressions. -/
def Expr.sharedBoundAll : List Expr → Nat
  | [] => 0
  | e :: es => max e.sharedBound (Expr.sharedBoundAll es)

end

/-! ## Statements -/

mutual

/-- The node with `f` applied to the expressions of its scope; nested functions are left alone. -/
def Node.mapScope (f : Expr → Expr) : Node → Node
  | .missing => .missing
  | .expr e => .expr (f e)
  | .chunk a body => .chunk a (Node.mapScopeAll f body)
  | .block a body => .block a (Node.mapScopeAll f body)
  | .scope a body => .scope a (body.mapScope f)
  | .whileLoop a c body => .whileLoop a (f c) (body.mapScope f)
  | .repeatLoop a body c => .repeatLoop a (body.mapScope f) (f c)
  | .branch a c body arms other =>
    .branch a (f c) (body.mapScope f) (Node.mapScopeAll f arms) (other.mapScope f)
  | .arm a c body => .arm a (f c) (body.mapScope f)
  | .numericFor a v init limit step body =>
    .numericFor a v (init.mapScope f) (limit.mapScope f) (step.mapScope f) (body.mapScope f)
  | .genericFor a vars es body => .genericFor a (vars.map f) (es.map f) (body.mapScope f)
  | .function a name params vararg body => .function a name params vararg body
  | .localFunction a name params vararg body => .localFunction a name params vararg body
  | .locals a names vs => .locals a (names.map f) (vs.map f)
  | .assign a ts vs kept => .assign a (ts.map f) (vs.map f) kept
  | .returns a vs => .returns a (vs.map f)
  | .jump a offset => .jump a offset
  | .test a c => .test a (f c)
  | .forPrep a init limit step v => .forPrep a (f init) (f limit) (f step) v
  | .forLoop a counter offset => .forLoop a (f counter) offset
  | .tForLoop a vars => .tForLoop a vars

/-- The same for nodes. -/
def Node.mapScopeAll (f : Expr → Expr) : List Node → List Node
  | [] => []
  | n :: ns => n.mapScope f :: Node.mapScopeAll f ns

end

mutual

/-- A bound above the numbers of the shared expressions of a tree. -/
def Node.sharedBound : Node → Nat
  | .missing | .jump .. | .tForLoop .. => 0
  | .expr e => e.sharedBound
  | .chunk _ body | .block _ body => Node.sharedBoundAll body
  | .scope _ body => body.sharedBound
  | .whileLoop _ c body | .repeatLoop _ body c | .arm _ c body =>
    max c.sharedBound body.sharedBound
  | .branch _ c body arms other =>
    max (max c.sharedBound body.sharedBound) (max (Node.sharedBoundAll arms) other.sharedBound)
  | .numericFor _ _ init limit step body =>
    max (max init.sharedBound limit.sharedBound) (max step.sharedBound body.sharedBound)
  | .genericFor _ vars es body =>
    max (max (Expr.sharedBoundAll vars) (Expr.sharedBoundAll es)) body.sharedBound
  | .function _ name _ _ body | .localFunction _ name _ _ body =>
    max name.sharedBound body.sharedBound
  | .locals _ ts vs | .assign _ ts vs _ => max (Expr.sharedBoundAll ts) (Expr.sharedBoundAll vs)
  | .returns _ vs => Expr.sharedBoundAll vs
  | .test _ c | .forLoop _ c _ => c.sharedBound
  | .forPrep _ init limit step _ =>
    max (max init.sharedBound limit.sharedBound) step.sharedBound

/-- A bound above the numbers of the shared expressions of trees. -/
def Node.sharedBoundAll : List Node → Nat
  | [] => 0
  | n :: ns => max n.sharedBound (Node.sharedBoundAll ns)

end

namespace Scope

/-- The variables of all iterator calls of a statement list stay as they are: they are written
before the loop body, which stands in front of the call. -/
def keepIterators : List Node → Inlining Unit
  | [] => return ()
  | .tForLoop _ vars :: ns => do keepAll vars; keepIterators ns
  | _ :: ns => keepIterators ns

/-- The one register of a target list that is read at most once. -/
def foldable? : List Expr → Option Register
  | [.register r] => if r.uses ≤ 1 then some r else none
  | _ => none

/-- Inlines into an assignment. If it is folded, the value that stands for its register is given
too: a call is never folded, since it would move. -/
def assign (depth : Nat) (a : Int) (targets values : List Expr) (kept : Bool) :
    Inlining (Node × Option Expr) := do
  let values ← Expr.swapAll depth values
  let targets ← Expr.swapTargets depth targets
  match values with
  | [] =>
    keepTargets targets
    return (.assign a targets values kept, none)
  | v :: rest =>
    if rest.isEmpty ∧ v.isCall then
      keepTargets targets
      return (.assign a targets values (kept || targets.length = 1), none)
    else
      match foldable? targets with
      | some r =>
        let v ← share v
        set r.index v
        return (.assign a targets values kept, some v)
      | none =>
        keepTargets targets
        return (.assign a targets values kept, none)

/-- Inlines into a bound of a numeric loop: an assignment that is folded leaves its value. -/
def bound (depth : Nat) : Node → Inlining Node
  | .assign a targets values kept => do
    let (n, value) ← assign depth a targets values kept
    match value with
    | some v => return .ofExpr v
    | none => return n
  | .expr e => do return .ofExpr (← e.swap depth)
  | n => return n

/-- Inlines into the body of a function, which has a scope of its own. -/
def nested (bound : Nat) (parameters : List Register) (body : Inlining (Node × Bool)) :
    Inlining Node := fun s =>
  match (do keepAll parameters; body : Inlining (Node × Bool)) (start bound) with
  | .ok ((n, _), inner) => .ok (n.mapScope inner.settle, s)
  | .error e => .error e

end Scope

mutual

/-- Inlines into a node, and says whether it is to be deleted from its list. Shared expressions of
the tree have numbers below `bound`. -/
def Node.inline (bound : Nat) : Node → Inlining (Node × Bool)
  | .chunk a body => do
    Scope.keepIterators body
    return (.chunk a (← Node.inlineAll bound body), false)
  | .block a body => do
    Scope.keepIterators body
    return (.block a (← Node.inlineAll bound body), false)
  | .scope a body => do
    let body ← body.inline bound
    return (.scope a body.1, false)
  | .function a name params vararg body => do
    let body ← Scope.nested bound params (body.inline bound)
    return (.function a name params vararg body, false)
  | .localFunction a name params vararg body => do
    let body ← Scope.nested bound params (body.inline bound)
    return (.localFunction a name params vararg body, false)
  | .assign a targets values kept => do
    let (n, value) ← Scope.assign bound a targets values kept
    return (n, value.isSome)
  | .locals a names values => do
    let values ← Expr.swapAll bound values
    Scope.keepTargets names
    return (.locals a names values, false)
  | .returns a values => do
    let values ← Expr.swapAll bound values
    return (.returns a values, false)
  | .whileLoop a c body => do
    let c ← c.swap bound
    let body ← body.inline bound
    return (.whileLoop a c body.1, false)
  | .repeatLoop a body c => do
    let body ← body.inline bound
    let c ← c.swap bound
    return (.repeatLoop a body.1 c, false)
  | .branch a c body arms other => do
    let c ← c.swap bound
    let body ← body.inline bound
    let arms ← Node.inlineArms bound arms
    let other ← other.inline bound
    return (.branch a c body.1 arms other.1, false)
  | .numericFor a v init limit step body => do
    let init ← Scope.bound bound init
    let limit ← Scope.bound bound limit
    let step ← Scope.bound bound step
    Scope.keep v
    let body ← body.inline bound
    return (.numericFor a v init limit step body.1, false)
  | .genericFor a vars values body => do
    let values ← Expr.swapAll bound values
    Scope.keepTargets vars
    let body ← body.inline bound
    return (.genericFor a vars values body.1, false)
  | .test a c => do return (.test a (← c.swap bound), false)
  | .forLoop a counter offset => do return (.forLoop a (← counter.swap bound) offset, false)
  | .forPrep a init limit step v => do
    let init ← init.swap bound
    let limit ← limit.swap bound
    let step ← step.swap bound
    Scope.keep v
    return (.forPrep a init limit step v, false)
  | .tForLoop a vars => do
    Scope.keepAll vars
    return (.tForLoop a vars, false)
  | n => return (n, false)

/-- Inlines into the statements of a list and drops those that are to be deleted. -/
def Node.inlineAll (bound : Nat) : List Node → Inlining (List Node)
  | [] => return []
  | n :: ns => do
    let (n, delete) ← n.inline bound
    let ns ← Node.inlineAll bound ns
    return if delete then ns else n :: ns

/-- Inlines into `elseif` arms. -/
def Node.inlineArms (bound : Nat) : List Node → Inlining (List Node)
  | [] => return []
  | .arm a c body :: arms => do
    let c ← c.swap bound
    let body ← body.inline bound
    let arms ← Node.inlineArms bound arms
    return .arm a c body.1 :: arms
  | n :: arms => do
    let arms ← Node.inlineArms bound arms
    return n :: arms

end

/-- The tree with single-use registers inlined, unless a register is read that was not written. -/
def Node.inlined (n : Node) : Except DecompileError Node :=
  match n.inline n.sharedBound (Scope.start n.sharedBound) with
  | .ok ((m, _), s) => .ok (m.mapScope s.settle)
  | .error e => .error e

end HavokScript
