import HavokScript.Proofs.Tree.Finding
import HavokScript.Tree.Source

/-!
# The shape of a tree

Of a register that is read the source text shows only which one it is, and of a register that is
assigned to also its use count. `Expr.shape` and `Node.shape` leave out the rest. Two lists of statements
are `Node.Alike` if they have the same shapes, statement by statement and bound by bound: then they have
the same text (`Node.Alike.lines`) and the same statements in a walk (`Node.Alike.lineup`).
-/

namespace HavokScript

/-! ## Expressions -/

mutual

/-- The expression with only the index of each register. -/
def Expr.shape : Expr → Expr
  | .register r => .register ⟨0, 0, r.index, 0⟩
  | .call a f args => .call a f.shape (Expr.shapeAll args)
  | .binary a op l r => .binary a op l.shape r.shape
  | .unary a op e => .unary a op e.shape
  | .table a ks vs => .table a (Expr.shapeAll ks) (Expr.shapeAll vs)
  | .index a t k => .index a t.shape k.shape
  | .shared n e => .shared n e.shape
  | e => e

/-- The same for expressions. -/
def Expr.shapeAll : List Expr → List Expr
  | [] => []
  | e :: es => e.shape :: Expr.shapeAll es

end

/-- The target with only the index of each register that is read in it. -/
def Expr.targetShape : Expr → Expr
  | .register r => .register r
  | e => e.shape

namespace Expr

theorem shapeAll_eq_map (es : List Expr) : shapeAll es = es.map shape := by
  induction es with
  | nil => rfl
  | cons e es ih => rw [shapeAll, ih, List.map_cons]

theorem peel_shape (e : Expr) : e.shape.peel = e.peel.shape := by
  induction e using Expr.peel.induct with
  | case1 n e ih => rw [shape, peel, ih, peel]
  | case2 e h => cases e <;> first | rfl | exact absurd rfl (h _ _)

theorem isCall_shape (e : Expr) : e.shape.isCall = e.isCall := by
  rw [isCall, peel_shape, isCall]
  cases e.peel <;> rfl

theorem register?_targetShape (e : Expr) : e.targetShape.register? = e.register? := by
  cases e <;> rfl

theorem isNone_register?_shape (e : Expr) : e.shape.register?.isNone = e.register?.isNone := by
  cases e <;> rfl

/-- Only a register has the shape of one. -/
theorem register?_of_shape {e e' : Expr} (h : e'.shape = e.shape) (he : e.register? = none) :
    e'.register? = none := by
  rw [← Option.isNone_iff_eq_none, ← isNone_register?_shape] at he ⊢
  rwa [h]

theorem missing_of_shape {e : Expr} (h : e.shape = .missing) : e = .missing := by
  cases e <;> first | rfl | cases h

theorem targetShape_of_read {e : Expr} (h : e.register? = none) : e.targetShape = e.shape := by
  cases e <;> first | rfl | cases h

end Expr

mutual

theorem Expr.shape_shape (e : Expr) : e.shape.shape = e.shape := by
  cases e with
  | call a f args => rw [shape, shape, f.shape_shape, Expr.shapeAll_shapeAll args]
  | binary a op l r => rw [shape, shape, l.shape_shape, r.shape_shape]
  | unary a op e => rw [shape, shape, e.shape_shape]
  | table a ks vs => rw [shape, shape, Expr.shapeAll_shapeAll ks, Expr.shapeAll_shapeAll vs]
  | index a t k => rw [shape, shape, t.shape_shape, k.shape_shape]
  | shared n e => rw [shape, shape, e.shape_shape]
  | _ => rfl

theorem Expr.shapeAll_shapeAll (es : List Expr) :
    Expr.shapeAll (Expr.shapeAll es) = Expr.shapeAll es := by
  cases es with
  | nil => rfl
  | cons e es => rw [shapeAll, shapeAll, e.shape_shape, Expr.shapeAll_shapeAll es]

end

/-! ## Texts of expressions -/

theorem accessText_shape (key : Expr) (text : Bytes) :
    accessText key.shape text = accessText key text := by
  rw [accessText, Expr.peel_shape, accessText]
  cases key.peel <;> rfl

theorem Expr.keySources_cons {e : Expr} (h : e ≠ .missing) (es : List Expr) :
    Expr.keySources (e :: es) = some e.source :: Expr.keySources es := by
  cases e <;> first | rfl | exact absurd rfl h

mutual

theorem Expr.source_shape (e : Expr) : e.shape.source = e.source := by
  cases e with
  | call a f args => rw [shape, source, f.source_shape, Expr.sources_shapeAll args, source]
  | binary a op l r => rw [shape, source, l.source_shape, r.source_shape, source]
  | unary a op e => rw [shape, source, e.source_shape, source]
  | table a ks vs =>
    rw [shape, source, Expr.keySources_shapeAll ks, Expr.sources_shapeAll vs, source]
  | index a t k => rw [shape, source, t.source_shape, k.source_shape, accessText_shape, source]
  | shared n e => rw [shape, source, e.source_shape, source]
  | _ => rfl

theorem Expr.sources_shapeAll (es : List Expr) :
    Expr.sources (Expr.shapeAll es) = Expr.sources es := by
  cases es with
  | nil => rfl
  | cons e es => rw [shapeAll, sources, e.source_shape, Expr.sources_shapeAll es, sources]

theorem Expr.keySources_shapeAll (es : List Expr) :
    Expr.keySources (Expr.shapeAll es) = Expr.keySources es := by
  cases es with
  | nil => rfl
  | cons e es =>
    by_cases he : e = .missing
    · rw [he]
      exact congrArg (none :: ·) (Expr.keySources_shapeAll es)
    · have hshape : e.shape ≠ .missing := by
        cases e with
        | missing => exact absurd rfl he
        | _ => nofun
      rw [shapeAll, keySources_cons hshape, e.source_shape, Expr.keySources_shapeAll es,
        keySources_cons he]

end

theorem valueList_shapeAll (es : List Expr) : valueList (Expr.shapeAll es) = valueList es := by
  rw [valueList, Expr.sources_shapeAll, valueList]

theorem targetSource_shape (counts : Bool) (e : Expr) :
    targetSource counts e.targetShape = targetSource counts e := by
  cases e <;> first | rfl | exact Expr.source_shape _

theorem targetList_shape (counts : Bool) (ts : List Expr) :
    targetList counts (ts.map Expr.targetShape) = targetList counts ts := by
  rw [targetList, List.map_map, targetList]
  exact congrArg _ (List.map_congr_left fun t _ => targetSource_shape counts t)

theorem allUnused_shape (ts : List Expr) : allUnused (ts.map Expr.targetShape) = allUnused ts := by
  rw [allUnused, List.all_map, allUnused]
  refine congrArg (List.all ts) (funext fun t => ?_)
  cases t <;> rfl

/-! ## Statements -/

/-- The statement with only the index of each register that it reads. What is inside of it is left
alone. -/
def Node.shape : Node → Node
  | .expr e => .expr e.shape
  | .assign a ts vs kept => .assign a (ts.map Expr.targetShape) (Expr.shapeAll vs) kept
  | .returns a vs => .returns a (Expr.shapeAll vs)
  | .test a c => .test a c.shape
  | .forPrep a x y z v => .forPrep a x.shape y.shape z.shape v
  | .forLoop a c offset => .forLoop a c.shape offset
  | n => n

/-- Lists of statements that have the same shapes. -/
inductive Node.Alike : List Node → List Node → Prop
  | nil : Alike [] []
  | flat {n n' : Node} {ns ns' : List Node} (h : n.shape = n'.shape) (rest : Alike ns ns') :
      Alike (n :: ns) (n' :: ns')
  | block {a : Int} {body body' ns ns' : List Node} (inner : Alike body body')
      (rest : Alike ns ns') : Alike (.block a body :: ns) (.block a body' :: ns')
  | numeric {a b : Int} {v : Register} {init init' limit limit' step step' : Node}
      {body body' ns ns' : List Node} (hinit : init.shape = init'.shape)
      (hlimit : limit.shape = limit'.shape) (hstep : step.shape = step'.shape)
      (inner : Alike body body') (rest : Alike ns ns') :
      Alike (.numericFor a v init limit step (.block b body) :: ns)
        (.numericFor a v init' limit' step' (.block b body') :: ns')

namespace Node

variable {n n' : Node}

theorem source_shape (counts : Bool) (indent : Nat) (n : Node) :
    n.shape.source counts indent = n.source counts indent := by
  cases n with
  | expr e => exact e.source_shape
  | assign a ts vs kept =>
    rw [shape, source, assignText, allUnused_shape, targetList_shape, valueList_shapeAll,
      List.isEmpty_map, source, assignText]
  | returns a vs =>
    rw [shape, source, valueList_shapeAll, source, Expr.shapeAll_eq_map, List.isEmpty_map]
  | test a c => rw [shape, source, c.source_shape, source]
  | forPrep a x y z v =>
    rw [shape, source, source]
    simp only [valueList, Expr.sources, Expr.source_shape]
  | forLoop a c offset => rfl
  | _ => rfl

theorem boundText_shape (n : Node) : boundText n.shape = boundText n := by
  cases n with
  | expr e => exact e.source_shape
  | assign a ts vs kept =>
    cases vs with
    | nil => rfl
    | cons v vs => exact v.source_shape
  | _ => rfl

theorem stepText_shape (n : Node) : stepText n.shape = stepText n := by
  cases n with
  | expr e => exact congrArg (comma ++ ·) (boundText_shape (expr e))
  | assign a ts vs kept => exact congrArg (comma ++ ·) (boundText_shape (assign a ts vs kept))
  | _ => rfl

theorem source_of_shape (h : n.shape = n'.shape) (counts : Bool) (indent : Nat) :
    n.source counts indent = n'.source counts indent := by
  rw [← source_shape, h, source_shape]

theorem boundText_of_shape (h : n.shape = n'.shape) : boundText n = boundText n' := by
  rw [← boundText_shape, h, boundText_shape]

theorem stepText_of_shape (h : n.shape = n'.shape) : stepText n = stepText n' := by
  rw [← stepText_shape, h, stepText_shape]

/-- Statements with the same shapes have the same text. -/
theorem Alike.lines {ns ns' : List Node} (h : Alike ns ns') (counts : Bool) (indent : Nat) :
    Node.lines counts indent ns = Node.lines counts indent ns' := by
  induction h generalizing indent with
  | nil => rfl
  | flat h _ ih => rw [Node.lines, source_of_shape h, ih, Node.lines]
  | block _ _ ihinner ihrest =>
    rw [Node.lines, source, ihinner, ihrest, Node.lines, source]
  | numeric hinit hlimit hstep _ _ ihinner ihrest =>
    rw [Node.lines, source, bodySource, boundText_of_shape hinit, boundText_of_shape hlimit,
      stepText_of_shape hstep, ihinner, ihrest, Node.lines, source, bodySource]

end Node

/-! ## The statements of a walk -/

/-- The statements among outlines, in the order of a walk, by kind and address. -/
def Outline.lineup (os : List Outline) : List (String × Int) :=
  ((visitedAll (fun _ => true) os).filter Node.isStatement).map fun n => (n.kind, n.address)

/-- The statements of a tree, in the order of a walk, by kind and address. -/
def Node.lineup (n : Node) : List (String × Int) := Outline.lineup n.outline

/-- The same for statements. -/
def Node.lineupAll (ns : List Node) : List (String × Int) := Outline.lineup (Node.outlines ns)

namespace Outline

@[simp] theorem lineup_append (os ps : List Outline) : lineup (os ++ ps) = lineup os ++ lineup ps := by
  rw [lineup, visitedAll_append, List.filter_append, List.map_append, lineup, lineup]

theorem lineup_node (n : Node) (cs : List Outline) :
    lineup [.node n cs] = (if n.isStatement then [(n.kind, n.address)] else []) ++ lineup cs := by
  cases h : n.isStatement <;> simp [lineup, visitedAll, visited, h]

end Outline

mutual

/-- No statement is in an expression. -/
theorem Expr.lineup_outline (e : Expr) : Outline.lineup e.outline = [] := by
  cases e with
  | call a f args =>
    rw [outline, Outline.lineup_node, Outline.lineup_append, f.lineup_outline,
      Expr.lineup_outlines args]
    rfl
  | binary a op l r =>
    rw [outline, Outline.lineup_node, Outline.lineup_append, l.lineup_outline, r.lineup_outline]
    rfl
  | unary a op e =>
    rw [outline, Outline.lineup_node, e.lineup_outline]
    rfl
  | table a ks vs =>
    rw [outline, Outline.lineup_node, Outline.lineup_append, Expr.lineup_outlines ks,
      Expr.lineup_outlines vs]
    rfl
  | index a t k =>
    rw [outline, Outline.lineup_node, Outline.lineup_append, t.lineup_outline, k.lineup_outline]
    rfl
  | shared n e => exact e.lineup_outline
  | _ => rfl

theorem Expr.lineup_outlines (es : List Expr) : Outline.lineup (Expr.outlines es) = [] := by
  cases es with
  | nil => rfl
  | cons e es => rw [outlines, Outline.lineup_append, e.lineup_outline, Expr.lineup_outlines es]; rfl

end

namespace Node

theorem lineup_shape (n : Node) : n.shape.lineup = n.lineup := by
  cases n with
  | expr e => exact e.shape.lineup_outline.trans e.lineup_outline.symm
  | assign | returns | test | forPrep | forLoop =>
    simp [lineup, shape, outline, Outline.lineup_node, Expr.lineup_outline, Expr.lineup_outlines,
      isStatement, kind, address]
  | _ => rfl

theorem lineup_of_shape {n n' : Node} (h : n.shape = n'.shape) : n.lineup = n'.lineup := by
  rw [← lineup_shape, h, lineup_shape]

theorem lineupAll_cons (n : Node) (ns : List Node) :
    lineupAll (n :: ns) = n.lineup ++ lineupAll ns := Outline.lineup_append _ _

theorem lineup_block (a : Int) (body : List Node) :
    (block a body).lineup = ("Block", a) :: lineupAll body := Outline.lineup_node _ _

theorem lineup_numericFor (a : Int) (v : Register) (init limit step body : Node) :
    (numericFor a v init limit step body).lineup =
      ("NumericFor", a) :: (init.lineup ++ limit.lineup ++ step.lineup ++ body.lineup) := by
  rw [lineup, outline, Outline.lineup_node]
  change _ :: Outline.lineup (init.outline ++ limit.outline ++ step.outline ++ body.outline) = _
  simp only [Outline.lineup_append]
  rfl

theorem lineup_function (a : Int) (name : Expr) (params : List Register) (vararg : Bool)
    (body : Node) :
    (function a name params vararg body).lineup = ("Function", a) :: body.lineup := by
  have hparams : Outline.lineup (params.map Outline.ofRegister) = [] := by
    induction params with
    | nil => rfl
    | cons r rs ih => exact ih
  rw [lineup, outline, Outline.lineup_node, Outline.lineup_append, Outline.lineup_append,
    name.lineup_outline, hparams]
  rfl

/-- Statements with the same shapes are the same statements. -/
theorem Alike.lineup {ns ns' : List Node} (h : Alike ns ns') : lineupAll ns = lineupAll ns' := by
  induction h with
  | nil => rfl
  | flat h _ ih => rw [lineupAll_cons, lineup_of_shape h, ih, lineupAll_cons]
  | block _ _ ihinner ihrest =>
    rw [lineupAll_cons, lineup_block, ihinner, ihrest, lineupAll_cons, lineup_block]
  | numeric hinit hlimit hstep _ _ ihinner ihrest =>
    rw [lineupAll_cons, lineup_numericFor, lineup_block, lineup_of_shape hinit,
      lineup_of_shape hlimit, lineup_of_shape hstep, ihinner, ihrest, lineupAll_cons,
      lineup_numericFor, lineup_block]

end Node

end HavokScript
