import HavokScript.Tree.Outline

/-!
# Nodes of a kind in a tree

The nodes of a kind come in the order of a walk, each before those below it. Kinds of statements are
not found in expressions, so only the parts of a statement that are statements count.
-/

namespace HavokScript

variable {kind : Node → Bool}

namespace Outline

theorem visitedAll_append (descend : Node → Bool) (xs ys : List Outline) :
    visitedAll descend (xs ++ ys) = visitedAll descend xs ++ visitedAll descend ys := by
  induction xs with
  | nil => rfl
  | cons x xs ih => rw [List.cons_append, visitedAll, ih, visitedAll, List.append_assoc]

/-- The nodes of a kind in outlines. -/
def found (kind : Node → Bool) (os : List Outline) : List Node :=
  (visitedAll (fun _ => true) os).filter kind

theorem found_nil : found kind [] = [] := rfl

theorem found_append (xs ys : List Outline) :
    found kind (xs ++ ys) = found kind xs ++ found kind ys := by
  rw [found, visitedAll_append, List.filter_append, found, found]

/-- A node of another kind only shows what is below it. -/
theorem found_node {n : Node} (hn : kind n = false) (cs : List Outline) :
    found kind [.node n cs] = found kind cs := by
  simp [found, visitedAll, visited, hn]

theorem found_root {n : Node} (hn : kind n) (cs : List Outline) :
    found kind [.node n cs] = n :: found kind cs := by
  simp [found, visitedAll, visited, hn]

variable (hkind : ∀ e, kind (.expr e) = false)
include hkind

theorem found_ofRegister (r : Register) (cs : List Outline) :
    found kind (ofRegister r :: cs) = found kind cs := by
  rw [← List.singleton_append, found_append, ofRegister, found_node (hkind _), found_nil,
    List.nil_append]

theorem found_map_ofRegister (rs : List Register) : found kind (rs.map ofRegister) = [] := by
  induction rs with
  | nil => rfl
  | cons r rs ih => rw [List.map_cons, found_ofRegister hkind, ih]

end Outline

open Outline in
mutual

theorem Expr.found_outline (hkind : ∀ e, kind (.expr e) = false) (e : Expr) :
    found kind e.outline = [] := by
  cases e with
  | shared n e => exact Expr.found_outline hkind e
  | missing => rfl
  | call a f args =>
    rw [Expr.outline, found_node (hkind _), found_append, Expr.found_outline hkind f,
      Expr.found_outlines hkind args, List.append_nil]
  | binary a op l r =>
    rw [Expr.outline, found_node (hkind _), found_append, Expr.found_outline hkind l,
      Expr.found_outline hkind r, List.append_nil]
  | unary a op e => rw [Expr.outline, found_node (hkind _), Expr.found_outline hkind e]
  | table a ks vs =>
    rw [Expr.outline, found_node (hkind _), found_append, Expr.found_outlines hkind ks,
      Expr.found_outlines hkind vs, List.append_nil]
  | index a t k =>
    rw [Expr.outline, found_node (hkind _), found_append, Expr.found_outline hkind t,
      Expr.found_outline hkind k, List.append_nil]
  | _ => exact found_node (hkind _) []

theorem Expr.found_outlines (hkind : ∀ e, kind (.expr e) = false) (es : List Expr) :
    found kind (Expr.outlines es) = [] := by
  cases es with
  | nil => rfl
  | cons e es =>
    rw [Expr.outlines, found_append, Expr.found_outline hkind e, Expr.found_outlines hkind es,
      List.append_nil]

end

/-! ## Functions -/

/-- Whether the node is a function. -/
def Node.isFunction : Node → Bool
  | .function .. | .localFunction .. => true
  | _ => false

/-- The functions in a tree, each before those inside. -/
def Node.functions (n : Node) : List Node := Outline.found Node.isFunction n.outline

/-- The functions in trees, one tree after the other. -/
def Node.functionsAll (ns : List Node) : List Node :=
  Outline.found Node.isFunction (Node.outlines ns)

namespace Node

@[simp] theorem functionsAll_nil : functionsAll [] = [] := rfl

@[simp] theorem functionsAll_cons (n : Node) (ns : List Node) :
    functionsAll (n :: ns) = n.functions ++ functionsAll ns :=
  Outline.found_append n.outline (outlines ns)

@[simp] theorem functionsAll_append (ms ns : List Node) :
    functionsAll (ms ++ ns) = functionsAll ms ++ functionsAll ns := by
  induction ms with
  | nil => rfl
  | cons m ms ih => rw [List.cons_append, functionsAll_cons, ih, functionsAll_cons, List.append_assoc]

theorem functionsAll_eq_nil {ns : List Node} :
    functionsAll ns = [] ↔ ∀ n ∈ ns, n.functions = [] := by
  induction ns with
  | nil => simp
  | cons n ns ih => simp [ih]

variable (a : Int) (c : Expr) (body : Node) (ns : List Node)

@[simp] theorem functions_missing : functions missing = [] := rfl

@[simp] theorem functions_expr (e : Expr) : functions (expr e) = [] :=
  e.found_outline fun _ => rfl

@[simp] theorem functions_chunk : functions (chunk a ns) = functionsAll ns :=
  Outline.found_node rfl _

@[simp] theorem functions_block : functions (block a ns) = functionsAll ns :=
  Outline.found_node rfl _

@[simp] theorem functions_scope : functions (scope a body) = body.functions :=
  Outline.found_node rfl _

@[simp] theorem functions_whileLoop : functions (whileLoop a c body) = body.functions := by
  refine (Outline.found_node rfl _).trans ?_
  rw [Outline.found_append, c.found_outline fun _ => rfl, List.nil_append, functions]

@[simp] theorem functions_repeatLoop : functions (repeatLoop a body c) = body.functions := by
  refine (Outline.found_node rfl _).trans ?_
  rw [Outline.found_append, c.found_outline fun _ => rfl, List.append_nil, functions]

@[simp] theorem functions_branch (other : Node) :
    functions (branch a c body ns other) =
      body.functions ++ functionsAll ns ++ other.functions := by
  refine (Outline.found_node rfl _).trans ?_
  rw [Outline.found_append, Outline.found_append, Outline.found_append,
    c.found_outline fun _ => rfl, List.nil_append, functions, functionsAll, functions]

@[simp] theorem functions_arm : functions (arm a c body) = body.functions := by
  refine (Outline.found_node rfl _).trans ?_
  rw [Outline.found_append, c.found_outline fun _ => rfl, List.nil_append, functions]

@[simp] theorem functions_numericFor (v : Register) (init limit step : Node) :
    functions (numericFor a v init limit step body) =
      init.functions ++ limit.functions ++ step.functions ++ body.functions := by
  refine (Outline.found_node rfl _).trans ?_
  rw [Outline.found_ofRegister fun _ => rfl, Outline.found_append, Outline.found_append,
    Outline.found_append]
  rfl

@[simp] theorem functions_genericFor (vars es : List Expr) :
    functions (genericFor a vars es body) = body.functions := by
  refine (Outline.found_node rfl _).trans ?_
  rw [Outline.found_append, Outline.found_append, Expr.found_outlines (fun _ => rfl),
    Expr.found_outlines (fun _ => rfl), List.append_nil, List.nil_append, functions]

@[simp] theorem functions_function (name : Expr) (params : List Register) (vararg : Bool) :
    functions (function a name params vararg body) =
      function a name params vararg body :: body.functions := by
  refine (Outline.found_root rfl _).trans ?_
  rw [Outline.found_append, Outline.found_append, name.found_outline fun _ => rfl,
    Outline.found_map_ofRegister fun _ => rfl, List.append_nil, List.nil_append, functions]

@[simp] theorem functions_localFunction (name : Expr) (params : List Register) (vararg : Bool) :
    functions (localFunction a name params vararg body) =
      localFunction a name params vararg body :: body.functions := by
  refine (Outline.found_root rfl _).trans ?_
  rw [Outline.found_append, Outline.found_append, name.found_outline fun _ => rfl,
    Outline.found_map_ofRegister fun _ => rfl, List.append_nil, List.nil_append, functions]

end Node

end HavokScript
