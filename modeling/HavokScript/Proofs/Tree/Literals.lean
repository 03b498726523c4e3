import HavokScript.Proofs.Decompile.Lowering
import HavokScript.Proofs.Tree.Finding

/-!
# Number literals in a tree

`Node.doubles` are the values of the number literals that a walk over a tree comes to, each place
counted. They come part by part, in source order, and numbering registers leaves them as they are
(`Node.doublesAll_renumberAll`).
-/

namespace HavokScript

/-- The value of a number literal, if the node is one. -/
def Node.double? : Node → Option Double
  | .expr (.number _ x) => some x
  | _ => none

namespace Outline

/-- The values of the number literals in outlines, in the order of a walk. -/
def doubles (os : List Outline) : List Double :=
  (visitedAll (fun _ => true) os).filterMap Node.double?

theorem doubles_append (xs ys : List Outline) : doubles (xs ++ ys) = doubles xs ++ doubles ys := by
  rw [doubles, visitedAll_append, List.filterMap_append, doubles, doubles]

/-- A node that is no number literal only shows those below it. -/
theorem doubles_node {n : Node} (hn : n.double? = none) (cs : List Outline) :
    doubles [.node n cs] = doubles cs := by
  simp [doubles, visitedAll, visited, List.filterMap_cons_none hn]

/-- A node with two parts shows the literals of the first one first. -/
theorem doubles_node_append {n : Node} (hn : n.double? = none) (xs ys : List Outline) :
    doubles [.node n (xs ++ ys)] = doubles xs ++ doubles ys :=
  (doubles_node hn _).trans (doubles_append xs ys)

theorem doubles_map_ofRegister (rs : List Register) : doubles (rs.map ofRegister) = [] := by
  induction rs with
  | nil => rfl
  | cons r rs ih => exact (doubles_append [ofRegister r] (rs.map ofRegister)).trans ih

end Outline

/-! ## In expressions -/

namespace Expr

/-- The values of the number literals in an expression, from left to right. -/
def doubles (e : Expr) : List Double := Outline.doubles e.outline

/-- The same for expressions, one after the other. -/
def doublesAll (es : List Expr) : List Double := Outline.doubles (outlines es)

@[simp] theorem doublesAll_nil : doublesAll [] = [] := rfl

@[simp] theorem doublesAll_cons (e : Expr) (es : List Expr) :
    doublesAll (e :: es) = e.doubles ++ doublesAll es :=
  Outline.doubles_append e.outline (outlines es)

theorem doublesAll_eq_nil {es : List Expr} (h : ∀ e ∈ es, e.doubles = []) : doublesAll es = [] := by
  induction es with
  | nil => rfl
  | cons e es ih =>
    rw [List.forall_mem_cons] at h
    rw [doublesAll_cons, h.1, ih h.2, List.append_nil]

@[simp] theorem doubles_register (r : Register) : (register r).doubles = [] := rfl

@[simp] theorem doubles_closure (a index : Int) : (closure a index).doubles = [] := rfl

@[simp] theorem doubles_identifier (a : Int) (name : Bytes) : (identifier a name).doubles = [] := rfl

@[simp] theorem doubles_nilLiteral (a : Int) : (nil a).doubles = [] := rfl

@[simp] theorem doubles_bool (a : Int) (b : Bool) : (bool a b).doubles = [] := rfl

@[simp] theorem doubles_number (a : Int) (x : Double) : (number a x).doubles = [x] := rfl

@[simp] theorem doubles_string (a : Int) (s : Bytes) : (string a s).doubles = [] := rfl

@[simp] theorem doubles_vararg (a : Int) : (vararg a).doubles = [] := rfl

@[simp] theorem doubles_call (a : Int) (f : Expr) (args : List Expr) :
    (call a f args).doubles = f.doubles ++ doublesAll args :=
  Outline.doubles_node_append rfl _ _

@[simp] theorem doubles_binary (a : Int) (op : Bytes) (l r : Expr) :
    (binary a op l r).doubles = l.doubles ++ r.doubles :=
  Outline.doubles_node_append rfl _ _

@[simp] theorem doubles_unary (a : Int) (op : Bytes) (e : Expr) :
    (unary a op e).doubles = e.doubles :=
  Outline.doubles_node rfl _

@[simp] theorem doubles_table (a : Int) (ks vs : List Expr) :
    (table a ks vs).doubles = doublesAll ks ++ doublesAll vs :=
  Outline.doubles_node_append rfl _ _

@[simp] theorem doubles_index (a : Int) (t k : Expr) :
    (index a t k).doubles = t.doubles ++ k.doubles :=
  Outline.doubles_node_append rfl _ _

end Expr

/-! ## In statements -/

namespace Node

/-- The values of the number literals in a tree, in the order of a walk. -/
def doubles (n : Node) : List Double := (n.visited fun _ => true).filterMap double?

/-- The same for statements, one after the other. -/
def doublesAll (ns : List Node) : List Double := Outline.doubles (outlines ns)

@[simp] theorem doublesAll_nil : doublesAll [] = [] := rfl

@[simp] theorem doublesAll_cons (n : Node) (ns : List Node) :
    doublesAll (n :: ns) = n.doubles ++ doublesAll ns :=
  Outline.doubles_append n.outline (outlines ns)

@[simp] theorem doublesAll_append (ms ns : List Node) :
    doublesAll (ms ++ ns) = doublesAll ms ++ doublesAll ns := by
  induction ms with
  | nil => rfl
  | cons m ms ih => rw [List.cons_append, doublesAll_cons, ih, doublesAll_cons, List.append_assoc]

variable (a : Int)

@[simp] theorem doubles_assign (ts vs : List Expr) (kept : Bool) :
    (assign a ts vs kept).doubles = Expr.doublesAll ts ++ Expr.doublesAll vs :=
  Outline.doubles_node_append rfl _ _

@[simp] theorem doubles_returns (vs : List Expr) : (returns a vs).doubles = Expr.doublesAll vs :=
  Outline.doubles_node rfl _

@[simp] theorem doubles_jump (offset : Int) : (jump a offset).doubles = [] := rfl

@[simp] theorem doubles_test (c : Expr) : (test a c).doubles = c.doubles :=
  Outline.doubles_node rfl _

@[simp] theorem doubles_forPrep (x y z : Expr) (v : Register) :
    (forPrep a x y z v).doubles = x.doubles ++ y.doubles ++ z.doubles := by
  refine (Outline.doubles_node_append rfl _ [Outline.ofRegister v]).trans ?_
  rw [Outline.doubles_append, Outline.doubles_append]
  exact List.append_nil _

@[simp] theorem doubles_forLoop (c : Expr) (offset : Int) : (forLoop a c offset).doubles = c.doubles :=
  Outline.doubles_node rfl _

@[simp] theorem doubles_tForLoop (vars : List Register) : (tForLoop a vars).doubles = [] :=
  (Outline.doubles_node rfl _).trans (Outline.doubles_map_ofRegister vars)

end Node

/-! ## Numbering -/

mutual

theorem Expr.doubles_renumber (e : Expr) (k : Nat) : (e.renumber k).1.doubles = e.doubles := by
  cases e with
  | call a f args =>
    refine (doubles_call a _ _).trans ?_
    rw [f.doubles_renumber, Expr.doublesAll_renumberAll args, doubles_call]
  | binary a op l r =>
    refine (doubles_binary a op _ _).trans ?_
    rw [l.doubles_renumber, r.doubles_renumber, doubles_binary]
  | unary a op e =>
    refine (doubles_unary a op _).trans ?_
    rw [e.doubles_renumber, doubles_unary]
  | table a ks vs =>
    refine (doubles_table a _ _).trans ?_
    rw [Expr.doublesAll_renumberAll ks, Expr.doublesAll_renumberAll vs, doubles_table]
  | index a t key =>
    refine (doubles_index a _ _).trans ?_
    rw [t.doubles_renumber, key.doubles_renumber, doubles_index]
  | shared n e => exact e.doubles_renumber k
  | _ => rfl

theorem Expr.doublesAll_renumberAll (es : List Expr) (k : Nat) :
    Expr.doublesAll (Expr.renumberAll es k).1 = Expr.doublesAll es := by
  cases es with
  | nil => rfl
  | cons e es =>
    refine (doublesAll_cons _ _).trans ?_
    rw [e.doubles_renumber, Expr.doublesAll_renumberAll es, doublesAll_cons]

end

namespace Node

theorem Flat.doubles_renumber {n : Node} (h : n.Flat) (k : Nat) :
    (n.renumber k).1.doubles = n.doubles := by
  have hone := Expr.doubles_renumber
  have hall := Expr.doublesAll_renumberAll
  cases n with
  | assign a ts vs kept =>
    refine (doubles_assign a _ _ _).trans ?_
    rw [hall ts, hall vs, doubles_assign]
  | returns a vs =>
    refine (doubles_returns a _).trans ?_
    rw [hall vs, doubles_returns]
  | test a c =>
    refine (doubles_test a _).trans ?_
    rw [hone c, doubles_test]
  | forPrep a x y z v =>
    refine (doubles_forPrep a _ _ _ _).trans ?_
    rw [hone x, hone y, hone z, doubles_forPrep]
  | forLoop a c offset =>
    refine (doubles_forLoop a _ _).trans ?_
    rw [hone c, doubles_forLoop]
  | tForLoop a vars => exact (doubles_tForLoop a _).trans (doubles_tForLoop a _).symm
  | jump a offset => rfl
  | _ => cases h

/-- Numbering the registers of flat statements leaves their number literals as they are. -/
theorem doublesAll_renumberAll {ns : List Node} (h : ∀ n ∈ ns, n.Flat) (k : Nat) :
    doublesAll (renumberAll ns k).1 = doublesAll ns := by
  induction ns generalizing k with
  | nil => rfl
  | cons n ns ih =>
    rw [List.forall_mem_cons] at h
    refine (doublesAll_cons _ _).trans ?_
    rw [h.1.doubles_renumber, ih h.2, doublesAll_cons]

end Node

end HavokScript
