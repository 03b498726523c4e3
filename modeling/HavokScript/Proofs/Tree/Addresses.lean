import HavokScript.Proofs.Tree.Registers

/-!
# Addresses in a tree

`Node.addresses` are the addresses of the nodes that a walk over a tree comes to, node by node. They come
part by part, in source order, and numbering registers leaves them as they are. There are as many as the
walk visits nodes.
-/

namespace HavokScript

namespace Outline

/-- The addresses in outlines, in the order of a walk. -/
def addresses (os : List Outline) : List Int := (visitedAll (fun _ => true) os).map Node.address

@[simp] theorem addresses_nil : addresses [] = [] := rfl

@[simp] theorem addresses_append (xs ys : List Outline) :
    addresses (xs ++ ys) = addresses xs ++ addresses ys := by
  rw [addresses, visitedAll_append, List.map_append, addresses, addresses]

@[simp] theorem addresses_node (n : Node) (cs : List Outline) :
    addresses [.node n cs] = n.address :: addresses cs := by
  simp [addresses, visitedAll, visited]

@[simp] theorem addresses_ofRegister (r : Register) (os : List Outline) :
    addresses (ofRegister r :: os) = r.address :: addresses os := rfl

@[simp] theorem addresses_map_ofRegister (rs : List Register) :
    addresses (rs.map ofRegister) = rs.map (·.address) := by
  induction rs with
  | nil => rfl
  | cons r rs ih => rw [List.map_cons, addresses_ofRegister, ih, List.map_cons]

end Outline

/-! ## In expressions -/

namespace Expr

/-- The addresses in an expression. -/
def addresses (e : Expr) : List Int := Outline.addresses e.outline

/-- The addresses in expressions, one after the other. -/
def addressesAll (es : List Expr) : List Int := Outline.addresses (outlines es)

@[simp] theorem addressesAll_nil : addressesAll [] = [] := rfl

@[simp] theorem addressesAll_cons (e : Expr) (es : List Expr) :
    addressesAll (e :: es) = e.addresses ++ addressesAll es :=
  Outline.addresses_append e.outline (outlines es)

theorem mem_addressesAll {a : Int} {es : List Expr} :
    a ∈ addressesAll es ↔ ∃ e ∈ es, a ∈ e.addresses := by
  induction es with
  | nil => simp
  | cons e es ih => simp [ih]

variable (a : Int)

@[simp] theorem addresses_missing : addresses missing = [] := rfl

@[simp] theorem addresses_register (r : Register) : (register r).addresses = [r.address] := rfl

@[simp] theorem addresses_closure (index : Int) : (closure a index).addresses = [a] := rfl

@[simp] theorem addresses_identifier (name : Bytes) : (identifier a name).addresses = [a] := rfl

@[simp] theorem addresses_nilLiteral : (nil a).addresses = [a] := rfl

@[simp] theorem addresses_bool (b : Bool) : (bool a b).addresses = [a] := rfl

@[simp] theorem addresses_number (x : Double) : (number a x).addresses = [a] := rfl

@[simp] theorem addresses_string (s : Bytes) : (string a s).addresses = [a] := rfl

@[simp] theorem addresses_vararg : (vararg a).addresses = [a] := rfl

@[simp] theorem addresses_call (f : Expr) (args : List Expr) :
    (call a f args).addresses = a :: (f.addresses ++ addressesAll args) :=
  (Outline.addresses_node _ _).trans (congrArg _ (Outline.addresses_append _ _))

@[simp] theorem addresses_binary (op : Bytes) (l r : Expr) :
    (binary a op l r).addresses = a :: (l.addresses ++ r.addresses) :=
  (Outline.addresses_node _ _).trans (congrArg _ (Outline.addresses_append _ _))

@[simp] theorem addresses_unary (op : Bytes) (e : Expr) :
    (unary a op e).addresses = a :: e.addresses :=
  Outline.addresses_node _ _

@[simp] theorem addresses_table (ks vs : List Expr) :
    (table a ks vs).addresses = a :: (addressesAll ks ++ addressesAll vs) :=
  (Outline.addresses_node _ _).trans (congrArg _ (Outline.addresses_append _ _))

@[simp] theorem addresses_index (t k : Expr) :
    (index a t k).addresses = a :: (t.addresses ++ k.addresses) :=
  (Outline.addresses_node _ _).trans (congrArg _ (Outline.addresses_append _ _))

@[simp] theorem addresses_shared (n : Nat) (e : Expr) : (shared n e).addresses = e.addresses := rfl

end Expr

/-! ## In statements -/

namespace Node

/-- The addresses in a tree, in the order of a walk. -/
def addresses (n : Node) : List Int := (n.visited fun _ => true).map address

/-- The addresses in statements, one after the other. -/
def addressesAll (ns : List Node) : List Int := Outline.addresses (outlines ns)

@[simp] theorem addressesAll_nil : addressesAll [] = [] := rfl

@[simp] theorem addressesAll_cons (n : Node) (ns : List Node) :
    addressesAll (n :: ns) = n.addresses ++ addressesAll ns :=
  Outline.addresses_append n.outline (outlines ns)

@[simp] theorem addressesAll_append (ms ns : List Node) :
    addressesAll (ms ++ ns) = addressesAll ms ++ addressesAll ns := by
  induction ms with
  | nil => rfl
  | cons m ms ih => rw [List.cons_append, addressesAll_cons, ih, addressesAll_cons, List.append_assoc]

theorem mem_addressesAll {a : Int} {ns : List Node} :
    a ∈ addressesAll ns ↔ ∃ n ∈ ns, a ∈ n.addresses := by
  induction ns with
  | nil => simp
  | cons n ns ih => simp [ih]

variable (a : Int) (c : Expr) (body : Node) (ns : List Node)

@[simp] theorem addresses_missing : addresses missing = [] := rfl

@[simp] theorem addresses_expr (e : Expr) : (expr e).addresses = e.addresses := rfl

@[simp] theorem addresses_chunk : (chunk a ns).addresses = a :: addressesAll ns :=
  Outline.addresses_node _ _

@[simp] theorem addresses_block : (block a ns).addresses = a :: addressesAll ns :=
  Outline.addresses_node _ _

@[simp] theorem addresses_scope : (scope a body).addresses = a :: body.addresses :=
  Outline.addresses_node _ _

@[simp] theorem addresses_whileLoop :
    (whileLoop a c body).addresses = a :: (c.addresses ++ body.addresses) :=
  (Outline.addresses_node _ _).trans (congrArg _ (Outline.addresses_append _ _))

@[simp] theorem addresses_repeatLoop :
    (repeatLoop a body c).addresses = a :: (body.addresses ++ c.addresses) :=
  (Outline.addresses_node _ _).trans (congrArg _ (Outline.addresses_append _ _))

@[simp] theorem addresses_branch (other : Node) :
    (branch a c body ns other).addresses =
      a :: (c.addresses ++ body.addresses ++ addressesAll ns ++ other.addresses) := by
  refine (Outline.addresses_node _ _).trans (congrArg _ ?_)
  rw [Outline.addresses_append, Outline.addresses_append, Outline.addresses_append]
  rfl

@[simp] theorem addresses_arm : (arm a c body).addresses = a :: (c.addresses ++ body.addresses) :=
  (Outline.addresses_node _ _).trans (congrArg _ (Outline.addresses_append _ _))

@[simp] theorem addresses_numericFor (v : Register) (x y z : Node) :
    (numericFor a v x y z body).addresses =
      a :: v.address :: (x.addresses ++ y.addresses ++ z.addresses ++ body.addresses) := by
  refine (Outline.addresses_node _ _).trans (congrArg _ ?_)
  rw [Outline.addresses_ofRegister, Outline.addresses_append, Outline.addresses_append,
    Outline.addresses_append]
  rfl

@[simp] theorem addresses_genericFor (vars es : List Expr) :
    (genericFor a vars es body).addresses =
      a :: (Expr.addressesAll vars ++ Expr.addressesAll es ++ body.addresses) := by
  refine (Outline.addresses_node _ _).trans (congrArg _ ?_)
  rw [Outline.addresses_append, Outline.addresses_append]
  rfl

@[simp] theorem addresses_function (name : Expr) (params : List Register) (vararg : Bool) :
    (function a name params vararg body).addresses =
      a :: (name.addresses ++ params.map (·.address) ++ body.addresses) := by
  refine (Outline.addresses_node _ _).trans (congrArg _ ?_)
  rw [Outline.addresses_append, Outline.addresses_append, Outline.addresses_map_ofRegister]
  rfl

@[simp] theorem addresses_localFunction (name : Expr) (params : List Register) (vararg : Bool) :
    (localFunction a name params vararg body).addresses =
      a :: (name.addresses ++ params.map (·.address) ++ body.addresses) := by
  refine (Outline.addresses_node _ _).trans (congrArg _ ?_)
  rw [Outline.addresses_append, Outline.addresses_append, Outline.addresses_map_ofRegister]
  rfl

@[simp] theorem addresses_locals (ts vs : List Expr) :
    (locals a ts vs).addresses = a :: (Expr.addressesAll ts ++ Expr.addressesAll vs) :=
  (Outline.addresses_node _ _).trans (congrArg _ (Outline.addresses_append _ _))

@[simp] theorem addresses_assign (ts vs : List Expr) (kept : Bool) :
    (assign a ts vs kept).addresses = a :: (Expr.addressesAll ts ++ Expr.addressesAll vs) :=
  (Outline.addresses_node _ _).trans (congrArg _ (Outline.addresses_append _ _))

@[simp] theorem addresses_returns (vs : List Expr) :
    (returns a vs).addresses = a :: Expr.addressesAll vs :=
  Outline.addresses_node _ _

@[simp] theorem addresses_jump (offset : Int) : (jump a offset).addresses = [a] := rfl

@[simp] theorem addresses_test : (test a c).addresses = a :: c.addresses :=
  Outline.addresses_node _ _

@[simp] theorem addresses_forPrep (x y z : Expr) (v : Register) :
    (forPrep a x y z v).addresses =
      a :: (x.addresses ++ y.addresses ++ z.addresses ++ [v.address]) := by
  refine (Outline.addresses_node _ _).trans (congrArg _ ?_)
  rw [Outline.addresses_append, Outline.addresses_append, Outline.addresses_append]
  rfl

@[simp] theorem addresses_forLoop (offset : Int) : (forLoop a c offset).addresses = a :: c.addresses :=
  Outline.addresses_node _ _

@[simp] theorem addresses_tForLoop (vars : List Register) :
    (tForLoop a vars).addresses = a :: vars.map (·.address) :=
  (Outline.addresses_node _ _).trans (congrArg _ (Outline.addresses_map_ofRegister vars))

end Node

/-! ## Numbering -/

theorem Register.map_address_numberFrom (k : Nat) (rs : List Register) :
    (numberFrom k rs).map (·.address) = rs.map (·.address) := by
  induction rs generalizing k with
  | nil => rfl
  | cons r rs ih => rw [numberFrom, List.map_cons, ih, List.map_cons]

mutual

theorem Expr.addresses_renumber (e : Expr) (k : Nat) : (e.renumber k).1.addresses = e.addresses := by
  cases e with
  | call a f args =>
    refine (addresses_call a _ _).trans ?_
    rw [f.addresses_renumber, Expr.addressesAll_renumberAll args, addresses_call]
  | binary a op l r =>
    refine (addresses_binary a op _ _).trans ?_
    rw [l.addresses_renumber, r.addresses_renumber, addresses_binary]
  | unary a op e =>
    refine (addresses_unary a op _).trans ?_
    rw [e.addresses_renumber, addresses_unary]
  | table a ks vs =>
    refine (addresses_table a _ _).trans ?_
    rw [Expr.addressesAll_renumberAll ks, Expr.addressesAll_renumberAll vs, addresses_table]
  | index a t key =>
    refine (addresses_index a _ _).trans ?_
    rw [t.addresses_renumber, key.addresses_renumber, addresses_index]
  | shared n e => exact e.addresses_renumber k
  | _ => rfl

theorem Expr.addressesAll_renumberAll (es : List Expr) (k : Nat) :
    Expr.addressesAll (Expr.renumberAll es k).1 = Expr.addressesAll es := by
  cases es with
  | nil => rfl
  | cons e es =>
    refine (addressesAll_cons _ _).trans ?_
    rw [e.addresses_renumber, Expr.addressesAll_renumberAll es, addressesAll_cons]

end

theorem Node.Flat.addresses_renumber {n : Node} (h : n.Flat) (k : Nat) :
    (n.renumber k).1.addresses = n.addresses := by
  have hone := Expr.addresses_renumber
  have hall := Expr.addressesAll_renumberAll
  cases n with
  | assign a ts vs kept =>
    refine (addresses_assign a _ _ _).trans ?_
    rw [hall ts, hall vs, addresses_assign]
  | returns a vs =>
    refine (addresses_returns a _).trans ?_
    rw [hall vs, addresses_returns]
  | test a c =>
    refine (addresses_test a _).trans ?_
    rw [hone c, addresses_test]
  | forPrep a x y z v =>
    refine (addresses_forPrep a _ _ _ _).trans ?_
    rw [hone x, hone y, hone z, addresses_forPrep]
  | forLoop a c offset =>
    refine (addresses_forLoop a _ _).trans ?_
    rw [hone c, addresses_forLoop]
  | tForLoop a vars =>
    have hvars : (vars.mapM Register.renumber k).1 = Register.numberFrom k vars :=
      congrArg Prod.fst (Register.mapM_renumber vars k)
    refine (addresses_tForLoop a (vars.mapM Register.renumber k).1).trans ?_
    rw [hvars, Register.map_address_numberFrom, addresses_tForLoop]
  | jump a offset => rfl
  | _ => cases h

end HavokScript
