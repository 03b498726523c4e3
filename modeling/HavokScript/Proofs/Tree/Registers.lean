import HavokScript.Decompile.Lower
import HavokScript.Proofs.Decompile.Unrolling
import HavokScript.Proofs.Tree.Finding

/-!
# Registers in a tree

`Node.registers` are the register nodes that a walk over a tree comes to, each place counted. They come
part by part, in source order, and numbering gives them consecutive numbers in that order
(`Node.registersAll_renumber`). So no two register nodes of a declaration that was just numbered are
the same (`Declaration.nodup_numbered`).
-/

namespace HavokScript

/-- The register that a node is, if it is one. -/
def Node.register? : Node → Option Register
  | .expr (.register r) => some r
  | _ => none

namespace Outline

/-- The registers in outlines, in the order of a walk. -/
def registers (os : List Outline) : List Register :=
  (visitedAll (fun _ => true) os).filterMap Node.register?

@[simp] theorem registers_nil : registers [] = [] := rfl

@[simp] theorem registers_append (xs ys : List Outline) :
    registers (xs ++ ys) = registers xs ++ registers ys := by
  rw [registers, visitedAll_append, List.filterMap_append, registers, registers]

/-- A node that is no register only shows the registers below it. -/
theorem registers_node {n : Node} (hn : n.register? = none) (cs : List Outline) :
    registers [.node n cs] = registers cs := by
  simp [registers, visitedAll, visited, List.filterMap_cons_none hn]

@[simp] theorem registers_ofRegister (r : Register) (cs : List Outline) :
    registers (ofRegister r :: cs) = r :: registers cs := rfl

@[simp] theorem registers_map_ofRegister (rs : List Register) :
    registers (rs.map ofRegister) = rs := by
  induction rs with
  | nil => rfl
  | cons r rs ih => rw [List.map_cons, registers_ofRegister, ih]

end Outline

/-! ## In expressions -/

namespace Expr

/-- The registers that an expression is computed from, from left to right. -/
def inputs (e : Expr) : List Register := Outline.registers e.outline

/-- The same for expressions, one after the other. -/
def inputsAll (es : List Expr) : List Register := Outline.registers (outlines es)

@[simp] theorem inputsAll_nil : inputsAll [] = [] := rfl

@[simp] theorem inputsAll_cons (e : Expr) (es : List Expr) :
    inputsAll (e :: es) = e.inputs ++ inputsAll es :=
  Outline.registers_append e.outline (outlines es)

@[simp] theorem inputs_register (r : Register) : (register r).inputs = [r] := rfl

@[simp] theorem inputs_call (a : Int) (f : Expr) (args : List Expr) :
    (call a f args).inputs = f.inputs ++ inputsAll args :=
  (Outline.registers_node rfl _).trans (Outline.registers_append _ _)

@[simp] theorem inputs_binary (a : Int) (op : Bytes) (l r : Expr) :
    (binary a op l r).inputs = l.inputs ++ r.inputs :=
  (Outline.registers_node rfl _).trans (Outline.registers_append _ _)

@[simp] theorem inputs_unary (a : Int) (op : Bytes) (e : Expr) : (unary a op e).inputs = e.inputs :=
  Outline.registers_node rfl _

@[simp] theorem inputs_table (a : Int) (ks vs : List Expr) :
    (table a ks vs).inputs = inputsAll ks ++ inputsAll vs :=
  (Outline.registers_node rfl _).trans (Outline.registers_append _ _)

@[simp] theorem inputs_index (a : Int) (t k : Expr) :
    (index a t k).inputs = t.inputs ++ k.inputs :=
  (Outline.registers_node rfl _).trans (Outline.registers_append _ _)

@[simp] theorem inputs_shared (n : Nat) (e : Expr) : (shared n e).inputs = e.inputs := rfl

theorem mem_inputsAll {r : Register} {es : List Expr} :
    r ∈ inputsAll es ↔ ∃ e ∈ es, r ∈ e.inputs := by
  induction es with
  | nil => simp
  | cons e es ih => simp [ih]

end Expr

/-! ## In statements -/

namespace Node

/-- The registers in a tree, in the order of a walk. -/
def registers (n : Node) : List Register := (n.visited fun _ => true).filterMap register?

/-- The registers in statements, one after the other. -/
def registersAll (ns : List Node) : List Register := Outline.registers (outlines ns)

@[simp] theorem registersAll_nil : registersAll [] = [] := rfl

@[simp] theorem registersAll_cons (n : Node) (ns : List Node) :
    registersAll (n :: ns) = n.registers ++ registersAll ns :=
  Outline.registers_append n.outline (outlines ns)

@[simp] theorem registersAll_append (ms ns : List Node) :
    registersAll (ms ++ ns) = registersAll ms ++ registersAll ns := by
  induction ms with
  | nil => rfl
  | cons m ms ih => rw [List.cons_append, registersAll_cons, ih, registersAll_cons, List.append_assoc]

theorem mem_registersAll {r : Register} {ns : List Node} :
    r ∈ registersAll ns ↔ ∃ n ∈ ns, r ∈ n.registers := by
  induction ns with
  | nil => simp
  | cons n ns ih => simp [ih]

variable (a : Int) (ns : List Node)

@[simp] theorem registers_expr (e : Expr) : (expr e).registers = e.inputs := rfl

@[simp] theorem registers_block : (block a ns).registers = registersAll ns :=
  Outline.registers_node rfl _

@[simp] theorem registers_locals (ts vs : List Expr) :
    (locals a ts vs).registers = Expr.inputsAll ts ++ Expr.inputsAll vs :=
  (Outline.registers_node rfl _).trans (Outline.registers_append _ _)

@[simp] theorem registers_assign (ts vs : List Expr) (kept : Bool) :
    (assign a ts vs kept).registers = Expr.inputsAll ts ++ Expr.inputsAll vs :=
  (Outline.registers_node rfl _).trans (Outline.registers_append _ _)

@[simp] theorem registers_returns (vs : List Expr) :
    (returns a vs).registers = Expr.inputsAll vs :=
  Outline.registers_node rfl _

@[simp] theorem registers_jump (offset : Int) : (jump a offset).registers = [] := rfl

@[simp] theorem registers_test (c : Expr) : (test a c).registers = c.inputs :=
  Outline.registers_node rfl _

@[simp] theorem registers_forPrep (x y z : Expr) (v : Register) :
    (forPrep a x y z v).registers = x.inputs ++ y.inputs ++ z.inputs ++ [v] := by
  refine (Outline.registers_node rfl _).trans ?_
  rw [Outline.registers_append, Outline.registers_append, Outline.registers_append]
  rfl

@[simp] theorem registers_forLoop (c : Expr) (offset : Int) :
    (forLoop a c offset).registers = c.inputs :=
  Outline.registers_node rfl _

@[simp] theorem registers_tForLoop (vars : List Register) :
    (tForLoop a vars).registers = vars :=
  (Outline.registers_node rfl _).trans (Outline.registers_map_ofRegister vars)

@[simp] theorem registers_numericFor (v : Register) (x y z body : Node) :
    (numericFor a v x y z body).registers =
      v :: (x.registers ++ y.registers ++ z.registers ++ body.registers) := by
  refine (Outline.registers_node rfl _).trans ?_
  rw [Outline.registers_ofRegister, Outline.registers_append, Outline.registers_append,
    Outline.registers_append]
  rfl

@[simp] theorem registers_function (name : Expr) (params : List Register) (vararg : Bool)
    (body : Node) :
    (function a name params vararg body).registers = name.inputs ++ params ++ body.registers := by
  refine (Outline.registers_node rfl _).trans ?_
  rw [Outline.registers_append, Outline.registers_append, Outline.registers_map_ofRegister]
  rfl

end Node

/-! ## Numbering -/

/-- The registers with numbers from `k` on. -/
def Register.numberFrom (k : Nat) : List Register → List Register
  | [] => []
  | r :: rs => { r with id := k } :: numberFrom (k + 1) rs

namespace Register

theorem numberFrom_append (k : Nat) (rs ss : List Register) :
    numberFrom k (rs ++ ss) = numberFrom k rs ++ numberFrom (k + rs.length) ss := by
  induction rs generalizing k with
  | nil => rfl
  | cons r rs ih =>
    rw [List.cons_append, numberFrom, ih, numberFrom, List.cons_append, List.length_cons,
      Nat.add_assoc k 1, Nat.add_comm 1]

theorem map_id_numberFrom (k : Nat) (rs : List Register) :
    (numberFrom k rs).map (·.id) = List.range' k rs.length := by
  induction rs generalizing k with
  | nil => rfl
  | cons r rs ih => rw [numberFrom, List.map_cons, ih, List.length_cons, List.range'_succ]

theorem mem_numberFrom {r : Register} {k : Nat} {rs : List Register} (h : r ∈ numberFrom k rs) :
    ∃ s ∈ rs, ∃ i, r = { s with id := i } := by
  induction rs generalizing k with
  | nil => cases h
  | cons s rs ih =>
    rcases List.mem_cons.mp h with rfl | h
    · exact ⟨s, List.mem_cons_self, k, rfl⟩
    · obtain ⟨s', hs', hr⟩ := ih h
      exact ⟨s', List.mem_cons_of_mem s hs', hr⟩

theorem mapM_renumber (rs : List Register) (k : Nat) :
    (rs.mapM renumber).run k = (numberFrom k rs, k + rs.length) := by
  induction rs generalizing k with
  | nil => rfl
  | cons r rs ih =>
    have hrest : (rs.mapM renumber).run (k + 1) = _ := ih (k + 1)
    rw [List.mapM_cons]
    change ({ r with id := k } :: ((rs.mapM renumber).run (k + 1)).1,
      ((rs.mapM renumber).run (k + 1)).2) = _
    rw [hrest]
    simp only [numberFrom, List.length_cons, Prod.mk.injEq, true_and]
    omega

end Register

/-- Numbering gives the registers of a part consecutive numbers, behind some that have theirs, and goes
on behind them. -/
def Numbers {α : Type} (registers : α → List Register) (front : List Register)
    (step : Numbering α) (rs : List Register) : Prop :=
  ∀ k, registers (step k).1 = front ++ Register.numberFrom k rs ∧ (step k).2 = k + rs.length

namespace Numbers

variable {α β : Type} {f : α → List Register} {g : β → List Register}
  {front rs ss : List Register}

theorem pure {a : α} (h : f a = front) : Numbers f front (Pure.pure a) [] :=
  fun _ => ⟨h.trans (List.append_nil front).symm, rfl⟩

/-- One part after the other. -/
theorem bind {x : Numbering α} {y : α → Numbering β} (hx : Numbers f [] x rs)
    (hy : ∀ a, Numbers g (front ++ f a) (y a) ss) : Numbers g front (x >>= y) (rs ++ ss) := by
  intro k
  obtain ⟨hfirst, hk⟩ := hx k
  obtain ⟨hsecond, hl⟩ := hy (x k).1 (x k).2
  constructor
  · change g (y (x k).1 (x k).2).1 = _
    rw [hsecond, hfirst, hk, List.nil_append, List.append_assoc, Register.numberFrom_append]
  · change (y (x k).1 (x k).2).2 = _
    rw [hl, hk, List.length_append, Nat.add_assoc]

/-- A part that is the last one. -/
theorem last {x : Numbering α} {make : α → β} (hx : Numbers f [] x rs)
    (hmake : ∀ a, g (make a) = front ++ f a) :
    Numbers g front (do return make (← x)) rs := by
  rw [← List.append_nil rs]
  exact hx.bind fun a => .pure (hmake a)

end Numbers

theorem Register.numbers (rs : List Register) : Numbers (fun rs => rs) [] (rs.mapM renumber) rs :=
  fun k => Prod.mk.inj (Register.mapM_renumber rs k)

theorem Register.numbers_one (r : Register) : Numbers (fun r => [r]) [] r.renumber [r] :=
  fun _ => ⟨rfl, rfl⟩

mutual

theorem Expr.inputs_renumber (e : Expr) : Numbers Expr.inputs [] e.renumber e.inputs := by
  cases e with
  | register r => exact r.numbers_one.last fun _ => rfl
  | call a f args =>
    rw [Expr.inputs_call]
    exact f.inputs_renumber.bind fun _ =>
      (Expr.inputsAll_renumberAll args).last (Expr.inputs_call a _)
  | binary a op l r =>
    rw [Expr.inputs_binary]
    exact l.inputs_renumber.bind fun _ => r.inputs_renumber.last (Expr.inputs_binary a op _)
  | unary a op e =>
    rw [Expr.inputs_unary]
    exact e.inputs_renumber.last (Expr.inputs_unary a op)
  | table a ks vs =>
    rw [Expr.inputs_table]
    exact (Expr.inputsAll_renumberAll ks).bind fun _ =>
      (Expr.inputsAll_renumberAll vs).last (Expr.inputs_table a _)
  | index a t k =>
    rw [Expr.inputs_index]
    exact t.inputs_renumber.bind fun _ => k.inputs_renumber.last (Expr.inputs_index a _)
  | shared n e => exact e.inputs_renumber.last fun _ => rfl
  | _ => exact .pure rfl

theorem Expr.inputsAll_renumberAll (es : List Expr) :
    Numbers Expr.inputsAll [] (Expr.renumberAll es) (Expr.inputsAll es) := by
  cases es with
  | nil => exact .pure rfl
  | cons e es =>
    rw [Expr.inputsAll_cons]
    exact e.inputs_renumber.bind fun _ =>
      (Expr.inputsAll_renumberAll es).last (Expr.inputsAll_cons _)

end

namespace Node

/-- The registers of a simple statement are numbered in source order. -/
theorem registers_renumber {n : Node} (h : n.isSimple) :
    Numbers registers [] n.renumber n.registers := by
  have hone := Expr.inputs_renumber
  have hall := Expr.inputsAll_renumberAll
  cases n with
  | missing => exact .pure rfl
  | expr e => exact (hone e).last registers_expr
  | locals a ts vs =>
    rw [registers_locals]
    exact (hall ts).bind fun _ => (hall vs).last (registers_locals a _)
  | assign a ts vs kept =>
    rw [registers_assign]
    exact (hall ts).bind fun _ => (hall vs).last fun vs => registers_assign a _ vs kept
  | returns a vs =>
    rw [registers_returns]
    exact (hall vs).last (registers_returns a)
  | jump a offset => exact .pure rfl
  | test a c =>
    rw [registers_test]
    exact (hone c).last (registers_test a)
  | forPrep a x y z v =>
    rw [registers_forPrep, List.append_assoc, List.append_assoc]
    exact (hone x).bind fun _ => (hone y).bind fun _ => (hone z).bind fun _ =>
      v.numbers_one.last fun v => by simp
  | forLoop a c offset =>
    rw [registers_forLoop]
    exact (hone c).last fun c => registers_forLoop a c offset
  | tForLoop a vars =>
    rw [registers_tForLoop]
    exact (Register.numbers vars).last (registers_tForLoop a)
  | _ => cases h

theorem registersAll_renumber {ns : List Node} (h : ∀ n ∈ ns, n.isSimple) :
    Numbers registersAll [] (Node.renumberAll ns) (registersAll ns) := by
  induction ns with
  | nil => exact .pure rfl
  | cons n ns ih =>
    rw [List.forall_mem_cons] at h
    rw [registersAll_cons]
    exact (registers_renumber h.1).bind fun _ => (ih h.2).last (registersAll_cons _)

end Node

namespace Declaration

/-- The registers of a declaration, parameters first. -/
def registers (d : Declaration) : List Register := d.parameters ++ Node.registersAll d.body

theorem registers_toNode (d : Declaration) : d.toNode.registers = d.registers := by
  rw [toNode, Node.registers_function, Node.registers_block]
  rfl

theorem registers_numbered {d : Declaration} (h : ∀ n ∈ d.body, n.isSimple) :
    d.numbered.registers = Register.numberFrom 0 d.registers := by
  have hparameters := Register.mapM_renumber d.parameters 0
  simp only [numbered, registers, hparameters, Register.numberFrom_append]
  exact congrArg _ ((Node.registersAll_renumber h) _).1

/-- No register node of a declaration stands at two places after numbering. -/
theorem nodup_numbered {d : Declaration} (h : ∀ n ∈ d.body, n.isSimple) :
    (d.numbered.registers.map (·.id)).Nodup := by
  rw [registers_numbered h, Register.map_id_numberFrom]
  exact List.nodup_range'

end Declaration

end HavokScript
