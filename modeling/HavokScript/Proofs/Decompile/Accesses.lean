import HavokScript.Decompile.Uses
import HavokScript.Proofs.Decompile.Recovery
import HavokScript.Proofs.Tree.Registers

/-!
# The accesses of a function

What a pass over a function does to registers is a list of reads and writes, in the order of evaluation:
the values of an assignment come before its targets, the bounds of a numeric loop before its variable and
its body, and the variables of iterator calls are written at the start of their list and again at the
call. `Node.accesses` is that list for a recovered statement.

Counting uses performs the accesses one by one (`Node.Recovered.tally_eq`), so what it does to a tree
is told by a list.
-/

namespace HavokScript

/-- A register node that is read or written. -/
inductive Access where
  /-- the register is read -/
  | read (r : Register)
  /-- the register is written -/
  | write (r : Register)
  deriving DecidableEq

namespace Access

/-- The register node that is read. -/
def read? : Access → Option Register
  | read r => some r
  | write _ => none

/-- The register node that is written. -/
def write? : Access → Option Register
  | read _ => none
  | write r => some r

end Access

/-! ## The order of evaluation -/

/-- The accesses of a target: a register is written, and what any other target consists of is read. -/
def Expr.targetAccesses : Expr → List Access
  | .register r => [.write r]
  | e => e.inputs.map .read

/-- The variables of the iterator calls of a list. -/
def Node.iterators (ns : List Node) : List Register :=
  ns.flatMap fun
    | .tForLoop _ vars => vars
    | _ => []

mutual

/-- The accesses of a recovered statement. -/
def Node.accesses : Node → List Access
  | .assign _ ts vs _ => (Expr.inputsAll vs).map .read ++ ts.flatMap Expr.targetAccesses
  | .returns _ vs => (Expr.inputsAll vs).map .read
  | .test _ c | .forLoop _ c _ => c.inputs.map .read
  | .forPrep _ init limit step v =>
    (init.inputs ++ limit.inputs ++ step.inputs).map .read ++ [.write v]
  | .tForLoop _ vars => vars.map .write
  | .block _ body => (Node.iterators body).map .write ++ Node.accessesAll body
  | .numericFor _ v init limit step body =>
    init.accesses ++ limit.accesses ++ step.accesses ++ .write v :: body.accesses
  | _ => []

/-- The accesses of statements, one after the other. -/
def Node.accessesAll : List Node → List Access
  | [] => []
  | n :: ns => n.accesses ++ Node.accessesAll ns

end

/-- The accesses of a function: its parameters are written at the start. -/
def Declaration.accesses (d : Declaration) : List Access :=
  d.parameters.map .write ++ (Node.block d.address d.body).accesses

/-! ## Counting performs the accesses -/

namespace Tally

/-- A register is read or written. -/
def perform : Access → Counting Unit
  | .read r => read r
  | .write r => bind r

/-- Accesses one after the other. -/
def performAll : List Access → Counting Unit
  | [] => return ()
  | a :: as => do perform a; performAll as

theorem performAll_append (as bs : List Access) :
    performAll (as ++ bs) = (do performAll as; performAll bs) := by
  induction as with
  | nil => rfl
  | cons a as ih => simp only [List.cons_append, performAll, ih, bind_assoc]

theorem performAll_singleton (a : Access) : performAll [a] = perform a := bind_pure (perform a)

theorem bindAll_eq (rs : List Register) : bindAll rs = performAll (rs.map .write) := by
  induction rs with
  | nil => rfl
  | cons r rs ih => rw [bindAll, ih, List.map_cons, performAll, perform]

end Tally

mutual

theorem Expr.tally_eq (e : Expr) : e.tally = Tally.performAll (e.inputs.map .read) := by
  cases e with
  | register r => exact (Tally.performAll_singleton (.read r)).symm
  | call a f args =>
    rw [Expr.tally, f.tally_eq, Expr.tallyAll_eq args, Expr.inputs_call, List.map_append,
      Tally.performAll_append]
  | binary a op l r =>
    rw [Expr.tally, l.tally_eq, r.tally_eq, Expr.inputs_binary, List.map_append,
      Tally.performAll_append]
  | unary a op e => rw [Expr.tally, e.tally_eq, Expr.inputs_unary]
  | table a ks vs =>
    rw [Expr.tally, Expr.tallyAll_eq ks, Expr.tallyAll_eq vs, Expr.inputs_table, List.map_append,
      Tally.performAll_append]
  | index a t k =>
    rw [Expr.tally, t.tally_eq, k.tally_eq, Expr.inputs_index, List.map_append,
      Tally.performAll_append]
  | shared n e => rw [Expr.tally, e.tally_eq, Expr.inputs_shared]
  | _ => rfl

theorem Expr.tallyAll_eq (es : List Expr) :
    Expr.tallyAll es = Tally.performAll ((Expr.inputsAll es).map .read) := by
  cases es with
  | nil => rfl
  | cons e es =>
    rw [Expr.tallyAll, e.tally_eq, Expr.tallyAll_eq es, Expr.inputsAll_cons, List.map_append,
      Tally.performAll_append]

end

/-- A target that is no register is read. -/
theorem Expr.targetAccesses_of_read {e : Expr} (h : e.register? = none) :
    e.targetAccesses = e.inputs.map .read := by
  cases e <;> first | rfl | cases h

theorem Expr.tallyTargets_eq (ts : List Expr) :
    Expr.tallyTargets ts = Tally.performAll (ts.flatMap Expr.targetAccesses) := by
  induction ts with
  | nil => rfl
  | cons t ts ih =>
    have ht : t.tallyTarget = Tally.performAll t.targetAccesses := by
      cases t with
      | register r => exact (Tally.performAll_singleton (.write r)).symm
      | _ => exact Expr.tally_eq _
    rw [Expr.tallyTargets, ht, ih, List.flatMap_cons, Tally.performAll_append]

namespace Node

theorem bindIterators_eq (ns : List Node) :
    bindIterators ns = Tally.performAll ((iterators ns).map .write) := by
  induction ns with
  | nil => rfl
  | cons n ns ih =>
    cases n with
    | tForLoop a vars =>
      change _ = Tally.performAll ((vars ++ iterators ns).map .write)
      rw [bindIterators, Tally.bindAll_eq, ih, List.map_append, Tally.performAll_append]
    | _ => exact ih

theorem tallyAll_eq {ns : List Node} (h : ∀ n ∈ ns, n.tally = Tally.performAll n.accesses) :
    tallyAll ns = Tally.performAll (accessesAll ns) := by
  induction ns with
  | nil => rfl
  | cons n ns ih =>
    rw [List.forall_mem_cons] at h
    rw [tallyAll, h.1, ih h.2, accessesAll, Tally.performAll_append]

theorem tally_block {a : Int} {ns : List Node}
    (h : ∀ n ∈ ns, n.tally = Tally.performAll n.accesses) :
    (block a ns).tally = Tally.performAll (block a ns).accesses := by
  rw [tally, bindIterators_eq, tallyAll_eq h, accesses, Tally.performAll_append]

theorem Flat.tally_eq {n : Node} (h : n.Flat) : n.tally = Tally.performAll n.accesses := by
  cases n with
  | assign a ts vs kept =>
    rw [tally, Expr.tallyAll_eq, Expr.tallyTargets_eq, accesses, Tally.performAll_append]
  | returns a vs => rw [tally, Expr.tallyAll_eq, accesses]
  | jump a offset => rfl
  | test a c => rw [tally, Expr.tally_eq, accesses]
  | forPrep a x y z v =>
    rw [tally, Expr.tally_eq, Expr.tally_eq, Expr.tally_eq, accesses, List.map_append, List.map_append,
      Tally.performAll_append, Tally.performAll_append, Tally.performAll_append,
      Tally.performAll_singleton, Tally.perform, bind_assoc, bind_assoc]
  | forLoop a c offset => rw [tally, Expr.tally_eq, accesses]
  | tForLoop a vars => rw [tally, Tally.bindAll_eq, accesses]
  | _ => cases h

/-- Counting performs the accesses of a recovered statement. -/
theorem Recovered.tally_eq {n : Node} (h : n.Recovered) : n.tally = Tally.performAll n.accesses := by
  induction h with
  | flat h => exact h.tally_eq
  | @region a b offset inner _ _ _ ih =>
    refine tally_block ?_
    rw [List.forall_mem_append, List.forall_mem_singleton]
    exact ⟨ih, rfl⟩
  | @numeric a b v init limit step body hinit hlimit hstep _ _ ih =>
    change _ = Tally.performAll (init.accesses ++ limit.accesses ++ step.accesses ++
      .write v :: (block b body).accesses)
    rw [tally, hinit.tally_eq, hlimit.tally_eq, hstep.tally_eq, tally_block ih,
      Tally.performAll_append, Tally.performAll_append, Tally.performAll_append, Tally.performAll,
      Tally.perform, bind_assoc, bind_assoc]

end Node

/-- Counting performs the accesses of a function. -/
theorem Declaration.tally_eq {d : Declaration} (h : ∀ n ∈ d.body, n.Recovered) :
    (do Tally.bindAll d.parameters; (Node.block d.address d.body).tally) =
      Tally.performAll d.accesses := by
  rw [Tally.bindAll_eq, Node.tally_block fun n hn => (h n hn).tally_eq, accesses,
    Tally.performAll_append]

/-! ## Reads added -/

mutual

theorem Expr.inputs_addReads (reads : List Nat) (e : Expr) :
    (e.addReads reads).inputs = e.inputs.map (Register.addReads reads) := by
  cases e with
  | register r => rfl
  | call a f args =>
    rw [Expr.addReads, Expr.inputs_call, f.inputs_addReads, Expr.inputsAll_addReadsAll reads args,
      Expr.inputs_call, List.map_append]
  | binary a op l r =>
    rw [Expr.addReads, Expr.inputs_binary, l.inputs_addReads, r.inputs_addReads, Expr.inputs_binary,
      List.map_append]
  | unary a op e => rw [Expr.addReads, Expr.inputs_unary, e.inputs_addReads, Expr.inputs_unary]
  | table a ks vs =>
    rw [Expr.addReads, Expr.inputs_table, Expr.inputsAll_addReadsAll reads ks,
      Expr.inputsAll_addReadsAll reads vs, Expr.inputs_table, List.map_append]
  | index a t k =>
    rw [Expr.addReads, Expr.inputs_index, t.inputs_addReads, k.inputs_addReads, Expr.inputs_index,
      List.map_append]
  | shared n e => rw [Expr.addReads, Expr.inputs_shared, e.inputs_addReads, Expr.inputs_shared]
  | _ => rfl

theorem Expr.inputsAll_addReadsAll (reads : List Nat) (es : List Expr) :
    Expr.inputsAll (Expr.addReadsAll reads es) =
      (Expr.inputsAll es).map (Register.addReads reads) := by
  cases es with
  | nil => rfl
  | cons e es =>
    rw [Expr.addReadsAll, Expr.inputsAll_cons, e.inputs_addReads, Expr.inputsAll_addReadsAll reads es,
      Expr.inputsAll_cons, List.map_append]

end

/-- The function with reads added to its registers. -/
def Declaration.addReads (reads : List Nat) (d : Declaration) : Declaration :=
  { d with
    parameters := d.parameters.map (Register.addReads reads)
    body := Node.addReadsAll reads d.body }

/-- Counting the uses of a function adds what is read when its accesses are performed. -/
theorem Declaration.countUses_eq {d : Declaration} (h : ∀ n ∈ d.body, n.Recovered) :
    d.toNode.countUses =
      (Tally.performAll d.accesses Tally.empty).map fun r => (d.addReads r.2.reads).toNode := by
  have htally : d.toNode.tally = Tally.nested d.parameters (Node.block d.address d.body).tally := rfl
  unfold Node.countUses
  rw [htally, Tally.nested, Declaration.tally_eq h]
  cases hrun : Tally.performAll d.accesses Tally.empty with
  | error e => rfl
  | ok r =>
    have hreads : Tally.readsOf d.parameters (.block d.address d.body) = r.2.reads := by
      rw [Tally.readsOf, Declaration.tally_eq h, hrun]
    simp only [toNode, Node.addReads, hreads, addReads, Except.map]

theorem Declaration.countUses_ok {d : Declaration} {n : Node} (h : ∀ n ∈ d.body, n.Recovered)
    (hcount : d.toNode.countUses = .ok n) :
    ∃ t, Tally.performAll d.accesses Tally.empty = .ok ((), t) ∧ n = (d.addReads t.reads).toNode := by
  rw [countUses_eq h] at hcount
  obtain ⟨r, hrun, rfl⟩ := ok_of_map hcount
  exact ⟨r.2, hrun, rfl⟩

end HavokScript
