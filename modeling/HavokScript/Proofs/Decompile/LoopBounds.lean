import HavokScript.Proofs.Decompile.LoopUpdates
import HavokScript.Proofs.Decompile.Unrolling
import HavokScript.Proofs.Tree.Finding

/-!
# The bounds of numeric loops

The start of a numeric loop names the register A; the loop counts from R(A) to R(A+1) by R(A+2), and
its variable is R(A+3). Recovery takes the three statements in front of the start as the bounds and
does not look at them. `Loops.carriesBounds_iff` says when that is right: a recovered loop carries its
own bounds exactly if these three statements load R(A), R(A+1) and R(A+2) in this order. A bound that
takes two statements pushes another one out (`Loops.carriesBounds_lengthLoop`).

Every recovered loop has a start and an end in the flat list (`Loops.Unrolls`), and a start is only
made of the instruction for it (`Code.lower_starts`), which fixes A.
-/

namespace HavokScript

/-! ## Numeric loops in a tree -/

/-- Whether the node is a numeric loop. -/
def Node.isNumericLoop : Node → Bool
  | .numericFor .. => true
  | _ => false

/-- The numeric loops in outlines, each before those inside. -/
def Outline.numericLoops (os : List Outline) : List Node :=
  (Outline.visitedAll (fun _ => true) os).filter Node.isNumericLoop

/-- The numeric loops in a list of statements, at any depth. -/
def Node.numericLoops (ns : List Node) : List Node := Outline.numericLoops (Node.outlines ns)

namespace Outline

@[simp] theorem numericLoops_nil : numericLoops [] = [] := rfl

@[simp] theorem numericLoops_append (xs ys : List Outline) :
    numericLoops (xs ++ ys) = numericLoops xs ++ numericLoops ys :=
  found_append xs ys

/-- A node that is no loop itself only shows the loops below it. -/
theorem numericLoops_node {n : Node} (hn : n.isNumericLoop = false) (cs : List Outline) :
    numericLoops [.node n cs] = numericLoops cs :=
  found_node hn cs

theorem numericLoops_root {n : Node} (hn : n.isNumericLoop) (cs : List Outline) :
    numericLoops [.node n cs] = n :: numericLoops cs :=
  found_root hn cs

@[simp] theorem numericLoops_ofRegister (r : Register) (cs : List Outline) :
    numericLoops (ofRegister r :: cs) = numericLoops cs :=
  found_ofRegister (fun _ => rfl) r cs

end Outline

namespace Node

theorem numericLoops_cons (n : Node) (ns : List Node) :
    numericLoops (n :: ns) = Outline.numericLoops n.outline ++ numericLoops ns := by
  rw [numericLoops, outlines, Outline.numericLoops_append, numericLoops]

/-- A simple statement has only expressions below it. -/
theorem found_of_isSimple {kind : Node → Bool} (hkind : ∀ e, kind (.expr e) = false) {n : Node}
    (h : n.isSimple) (hn : kind n = false) : Outline.found kind n.outline = [] := by
  have hall := Expr.found_outlines hkind
  have hone := Expr.found_outline hkind
  cases n with
  | missing => rfl
  | expr e => exact hone e
  | jump a offset => exact Outline.found_node hn []
  | locals a ts vs | assign a ts vs kept =>
    rw [outline, Outline.found_node hn, Outline.found_append, hall, hall, List.append_nil]
  | returns a vs => rw [outline, Outline.found_node hn, hall]
  | test a c | forLoop a c offset => rw [outline, Outline.found_node hn, hone]
  | forPrep a x y z v =>
    rw [outline, Outline.found_node hn, Outline.found_append, Outline.found_append,
      Outline.found_append, hone, hone, hone, Outline.found_ofRegister hkind]
    rfl
  | tForLoop a vars => rw [outline, Outline.found_node hn, Outline.found_map_ofRegister hkind]
  | _ => cases h

theorem numericLoops_of_isSimple {n : Node} (h : n.isSimple) :
    Outline.numericLoops n.outline = [] := by
  refine found_of_isSimple (fun _ => rfl) h ?_
  cases n <;> first | rfl | cases h

/-- A loop with simple bounds comes before the loops in its body. -/
theorem numericLoops_numericFor {a b : Int} {v : Register} {init limit step : Node}
    (hinit : init.isSimple) (hlimit : limit.isSimple) (hstep : step.isSimple) (body : List Node) :
    Outline.numericLoops (numericFor a v init limit step (.block b body)).outline =
      numericFor a v init limit step (.block b body) :: numericLoops body := by
  have hblock : Outline.numericLoops (block b body).outline = numericLoops body :=
    Outline.numericLoops_node rfl _
  rw [outline, Outline.numericLoops_root rfl]
  simp only [Outline.numericLoops_append, Outline.numericLoops_ofRegister,
    numericLoops_of_isSimple hinit, numericLoops_of_isSimple hlimit, numericLoops_of_isSimple hstep,
    hblock, List.nil_append]

end Node

namespace Loops

/-- The loop stands for its bounds, in front of its start. -/
def StandsFor (flat : List Node) (n : Node) (e : Ends) : Prop :=
  ∃ a init limit step body before after, n = .numericFor a e.var init limit step body ∧
    flat = before ++ init :: limit :: step :: e.start :: after

theorem StandsFor.extend {flat : List Node} {n : Node} {e : Ends} (h : StandsFor flat n e)
    (front back : List Node) : StandsFor (front ++ flat ++ back) n e := by
  obtain ⟨a, init, limit, step, body, before, after, rfl, rfl⟩ := h
  exact ⟨a, init, limit, step, body, front ++ before, after ++ back, rfl, by simp⟩

theorem forall₂_standsFor {flat : List Node} {ns : List Node} {ends : List Ends}
    (h : List.Forall₂ (StandsFor flat) ns ends) (front back : List Node) :
    List.Forall₂ (StandsFor (front ++ flat ++ back)) ns ends :=
  h.imp fun _ _ h => h.extend front back

/-- The numeric loops of a tree and their ends, one by one. -/
theorem Unrolls.standsFor {ns flat : List Node} {ends : List Ends} (h : Unrolls ns ends flat) :
    List.Forall₂ (StandsFor flat) (Node.numericLoops ns) ends := by
  induction h with
  | nil => exact .nil
  | @simple n ns flat ends hn _ ih =>
    rw [Node.numericLoops_cons, Node.numericLoops_of_isSimple hn, List.nil_append]
    simpa using forall₂_standsFor ih [n] []
  | @region a body ns inner flat ends ends' _ _ ihinside ihrest =>
    rw [Node.numericLoops_cons, Node.outline, Outline.numericLoops_node rfl]
    have hinside := forall₂_standsFor ihinside [] flat
    have hrest := forall₂_standsFor ihrest inner []
    rw [List.append_nil] at hrest
    exact List.rel_append hinside hrest
  | @numeric a b init limit step body ns inner flat e ends ends' hinit hlimit hstep _ _ ihinside
      ihrest =>
    rw [Node.numericLoops_cons, Node.numericLoops_numericFor hinit hlimit hstep]
    have hinside := forall₂_standsFor ihinside [init, limit, step, e.start] (e.finish :: flat)
    have hrest := forall₂_standsFor ihrest
      ([init, limit, step, e.start] ++ (inner ++ [e.finish])) []
    simp only [List.append_nil, List.append_assoc, List.cons_append, List.nil_append]
      at hinside hrest
    exact .cons ⟨a, init, limit, step, _, [], _, rfl, rfl⟩ (List.rel_append hinside hrest)

end Loops

/-! ## Starts of loops -/

/-- Whether the statement is the start of a numeric loop. -/
def Node.isStart : Node → Bool
  | .forPrep .. => true
  | _ => false

namespace Lower

/-- The statement is the start of a numeric loop that the instruction makes: it names the registers from
A on. -/
def Starts (i : Instruction) (n : Node) : Prop :=
  Opcode.ofCode? i.op = some .forPrep ∧ ∃ x y z v,
    n = .forPrep i.address (.register x) (.register y) (.register z) v ∧ x.index = i.argument 0 ∧
      y.index = i.argument 0 + 1 ∧ z.index = i.argument 0 + 2 ∧ v.index = i.argument 0 + 3

/-- A decoded register is far from wrapping around. -/
theorem forPrep_starts {i : Instruction} (hi : i.Decoded)
    (hop : Opcode.ofCode? i.op = some .forPrep) :
    Starts i (.forPrep i.address (reg i.address (i.argument 0))
      (reg i.address (wrap64 (i.argument 0 + 1))) (reg i.address (wrap64 (i.argument 0 + 2)))
      ⟨0, i.address, wrap64 (i.argument 0 + 3), 0⟩) := by
  have hargument : i.argument 0 = (i.raw.a : Int) := by
    rw [Instruction.argument, decoded_operands hi hop]
    rfl
  have hwrap : ∀ k : Int, 0 ≤ k → k ≤ 3 → wrap64 (i.argument 0 + k) = i.argument 0 + k := by
    intro k hk hk'
    have hlt : i.raw.a < 0x100 := Nat.mod_lt _ (by decide)
    rw [hargument, wrap64, Int.bmod_def]
    omega
  exact ⟨hop, _, _, _, _, rfl, rfl, hwrap 1 (by decide) (by decide), hwrap 2 (by decide) (by decide),
    hwrap 3 (by decide) (by decide)⟩

/-- Only one instruction makes the start of a loop. -/
theorem opcode_starts (c : Code) {i : Instruction} {op : Opcode}
    (hop : Opcode.ofCode? i.op = some op) :
    Outcome (fun ns => ∀ n ∈ ns, i.Decoded → n.isStart → Starts i n) (fun _ => True)
      (opcode c i op) := by
  have hnone : ∀ {ns : List Node}, (∀ n ∈ ns, n.isStart = false) →
      ∀ n ∈ ns, i.Decoded → n.isStart → Starts i n := fun h n hn _ hstart => by
    rw [h n hn] at hstart
    cases hstart
  cases op
  case forPrep => exact List.forall_mem_singleton.mpr fun hi _ => forPrep_starts hi hop
  case add | sub | mul | div | mod | pow | addBK | subBK | mulBK | divBK | modBK | powBK | eq | lt
      | le | eqBK | ltBK | leBK | setField | setFieldR1 | setTable | setTableS | setTableN
      | setTableBK | setTableSBK | setTableNBK =>
    exact (outcome_any _).bind fun _ _ => (outcome_any _).bind fun _ _ => Outcome.pure <|
      hnone (List.forall_mem_singleton.mpr rfl)
  case loadK | getGlobal | getGlobalMem | setGlobal | getField | getFieldR1 | getFieldMM | getTable
      | getTableS | getTableN =>
    exact (outcome_any _).bind fun _ _ => Outcome.pure (hnone (List.forall_mem_singleton.mpr rfl))
  case self =>
    refine (outcome_any _).bind fun _ _ => Outcome.pure (hnone ?_)
    exact List.forall_mem_cons.mpr ⟨rfl, List.forall_mem_singleton.mpr rfl⟩
  case testSet => exact hnone (List.forall_mem_cons.mpr ⟨rfl, List.forall_mem_singleton.mpr rfl⟩)
  case loadBool =>
    refine hnone (List.forall_mem_cons.mpr ⟨rfl, ?_⟩)
    split_ifs
    · simp
    · exact List.forall_mem_singleton.mpr rfl
  case ret =>
    by_cases hcount : i.argument 1 ≤ 0
    · simp only [opcode, if_pos hcount]
      exact fun _ h => absurd h List.not_mem_nil
    · simp only [opcode, if_neg hcount]
      exact hnone (List.forall_mem_singleton.mpr rfl)
  all_goals first
    | exact hnone (List.forall_mem_singleton.mpr rfl)
    | exact fun _ h => absurd h List.not_mem_nil

/-- Numbering leaves the indices of registers alone. -/
theorem Starts.renumber {i : Instruction} {n : Node} (h : Starts i n) (k : Nat) :
    Starts i (n.renumber k).1 := by
  obtain ⟨hop, x, y, z, v, rfl, hx, hy, hz, hv⟩ := h
  exact ⟨hop, _, _, _, _, rfl, hx, hy, hz, hv⟩

end Lower

/-- Every loop start of a decoded function comes from the instruction for it. -/
theorem Code.lower_starts {c : Code} {d : Declaration} (hc : ∀ i ∈ c.instructions.items, i.Decoded)
    (h : c.lower = .ok d) {n : Node} (hn : n ∈ d.body) (hstart : n.isStart) :
    ∃ i ∈ c.instructions.items, Lower.Starts i n := by
  obtain ⟨i, hi, op, -, hstarts⟩ := Code.lower_forall
    (P := fun i _ n => i.Decoded → n.isStart → Lower.Starts i n)
    (fun i op hop => Lower.opcode_starts c hop)
    (fun i op n k hn hi hstart => (hn hi (by cases n <;> exact hstart)).renumber k) h n hn
  exact ⟨i, hi, hstarts (hc i hi) hstart⟩

theorem Node.Flat.isSimple {n : Node} (h : n.Flat) : n.isSimple := by
  cases h <;> rfl

/-! ## Bounds -/

namespace Node

/-- Whether the statement assigns to one register and to nothing else. -/
def loads (index : Int) : Node → Bool
  | .assign _ [.register r] _ _ => r.index = index
  | _ => false

/-- Whether the node is a numeric loop over R(A+3) whose bounds are loads of R(A), R(A+1) and R(A+2). -/
def carriesBounds (a : Int) : Node → Bool
  | .numericFor _ v init limit step _ =>
    v.index = a + 3 && init.loads a && limit.loads (a + 1) && step.loads (a + 2)
  | _ => false

end Node

namespace Loops

/-- The loop replaces a start that one of the instructions makes, say with register A. The three
statements in front of the start are its bounds, and it carries those of A exactly if these statements
load R(A), R(A+1) and R(A+2). -/
def Replaces (is : List Instruction) (flat : List Node) (n : Node) (e : Ends) : Prop :=
  ∃ i ∈ is, Lower.Starts i e.start ∧ ∃ a x y z body before after,
    n = .numericFor a e.var x y z body ∧ flat = before ++ x :: y :: z :: e.start :: after ∧
      (n.carriesBounds (i.argument 0) ↔ x.loads (i.argument 0) ∧ y.loads (i.argument 0 + 1) ∧
        z.loads (i.argument 0 + 2))

/-- **Numeric loops carry their bounds if these are loaded right in front.** Each numeric loop of a
recovered function, at any depth, replaces a start that is made by an instruction of the function. It
carries the bounds of that instruction exactly if the three statements in front of the start load
them. -/
theorem carriesBounds_iff {c : Code} {d : Declaration} {body : List Node}
    (hc : ∀ i ∈ c.instructions.items, i.Decoded) (hlower : c.lower = .ok d)
    (hrecover : recover d.body = .ok body) :
    ∃ ends, Unrolls body ends d.body ∧
      List.Forall₂ (Replaces c.instructions.items d.body) (Node.numericLoops body) ends := by
  have hsimple : ∀ n ∈ d.body, n.isSimple := fun n hn => (c.lower_flat hlower n hn).isSimple
  rw [← List.append_nil d.body] at hrecover
  obtain ⟨ends, hunrolls⟩ := (Unfinished.start hsimple).run hrecover
  refine ⟨ends, hunrolls, hunrolls.standsFor.imp fun n e hstands => ?_⟩
  obtain ⟨a, init, limit, step, body, before, after, rfl, hbody⟩ := hstands
  have hmem : e.start ∈ d.body := by simp [hbody]
  obtain ⟨i, hi, hstarts⟩ := Code.lower_starts hc hlower hmem rfl
  have hvar : e.var.index = i.argument 0 + 3 := by
    obtain ⟨-, x, y, z, v, hstart, -, -, -, hv⟩ := hstarts
    injection hstart with _ _ _ _ hvar
    rw [hvar, hv]
  refine ⟨i, hi, hstarts, a, init, limit, step, body, before, after, rfl, hbody, ?_⟩
  simp [Node.carriesBounds, hvar, and_assoc]

/-- A property of the recovered statements that can be computed. -/
theorem withLoops_any {c : Code} {P : List Node → Bool}
    (h : c.withLoops.toOption.any fun d => P d.body) :
    ∃ d body, c.lower = .ok d ∧ recover d.body = .ok body ∧ P body := by
  obtain ⟨d', hd, h⟩ := exists_ok_of_any h
  obtain ⟨d, body, hlower, hrecover, rfl⟩ := Code.withLoops_ok hd
  exact ⟨d, body, hlower, hrecover, h⟩

/-- Two loops, one inside the other, with their bounds loaded right in front: both carry them. -/
theorem carriesBounds_iff_nested :
    ∃ (c : Code) (d : Declaration) (body : List Node),
      (∀ i ∈ c.instructions.items, i.Decoded) ∧ c.lower = .ok d ∧ recover d.body = .ok body ∧
      (∃ n ∈ Node.numericLoops body, n.carriesBounds 1) ∧
      (∃ n ∈ Node.numericLoops body, n.carriesBounds 5) ∧
      ∃ ends, Unrolls body ends d.body ∧
        List.Forall₂ (Replaces c.instructions.items d.body) (Node.numericLoops body) ends := by
  obtain ⟨d, body, hlower, hrecover, hrun⟩ := withLoops_any
    (c := .ofWords 1 [Word.ofABC 7 1 0 0, Word.ofABC 7 2 0 0, Word.ofABC 7 3 0 0, Word.ofAsBx 62 1 4,
      Word.ofABC 7 5 4 0, Word.ofABC 7 6 4 0, Word.ofABC 7 7 4 0, Word.ofAsBx 62 5 0,
      Word.ofAsBx 63 5 (-1), Word.ofAsBx 63 1 (-6), Word.ofABC 9 0 1 0])
    (P := fun body => (Node.numericLoops body).any (Node.carriesBounds 1) &&
      (Node.numericLoops body).any (Node.carriesBounds 5)) (by decide +kernel)
  rw [Bool.and_eq_true, List.any_eq_true, List.any_eq_true] at hrun
  exact ⟨_, d, body, Code.ofWords_decoded _ _, hlower, hrecover, hrun.1, hrun.2,
    carriesBounds_iff (Code.ofWords_decoded _ _) hlower hrecover⟩

/-- A loop up to a length, which is computed by two statements. -/
def lengthLoop : Code :=
  .ofWords 1 [Word.ofABC 7 1 0 0, Word.ofABC 38 2 0 0, Word.ofABC 55 2 2 0, Word.ofABC 7 3 0 0,
    Word.ofAsBx 62 1 0, Word.ofAsBx 63 1 (-1), Word.ofABC 9 0 1 0]

/-- The load of the first value of the loop up to a length stays outside, so the loop does not carry
the bounds of its start. -/
theorem carriesBounds_lengthLoop :
    (∀ i ∈ lengthLoop.instructions.items, i.Decoded) ∧
      ∃ d body, lengthLoop.lower = .ok d ∧ recover d.body = .ok body ∧
        ∃ n ∈ Node.numericLoops body, ∀ i ∈ lengthLoop.instructions.items,
          n.carriesBounds (i.argument 0) = false := by
  obtain ⟨d, body, hlower, hrecover, hrun⟩ := withLoops_any (c := lengthLoop)
    (P := fun body => (Node.numericLoops body).any fun n =>
      lengthLoop.instructions.items.all fun i => !n.carriesBounds (i.argument 0)) (by decide +kernel)
  refine ⟨Code.ofWords_decoded _ _, d, body, hlower, hrecover, ?_⟩
  simpa only [List.any_eq_true, List.all_eq_true, Bool.not_eq_true'] using hrun

end Loops

end HavokScript
