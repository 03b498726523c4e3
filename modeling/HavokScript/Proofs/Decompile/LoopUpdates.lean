import HavokScript.Proofs.Decompile.Inlining
import HavokScript.Proofs.Decompile.Unrolling
import Mathlib.Data.List.Forall2

/-!
# What inlining leaves of loops

Use counts are taken in the order of the statements, so they do not see that the end of a loop leads
to its start. An assignment at the end of a loop is folded by its count alone, and then the loop no
longer has it, even if the next round reads the register. What is left of a loop are the statements
that do not fold, in their order (`Node.Leaves`), and `Node.loops_inlined` says of every loop of a
recovered function what becomes of the last assignment to a register. No loop stands in the place of a
bound of another one, where inlining would leave it alone: bounds are flat.
-/

namespace HavokScript

namespace Node

/-- What inlining leaves of a list of statements: those that do not fold. -/
inductive Leaves : List Node → List Node → Prop
  | nil : Leaves [] []
  | folded {n : Node} {ns ns' : List Node} (h : n.folds) (rest : Leaves ns ns') :
      Leaves (n :: ns) ns'
  | kept {n n' : Node} {ns ns' : List Node} (h : n.folds = false) (becomes : n.Becomes n')
      (rest : Leaves ns ns') : Leaves (n :: ns) (n' :: ns')

/-- A statement of a list is left out if it folds, and otherwise has its place. -/
theorem Leaves.split {before after ns' : List Node} {n : Node}
    (h : Leaves (before ++ n :: after) ns') :
    ∃ before' after', Leaves before before' ∧ Leaves after after' ∧
      (n.folds ∧ ns' = before' ++ after' ∨
        n.folds = false ∧ ∃ n', n.Becomes n' ∧ ns' = before' ++ n' :: after') := by
  induction before generalizing ns' with
  | nil =>
    cases h with
    | folded hfolds rest => exact ⟨[], ns', .nil, rest, .inl ⟨hfolds, rfl⟩⟩
    | kept hfolds becomes rest => exact ⟨[], _, .nil, rest, .inr ⟨hfolds, _, becomes, rfl⟩⟩
  | cons m before ih =>
    cases h with
    | folded hfolds rest =>
      obtain ⟨before', after', hbefore, hafter, hn⟩ := ih rest
      exact ⟨before', after', .folded hfolds hbefore, hafter, hn⟩
    | @kept _ m' _ _ hfolds becomes rest =>
      obtain ⟨before', after', hbefore, hafter, hn⟩ := ih rest
      refine ⟨m' :: before', after', .kept hfolds becomes hbefore, hafter, ?_⟩
      rcases hn with ⟨hn, rfl⟩ | ⟨hn, n', hbecomes, rfl⟩
      · exact .inl ⟨hn, rfl⟩
      · exact .inr ⟨hn, n', hbecomes, rfl⟩

/-- What holds of all statements, whatever is inlined into them, holds of those that are left. -/
theorem Leaves.forall_mem {P : Node → Prop} {ns ns' : List Node} (h : Leaves ns ns')
    (hP : ∀ n n', n.Becomes n' → P n → P n') (hns : ∀ n ∈ ns, P n) : ∀ n ∈ ns', P n := by
  induction h with
  | nil => exact hns
  | folded _ _ ih => exact ih (List.forall_mem_cons.mp hns).2
  | kept _ becomes _ ih =>
    rw [List.forall_mem_cons] at hns ⊢
    exact ⟨hP _ _ becomes hns.1, ih hns.2⟩

theorem endsBack_of_forward {ns : List Node} (h : ∀ n ∈ ns, n.jumpsBack = false) :
    endsBack ns = false := by
  unfold endsBack
  cases hlast : ns.getLast? with
  | none => rfl
  | some n => exact h n (List.mem_of_getLast? hlast)

theorem endsBack_append (ns : List Node) (n : Node) : endsBack (ns ++ [n]) = n.jumpsBack := by
  simp [endsBack]

theorem jumpsBack_of_forward {n : Node} (h : Loops.isBackward n = false) : n.jumpsBack = false := by
  cases n with
  | jump a offset => exact h
  | _ => rfl

theorem loops_of_folds {n : Node} (h : n.folds) : n.loops = [] := by
  cases n with
  | assign a ts vs kept => rfl
  | _ => cases h

theorem loops_of_flat {n : Node} (h : n.Flat) : n.loops = [] := by
  cases h <;> rfl

/-- A numeric loop comes before those in its body. -/
theorem loops_numericFor {a b : Int} {v : Register} {init limit step : Node} {body : List Node}
    (hinit : init.loops = []) (hlimit : limit.loops = []) (hstep : step.loops = []) :
    (numericFor a v init limit step (.block b body)).loops = body :: (block b body).loops := by
  change init.loops ++ limit.loops ++ step.loops ++ body :: (block b body).loops = _
  rw [hinit, hlimit, hstep, List.append_nil, List.append_nil, List.nil_append]

/-! ## Inlining into a recovered tree -/

/-- What inlining makes of a statement, from every quiet scope. -/
def Reduces (n : Node) : Prop :=
  ∀ ⦃bound : Nat⦄ ⦃s s' : Scope⦄ ⦃n' : Node⦄ ⦃delete : Bool⦄, s.Quiet →
    n.inline bound s = .ok ((n', delete), s') →
    s'.Quiet ∧ delete = n.folds ∧ n.Becomes n' ∧ List.Forall₂ Leaves n.loops n'.loops

theorem Reduces.inlineAll {bound : Nat} {ns ns' : List Node} {s s' : Scope}
    (hns : ∀ n ∈ ns, n.Reduces) (hs : s.Quiet) (h : Node.inlineAll bound ns s = .ok (ns', s')) :
    s'.Quiet ∧ Leaves ns ns' ∧ List.Forall₂ Leaves (loopsAll ns) (loopsAll ns') := by
  induction ns generalizing ns' s with
  | nil =>
    obtain ⟨rfl, rfl⟩ := ok_of_pure h
    exact ⟨hs, .nil, .nil⟩
  | cons n ns ih =>
    rw [List.forall_mem_cons] at hns
    obtain ⟨⟨n', delete⟩, t, hn, h⟩ := ok_of_bind h
    obtain ⟨rest, u, hrest, h⟩ := ok_of_bind h
    obtain ⟨rfl, rfl⟩ := ok_of_pure h
    obtain ⟨hquiet, rfl, hbecomes, hloops⟩ := hns.1 hs hn
    obtain ⟨hquiet, hleaves, hrestLoops⟩ := ih hns.2 hquiet hrest
    cases hfolds : n.folds with
    | true =>
      refine ⟨hquiet, .folded hfolds hleaves, ?_⟩
      rw [loopsAll, loops_of_folds hfolds]
      exact hrestLoops
    | false =>
      refine ⟨hquiet, .kept hfolds hbecomes hleaves, ?_⟩
      rw [loopsAll, if_neg (by simp), loopsAll]
      exact List.rel_append hloops hrestLoops

theorem keepIterators_quiet {ns : List Node} {s s' : Scope} {u : Unit} (hs : s.Quiet)
    (h : Scope.keepIterators ns s = .ok (u, s')) : s'.Quiet := by
  induction ns generalizing s with
  | nil =>
    obtain ⟨-, rfl⟩ := ok_of_pure h
    exact hs
  | cons n ns ih =>
    cases n with
    | tForLoop a vars =>
      obtain ⟨_, t, ht, h⟩ := ok_of_bind h
      exact ih (hs.keepAll ht) h
    | _ => exact ih hs h

/-- A block keeps its address; its list is inlined into. -/
theorem inline_block {bound : Nat} {a : Int} {ns : List Node} {n' : Node} {delete : Bool}
    {s s' : Scope} (hns : ∀ n ∈ ns, n.Reduces) (hs : s.Quiet)
    (h : (Node.block a ns).inline bound s = .ok ((n', delete), s')) :
    s'.Quiet ∧ delete = false ∧ ∃ ns', n' = .block a ns' ∧ Leaves ns ns' ∧
      List.Forall₂ Leaves (loopsAll ns) (loopsAll ns') := by
  obtain ⟨_, t, hkeep, hlist⟩ := ok_of_bind h
  obtain ⟨ns', u, hns', hblock⟩ := ok_of_bind hlist
  obtain ⟨hn, rfl⟩ := ok_of_pure hblock
  cases hn
  obtain ⟨hquiet, hleaves, hloops⟩ := Reduces.inlineAll hns (keepIterators_quiet hs hkeep) hns'
  exact ⟨hquiet, rfl, ns', rfl, hleaves, hloops⟩

/-- No loop comes into the place of a bound. -/
theorem Flat.bound {depth : Nat} {n n' : Node} {s s' : Scope} (hflat : n.Flat) (hs : s.Quiet)
    (h : Scope.bound depth n s = .ok (n', s')) : s'.Quiet ∧ n'.loops = [] := by
  cases n with
  | assign a ts vs kept =>
    obtain ⟨⟨m, value⟩, t, hassign, h⟩ := ok_of_bind h
    obtain ⟨vs', ts', -, -, hquiet, hassigns⟩ := hflat.assigns hs hassign
    cases hassigns with
    | @folded r v v' x kept _ _ _ _ _ =>
      obtain ⟨rfl, rfl⟩ := ok_of_pure h
      refine ⟨hquiet, ?_⟩
      cases x <;> rfl
    | kept _ _ =>
      obtain ⟨rfl, rfl⟩ := ok_of_pure h
      exact ⟨hquiet, rfl⟩
  | expr e => cases hflat
  | _ =>
    obtain ⟨rfl, rfl⟩ := ok_of_pure h
    exact ⟨hs, loops_of_flat hflat⟩

/-- A block in which nothing branches back is no loop itself. -/
theorem loops_of_leaves (a : Int) {ns ns' : List Node}
    (hforward : ∀ n ∈ ns, Loops.isBackward n = false) (hleaves : Leaves ns ns')
    (hloops : List.Forall₂ Leaves (loopsAll ns) (loopsAll ns')) :
    List.Forall₂ Leaves (Node.block a ns).loops (Node.block a ns').loops := by
  have hns : ∀ n ∈ ns, n.jumpsBack = false := fun n hn => jumpsBack_of_forward (hforward n hn)
  have hends := endsBack_of_forward hns
  have hns' : ∀ n ∈ ns', n.jumpsBack = false :=
    hleaves.forall_mem (fun n n' hbecomes hn => hbecomes.jumpsBack.trans hn) hns
  have hends' := endsBack_of_forward hns'
  rw [loops, loops, hends, hends']
  exact hloops

theorem Recovered.reduces {n : Node} (hn : n.Recovered) : n.Reduces := by
  induction hn with
  | flat hflat =>
    intro bound s s' n' delete hs h
    obtain ⟨hquiet, hdelete, hbecomes, hloops⟩ := hflat.inline hs h
    refine ⟨hquiet, hdelete, hbecomes, ?_⟩
    rw [hloops, loops_of_flat hflat]
    exact .nil
  | @region a b offset inner hinner hforward hback ih =>
    intro bound s s' n' delete hs h
    have hall : ∀ n ∈ inner ++ [.jump b offset], n.Reduces := by
      rw [List.forall_mem_append, List.forall_mem_singleton]
      refine ⟨ih, ?_⟩
      intro bound s s' n' delete hs h
      obtain ⟨hn, rfl⟩ := ok_of_pure h
      cases hn
      exact ⟨hs, rfl, ⟨rfl, rfl, rfl⟩, .nil⟩
    obtain ⟨hquiet, rfl, ns', rfl, hleaves, hloops⟩ := inline_block hall hs h
    refine ⟨hquiet, rfl, ⟨rfl, rfl, rfl⟩, ?_⟩
    have hends : endsBack (inner ++ [.jump b offset]) := by
      simpa [endsBack_append, jumpsBack] using hback
    -- The jump that closes the region does not fold, so it is still the last statement.
    have hends' : endsBack ns' := by
      obtain ⟨before', after', -, hafter, ⟨hfolds, -⟩ | ⟨-, n', hbecomes, rfl⟩⟩ := hleaves.split
      · cases hfolds
      · cases hafter
        rw [endsBack_append, hbecomes.jumpsBack]
        simpa [jumpsBack] using hback
    rw [loops, loops, if_pos hends, if_pos hends']
    exact .cons hleaves hloops
  | @numeric a b v init limit step body hinit hlimit hstep hbody hforward ih =>
    intro bound s s' n' delete hs h
    obtain ⟨init', t, hinit', h⟩ := ok_of_bind h
    obtain ⟨limit', u, hlimit', h⟩ := ok_of_bind h
    obtain ⟨step', w, hstep', h⟩ := ok_of_bind h
    obtain ⟨_, x, hkeep, h⟩ := ok_of_bind h
    obtain ⟨⟨block', delete'⟩, y, hblock, h⟩ := ok_of_bind h
    obtain ⟨hn, rfl⟩ := ok_of_pure h
    cases hn
    obtain ⟨hquiet, hinitLoops⟩ := hinit.bound hs hinit'
    obtain ⟨hquiet, hlimitLoops⟩ := hlimit.bound hquiet hlimit'
    obtain ⟨hquiet, hstepLoops⟩ := hstep.bound hquiet hstep'
    obtain ⟨hquiet, rfl, ns', rfl, hleaves, hloops⟩ := inline_block ih (hquiet.keep hkeep) hblock
    refine ⟨hquiet, rfl, ⟨rfl, rfl, rfl⟩, ?_⟩
    have hblockLoops := loops_of_leaves b hforward hleaves hloops
    rw [loops_numericFor (loops_of_flat hinit) (loops_of_flat hlimit) (loops_of_flat hstep),
      loops_numericFor hinitLoops hlimitLoops hstepLoops]
    exact .cons hleaves hblockLoops

theorem addReadsAll_append (reads : List Nat) (ms ns : List Node) :
    addReadsAll reads (ms ++ ns) = addReadsAll reads ms ++ addReadsAll reads ns := by
  induction ms with
  | nil => rfl
  | cons m ms ih => rw [List.cons_append, addReadsAll, ih, addReadsAll, List.cons_append]

theorem isBackward_addReads (reads : List Nat) (n : Node) :
    Loops.isBackward (n.addReads reads) = Loops.isBackward n := by
  cases n <;> rfl

theorem forward_addReads {reads : List Nat} {ns : List Node}
    (h : ∀ n ∈ ns, Loops.isBackward n = false) :
    ∀ n ∈ addReadsAll reads ns, Loops.isBackward n = false := by
  refine forall_addReadsAll fun n hn => ?_
  rw [isBackward_addReads]
  exact h n hn

theorem Recovered.addReads {n : Node} (h : n.Recovered) (reads : List Nat) :
    (n.addReads reads).Recovered := by
  induction h with
  | flat h => exact .flat (flat_addReads h reads)
  | @region a b offset inner _ hforward hback ih =>
    rw [Node.addReads, addReadsAll_append]
    exact .region (forall_addReadsAll ih) (forward_addReads hforward) hback
  | numeric hinit hlimit hstep _ hforward ih =>
    exact .numeric (flat_addReads hinit reads) (flat_addReads hlimit reads) (flat_addReads hstep reads)
      (forall_addReadsAll ih) (forward_addReads hforward)

/-! ## The last assignment of a loop -/

/-- Whether the statement is an assignment to the register, or to it and others. -/
def assigns (q : Int) (n : Node) : Bool := n.assigned?.any fun rs => rs.any fun r => r.index = q

theorem Becomes.assigns {n n' : Node} (h : n.Becomes n') (q : Int) :
    n'.assigns q = n.assigns q := by
  rw [Node.assigns, h.assigned, Node.assigns]

/-- An assignment to the register alone, of a value other than a lone call, with a use count of at most
one. -/
def Foldable (q : Int) (n : Node) : Prop :=
  ∃ a r v rest kept, n = .assign a [.register r] (v :: rest) kept ∧ r.index = q ∧ r.uses ≤ 1 ∧
    (rest = [] → v.isCall = false)

/-- The assignments that fold. -/
theorem foldable_iff {n : Node} {q : Int} (hassigns : n.assigns q) : n.Foldable q ↔ n.folds := by
  constructor
  · rintro ⟨a, r, v, rest, kept, rfl, -, huses, hcall⟩
    have hcall' : ¬ (rest.isEmpty ∧ v.isCall) := by
      rintro ⟨hrest, hv⟩
      rw [hcall (List.isEmpty_iff.mp hrest)] at hv
      cases hv
    rw [folds, Scope.folded?, if_neg hcall', Scope.foldable?, if_pos huses]
    rfl
  · intro hfolds
    cases n with
    | assign a ts vs kept =>
      obtain ⟨⟨r, v⟩, hr⟩ := Option.isSome_iff_exists.mp hfolds
      obtain ⟨rfl, huses, rest, rfl, hcall⟩ := folded?_some hr
      refine ⟨a, r, v, rest, kept, rfl, ?_, huses, hcall⟩
      simpa [Node.assigns, assigned?, Expr.registers, Expr.register?] using hassigns
    | _ => cases hfolds

/-- What is left of the last assignment to each register in a loop. If it is foldable, it is gone, and
else it is still there and still the last one. Around it the loop has what is left of the statements in
front and behind. -/
def LeavesLast (loop loop' : List Node) : Prop :=
  ∀ before n after q, loop = before ++ n :: after → n.assigns q →
    (∀ m ∈ after, m.assigns q = false) →
    ∃ before' after', Leaves before before' ∧ Leaves after after' ∧
      (∀ m ∈ after', m.assigns q = false) ∧
      (n.Foldable q ∧ loop' = before' ++ after' ∨
        ¬ n.Foldable q ∧ ∃ n', n.Becomes n' ∧ n'.assigns q ∧ loop' = before' ++ n' :: after')

theorem Leaves.leavesLast {loop loop' : List Node} (h : Leaves loop loop') :
    LeavesLast loop loop' := by
  rintro before n after q rfl hassigns hlast
  obtain ⟨before', after', hbefore, hafter, hn⟩ := h.split
  have hlast' : ∀ m ∈ after', m.assigns q = false :=
    hafter.forall_mem (fun m m' hm h => (hm.assigns q).trans h) hlast
  refine ⟨before', after', hbefore, hafter, hlast', ?_⟩
  rw [foldable_iff hassigns]
  rcases hn with ⟨hfolds, rfl⟩ | ⟨hfolds, n', hbecomes, rfl⟩
  · exact .inl ⟨hfolds, rfl⟩
  · exact .inr ⟨by simp [hfolds], n', hbecomes, (hbecomes.assigns q).trans hassigns, rfl⟩

/-- **Inlining drops the last assignment of a loop by its count alone.** Every loop of a recovered
function has a loop left of it after inlining. In it the last assignment to a register is missing exactly
if it was foldable, whatever the next round reads. -/
theorem loops_inlined {c : Code} {d : Declaration} {body : List Node} {counted tree : Node}
    (hlower : c.lower = .ok d) (hrecover : Loops.recover d.body = .ok body)
    (hcount : ({ d with body } : Declaration).toNode.countUses = .ok counted)
    (hinline : counted.inlined = .ok tree) :
    List.Forall₂ LeavesLast counted.loops tree.loops := by
  obtain ⟨reads, params, rfl⟩ := countUses_function hcount
  obtain ⟨bound, body', delete, s, t, hs, hbody, rfl⟩ := inlined_function hinline
  obtain ⟨hrecovered, hforward⟩ := Loops.recover_recovered (Code.lower_flat hlower) hrecover
  have hreduces : ∀ n ∈ addReadsAll reads body, n.Reduces :=
    forall_addReadsAll fun n hn => ((hrecovered n hn).addReads reads).reduces
  have hquiet := (Scope.Quiet.start bound).keepAll hs
  obtain ⟨hquiet, rfl, ns', rfl, hleaves, hloops⟩ := inline_block hreduces hquiet hbody
  rw [hquiet.settle, mapScope_id]
  have hall := loops_of_leaves d.address (forward_addReads hforward) hleaves hloops
  exact List.Forall₂.imp (fun _ _ h => h.leavesLast) hall

end Node

/-- A function with its loops recovered. -/
def Code.withLoops (c : Code) : Except DecompileError Declaration := do
  let d ← c.lower
  let body ← Loops.recover d.body
  return { d with body }

theorem Code.withLoops_ok {c : Code} {d' : Declaration} (h : c.withLoops = .ok d') :
    ∃ d body, c.lower = .ok d ∧ Loops.recover d.body = .ok body ∧ { d with body } = d' := by
  cases hlower : c.lower with
  | error e => simp [Code.withLoops, bind, Except.bind, hlower] at h
  | ok d =>
    cases hrecover : Loops.recover d.body with
    | error e => simp [Code.withLoops, bind, Except.bind, hlower, hrecover] at h
    | ok body =>
      simp only [Code.withLoops, bind, Except.bind, hlower, hrecover] at h
      cases h
      exact ⟨d, body, rfl, hrecover, rfl⟩

namespace Node

/-- In a loop that tests a register again after it doubles it, the assignment is kept. -/
theorem loops_inlined_doubling :
    ∃ d body counted tree, (Code.ofWords 1 [Word.ofABC 1 0 0 0, Word.ofABC 40 0 0 0,
        Word.ofABC 1 0 0 0, Word.ofABC 1 0 0 0, Word.ofAsBx 28 0 (-5), Word.ofABC 9 0 1 0]).lower =
          .ok d ∧
      Loops.recover d.body = .ok body ∧
      ({ d with body } : Declaration).toNode.countUses = .ok counted ∧
      counted.inlined = .ok tree ∧ List.Forall₂ LeavesLast counted.loops tree.loops ∧
      ∃ loop' ∈ tree.loops, ∃ n ∈ loop', n.assigns 0 := by
  obtain ⟨d', counted, tree, hd', hcount, hinline, hrun⟩ := bothPasses_any
    (x := (Code.ofWords 1 [Word.ofABC 1 0 0 0, Word.ofABC 40 0 0 0, Word.ofABC 1 0 0 0,
      Word.ofABC 1 0 0 0, Word.ofAsBx 28 0 (-5), Word.ofABC 9 0 1 0]).withLoops)
    (P := fun _ _ tree => tree.loops.any fun loop' => loop'.any (assigns 0)) (by decide +kernel)
  obtain ⟨d, body, hlower, hrecover, rfl⟩ := Code.withLoops_ok hd'
  refine ⟨d, body, counted, tree, hlower, hrecover, hcount, hinline,
    loops_inlined hlower hrecover hcount hinline, ?_⟩
  simpa only [List.any_eq_true] using hrun

/-- Whether the statement tests the register. -/
def tests (q : Int) : Node → Bool
  | .test _ e => e.register?.any fun r => r.index = q
  | _ => false

/-- In a loop that tests a register and then doubles it, the assignment is gone, though the next round
reads the register first. -/
theorem loops_inlined_dropped :
    ∃ (c : Code) (d : Declaration) (body : List Node) (counted tree : Node),
      (∀ i ∈ c.instructions.items, i.Decoded) ∧ c.lower = .ok d ∧
      Loops.recover d.body = .ok body ∧
      ({ d with body } : Declaration).toNode.countUses = .ok counted ∧
      counted.inlined = .ok tree ∧
      (∃ loop ∈ counted.loops, loop.head?.any (tests 0) ∧ ∃ n ∈ loop, n.assigns 0) ∧
      ∀ loop' ∈ tree.loops, ∀ n ∈ loop', n.assigns 0 = false := by
  obtain ⟨d', counted, tree, hd', hcount, hinline, hrun⟩ := bothPasses_any
    (x := (Code.ofWords 1 [Word.ofABC 1 0 0 0, Word.ofABC 40 0 0 0, Word.ofAsBx 28 0 (-3),
      Word.ofABC 9 0 1 0]).withLoops)
    (P := fun _ counted tree =>
      (counted.loops.any fun loop => loop.head?.any (tests 0) && loop.any (assigns 0)) &&
        tree.loops.all fun loop' => loop'.all fun n => !n.assigns 0)
    (by decide +kernel)
  obtain ⟨d, body, hlower, hrecover, rfl⟩ := Code.withLoops_ok hd'
  refine ⟨_, d, body, counted, tree, Code.ofWords_decoded _ _, hlower, hrecover, hcount, hinline, ?_⟩
  simpa only [Bool.and_eq_true, List.any_eq_true, List.all_eq_true, Bool.not_eq_true'] using hrun

end Node

end HavokScript
