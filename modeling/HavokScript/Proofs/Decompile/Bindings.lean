import HavokScript.Proofs.Decompile.Accesses
import HavokScript.Proofs.Decompile.Closures
import HavokScript.Proofs.Decompile.Failures
import HavokScript.Proofs.Decompile.LoopBounds
import HavokScript.Proofs.Decompile.Statements

/-!
# Which registers are bound

Counting uses and inlining both walk over a function and fail on a read of a register that nothing has
written. They are two walks, and inlining changes the statements on the way. `Code.inlined_error_iff`
says that they agree: on a lowered function, and also when its loops were recovered and their bounds are
assignments, one fails exactly if the other does, with the same failure, whatever use counts the
registers have by then.

Counting performs the accesses of a function. Inlining follows them (`Follows`): what it puts in the
place of a register does not matter, only that there is something for the same registers. The one
difference in order is in an assignment, where inlining reads what the targets consist of before it
writes any of them; it makes none if an assignment only writes registers or has one target.
-/

namespace HavokScript

/-- Something stands for the same registers. -/
def SameBound (t : Tally) (s : Scope) : Prop := ∀ index, (t.live index).isSome = (s.live index).isSome

namespace SameBound

theorem start (bound : Nat) : SameBound Tally.empty (Scope.start bound) := fun _ => rfl

theorem set {t : Tally} {s : Scope} (h : SameBound t s) (index : Int) (id : Nat) (e : Expr) :
    SameBound { t with live := t.live.set index id } { s with live := s.live.set index e } := by
  intro i
  change (if i = index then some id else t.live i).isSome = (if i = index then some e else s.live i).isSome
  split_ifs
  · rfl
  · exact h i

end SameBound

/-- The step does what the accesses do to bound registers: both end with the same registers bound, or
both fail with the same failure. -/
def Follows {α : Type} (as : List Access) (m : Inlining α) : Prop :=
  ∀ t s, SameBound t s →
    Agree (fun x y => SameBound x.2 y.2) (· = ·) (Tally.performAll as t) (m s)

namespace Follows

variable {α β : Type} {as bs : List Access} {m : Inlining α}

theorem pure (a : α) : Follows [] (Pure.pure a : Inlining α) := fun _ _ h => .ok h

/-- One step after the other. The second one may use what values the first one can give. -/
theorem bind {f : α → Inlining β} (hm : Follows as m)
    (hf : ∀ a s s', m s = .ok (a, s') → Follows bs (f a)) : Follows (as ++ bs) (m >>= f) := by
  intro t s h
  rw [Tally.performAll_append]
  refine ((hm t s h).and_right (Q := fun y => m s = .ok y) fun _ hy => hy).bind ?_
  rintro ⟨⟨⟩, t'⟩ ⟨a, s'⟩ ⟨hsame, ha⟩
  exact hf a s s' ha t' s' hsame

/-- A step of which only the value is changed. -/
theorem last {g : α → β} (hm : Follows as m) : Follows as (do return g (← m)) := by
  rw [← List.append_nil as]
  exact hm.bind fun a _ _ _ => .pure (g a)

theorem read (r : Register) : Follows [.read r] (Scope.read r) := by
  intro t s h
  rw [Tally.performAll_singleton, Tally.perform]
  unfold Tally.read Scope.read
  have hbound := h r.index
  cases hlive : t.live r.index with
  | none =>
    rw [hlive] at hbound
    have hnone : s.live r.index = none := by simpa using hbound.symm
    rw [hnone]
    exact .error rfl
  | some id =>
    rw [hlive] at hbound
    obtain ⟨e, he⟩ := Option.isSome_iff_exists.mp hbound.symm
    rw [he]
    exact .ok h

theorem set (r : Register) (e : Expr) : Follows [.write r] (Scope.set r.index e) := by
  intro t s h
  rw [Tally.performAll_singleton]
  exact .ok (h.set r.index r.id e)

theorem keepAll (rs : List Register) : Follows (rs.map .write) (Scope.keepAll rs) := by
  induction rs with
  | nil => exact .pure ()
  | cons r rs ih => exact (set r _).bind fun _ _ _ _ => ih

theorem keepTargets (ts : List Expr) :
    Follows ((Expr.registers ts).map .write) (Scope.keepTargets ts) := by
  induction ts with
  | nil => exact .pure ()
  | cons t ts ih =>
    cases t with
    | register r => exact (set r _).bind fun _ _ _ _ => ih
    | _ => exact ih

theorem keepIterators (ns : List Node) :
    Follows ((Node.iterators ns).map .write) (Scope.keepIterators ns) := by
  induction ns with
  | nil => exact .pure ()
  | cons n ns ih =>
    cases n with
    | tForLoop a vars =>
      change Follows ((vars ++ Node.iterators ns).map .write) _
      rw [List.map_append]
      exact (keepAll vars).bind fun _ _ _ _ => ih
    | _ => exact ih

theorem share (e : Expr) : Follows [] (Scope.share e) := by
  intro t s h
  cases e <;> exact .ok h

end Follows

/-! ## Expressions -/

mutual

theorem Expr.swapWith_follows (visit : Nat → Expr → Inlining Expr) {e : Expr}
    (he : e.sharedBound = 0) : Follows (e.inputs.map .read) (e.swapWith visit) := by
  cases e with
  | register r => exact .read r
  | call a f args =>
    rw [Expr.sharedBound, Nat.max_eq_zero_iff] at he
    rw [Expr.inputs_call, List.map_append]
    exact (f.swapWith_follows visit he.1).bind fun _ _ _ _ =>
      (Expr.swapAllWith_follows visit he.2).last
  | binary a op l r =>
    rw [Expr.sharedBound, Nat.max_eq_zero_iff] at he
    rw [Expr.inputs_binary, List.map_append]
    exact (l.swapWith_follows visit he.1).bind fun _ _ _ _ => (r.swapWith_follows visit he.2).last
  | unary a op e =>
    rw [Expr.inputs_unary]
    exact (e.swapWith_follows visit he).last
  | table a ks vs =>
    rw [Expr.sharedBound, Nat.max_eq_zero_iff] at he
    rw [Expr.inputs_table, List.map_append]
    exact (Expr.swapAllWith_follows visit he.1).bind fun _ _ _ _ =>
      (Expr.swapAllWith_follows visit he.2).last
  | index a t k =>
    rw [Expr.sharedBound, Nat.max_eq_zero_iff] at he
    rw [Expr.inputs_index, List.map_append]
    exact (t.swapWith_follows visit he.1).bind fun _ _ _ _ => (k.swapWith_follows visit he.2).last
  | shared n e =>
    rw [Expr.sharedBound] at he
    omega
  | _ => exact .pure _

theorem Expr.swapAllWith_follows (visit : Nat → Expr → Inlining Expr) {es : List Expr}
    (hes : Expr.sharedBoundAll es = 0) :
    Follows ((Expr.inputsAll es).map .read) (Expr.swapAllWith visit es) := by
  cases es with
  | nil => exact .pure []
  | cons e es =>
    rw [Expr.sharedBoundAll, Nat.max_eq_zero_iff] at hes
    rw [Expr.inputsAll_cons, List.map_append]
    exact (e.swapWith_follows visit hes.1).bind fun _ _ _ _ =>
      (Expr.swapAllWith_follows visit hes.2).last

end

/-! ## Assignments -/

/-- What is read in targets that are no registers. -/
def Expr.heldInputs (ts : List Expr) : List Register :=
  Expr.inputsAll (ts.filter fun t => t.register?.isNone)

theorem Expr.swapTargets_follows (depth : Nat) {ts : List Expr} (hts : Expr.sharedBoundAll ts = 0) :
    Follows ((Expr.heldInputs ts).map .read) (Expr.swapTargets depth ts) := by
  induction ts with
  | nil => exact .pure []
  | cons t ts ih =>
    rw [Expr.sharedBoundAll, Nat.max_eq_zero_iff] at hts
    cases hr : t.register? with
    | some r =>
      cases t with
      | register r => exact (ih hts.2).last
      | _ => cases hr
    | none =>
      rw [swapTargets_cons depth hr, Expr.heldInputs, List.filter_cons_of_pos (by simp [hr]),
        Expr.inputsAll_cons, List.map_append]
      exact (t.swapWith_follows _ hts.1).bind fun _ _ _ _ => (ih hts.2).last

/-- Targets that are all registers, or only one, may be read before any is written. -/
theorem Expr.targetAccesses_apart {ts : List Expr}
    (h : ts.length = 1 ∨ ∀ t ∈ ts, t.register?.isSome) :
    ts.flatMap Expr.targetAccesses =
      (Expr.heldInputs ts).map .read ++ (Expr.registers ts).map .write := by
  rcases h with h | h
  · obtain ⟨t, rfl⟩ := List.length_eq_one_iff.mp h
    cases t with
    | register r => rfl
    | _ => simp [Expr.targetAccesses, Expr.heldInputs, Expr.registers, Expr.register?]
  · have hnone : Expr.heldInputs ts = [] := by
      rw [Expr.heldInputs, List.filter_eq_nil_iff.mpr, Expr.inputsAll_nil]
      exact fun t ht => by simp [Option.isSome_iff_ne_none.mp (h t ht)]
    rw [hnone, List.map_nil, List.nil_append]
    clear hnone
    induction ts with
    | nil => rfl
    | cons t ts ih =>
      rw [List.forall_mem_cons] at h
      cases t with
      | register r => exact congrArg _ (ih h.2)
      | _ => cases h.1

namespace Node

theorem assign_follows {depth : Nat} {a : Int} {ts vs : List Expr} {kept : Bool}
    (hts : Expr.plainAll ts) (hvs : Expr.sharedBoundAll vs = 0)
    (hapart : ts.length = 1 ∨ ∀ t ∈ ts, t.register?.isSome) :
    Follows (assign a ts vs kept).accesses (Scope.assign depth a ts vs kept) := by
  rw [accesses, Expr.targetAccesses_apart hapart]
  refine (Expr.swapAllWith_follows _ hvs).bind fun vs' _ _ _ => ?_
  refine (Expr.swapTargets_follows depth (Expr.sharedBoundAll_of_plain hts)).bind
    fun ts' s s' hts' => ?_
  -- Every way to go on binds the registers among the targets.
  rw [← registers_of_map (swapTargets_plain hts hts').2]
  cases vs' with
  | nil => exact (Follows.keepTargets ts').last
  | cons v rest =>
    dsimp only
    split_ifs with hcall
    · exact (Follows.keepTargets ts').last
    · cases hfoldable : Scope.foldable? ts' with
      | some r =>
        obtain ⟨rfl, -⟩ := foldable?_some hfoldable
        exact (Follows.share v).bind fun x _ _ _ => (Follows.set r x).last
      | none => exact (Follows.keepTargets ts').last

theorem isApart_assign {a : Int} {ts vs : List Expr} {kept : Bool}
    (h : (assign a ts vs kept).isApart) : ts.length = 1 ∨ ∀ t ∈ ts, t.register?.isSome := by
  simpa [isApart] using h

/-- Inlining follows the accesses of an assignment, and whether it stands in a list or as a bound. -/
theorem Flat.assign_follows {a : Int} {ts vs : List Expr} {kept : Bool} (depth : Nat)
    (h : (Node.assign a ts vs kept).Flat) (hapart : (Node.assign a ts vs kept).isApart) :
    Follows (Node.assign a ts vs kept).accesses (Scope.assign depth a ts vs kept) := by
  have hbound := h.sharedBound
  rw [Node.sharedBound, Nat.max_eq_zero_iff] at hbound
  exact Node.assign_follows h.targets hbound.2 (isApart_assign hapart)

theorem Flat.inline_follows {n : Node} (h : n.Flat) (hapart : n.isApart) :
    Follows n.accesses (n.inline 0) := by
  have hbound := h.sharedBound
  cases n with
  | assign a ts vs kept => exact (h.assign_follows 0 hapart).last
  | returns a vs => exact (Expr.swapAllWith_follows _ hbound).last
  | jump a offset => exact .pure _
  | test a c => exact (Expr.swapWith_follows _ hbound).last
  | forPrep a x y z v =>
    simp only [Node.sharedBound, Nat.max_eq_zero_iff] at hbound
    rw [accesses, List.map_append, List.map_append, List.append_assoc, List.append_assoc]
    exact (Expr.swapWith_follows _ hbound.1.1).bind fun _ _ _ _ =>
      (Expr.swapWith_follows _ hbound.1.2).bind fun _ _ _ _ =>
        (Expr.swapWith_follows _ hbound.2).bind fun _ _ _ _ => (Follows.set v _).last
  | forLoop a c offset => exact (Expr.swapWith_follows _ hbound).last
  | tForLoop a vars => exact (Follows.keepAll vars).last
  | _ => cases h

end Node

/-! ## Trees -/

namespace Node

/-- Whether the statement is an assignment. -/
def isAssign : Node → Bool
  | .assign .. => true
  | _ => false

/-- Whether a numeric loop has assignments for its bounds. -/
def boundsAssigned : Node → Bool
  | .numericFor _ _ init limit step _ => init.isAssign && limit.isAssign && step.isAssign
  | _ => true

/-- A statement that inlining walks over in the order of evaluation. -/
inductive Aligned : Node → Prop
  | flat {n : Node} (hflat : n.Flat) (hapart : n.isApart) : Aligned n
  | block {a : Int} {ns : List Node} (hns : ∀ n ∈ ns, Aligned n) : Aligned (.block a ns)
  | numeric {a b : Int} {v : Register} {init limit step : Node} {body : List Node}
      (hinit : Aligned init) (hlimit : Aligned limit) (hstep : Aligned step)
      (hbounds : (numericFor a v init limit step (.block b body)).boundsAssigned)
      (hbody : ∀ n ∈ body, Aligned n) : Aligned (.numericFor a v init limit step (.block b body))

theorem bound_follows {n : Node} (h : n.Aligned) (hassign : n.isAssign) :
    Follows n.accesses (Scope.bound 0 n) := by
  cases n with
  | assign a ts vs kept =>
    cases h with
    | flat hflat hapart =>
      rw [← List.append_nil (assign a ts vs kept).accesses]
      refine (hflat.assign_follows 0 hapart).bind ?_
      rintro ⟨n, value⟩ _ _ -
      cases value <;> exact .pure _
  | _ => cases hassign

theorem inlineAll_follows {ns : List Node} (h : ∀ n ∈ ns, Follows n.accesses (n.inline 0)) :
    Follows (accessesAll ns) (Node.inlineAll 0 ns) := by
  induction ns with
  | nil => exact .pure []
  | cons n ns ih =>
    rw [List.forall_mem_cons] at h
    exact h.1.bind fun _ _ _ _ => (ih h.2).last

theorem block_follows {a : Int} {ns : List Node} (h : ∀ n ∈ ns, Follows n.accesses (n.inline 0)) :
    Follows (block a ns).accesses ((block a ns).inline 0) := by
  rw [accesses]
  exact (Follows.keepIterators ns).bind fun _ _ _ _ => (inlineAll_follows h).last

/-- Inlining follows the accesses. -/
theorem Aligned.inline_follows {n : Node} (h : n.Aligned) : Follows n.accesses (n.inline 0) := by
  induction h with
  | flat hflat hapart => exact hflat.inline_follows hapart
  | block _ ih => exact block_follows ih
  | @numeric a b v init limit step body hinit hlimit hstep hbounds _ _ _ _ ih =>
    simp only [boundsAssigned, Bool.and_eq_true] at hbounds
    obtain ⟨⟨hinit', hlimit'⟩, hstep'⟩ := hbounds
    change Follows (init.accesses ++ limit.accesses ++ step.accesses ++
      .write v :: (Node.block b body).accesses) _
    rw [List.append_assoc, List.append_assoc]
    exact (bound_follows hinit hinit').bind fun _ _ _ _ =>
      (bound_follows hlimit hlimit').bind fun _ _ _ _ =>
        (bound_follows hstep hstep').bind fun _ _ _ _ =>
          (Follows.set v _).bind fun _ _ _ _ => (block_follows ih).last

/-! ### Recovered trees -/

theorem mem_simplesAll {m : Node} {ns : List Node} :
    m ∈ simplesAll ns ↔ ∃ n ∈ ns, m ∈ n.simples := by
  induction ns with
  | nil => simp [simplesAll]
  | cons n ns ih => simp [simplesAll, ih]

theorem mem_numericLoops {m : Node} {ns : List Node} :
    m ∈ numericLoops ns ↔ ∃ n ∈ ns, m ∈ Outline.numericLoops n.outline := by
  induction ns with
  | nil => simp [numericLoops, outlines]
  | cons n ns ih => simp [numericLoops_cons, ih]

/-- A recovered tree of which the statements were made as lowering makes them, and the bounds are
assignments. -/
theorem Recovered.aligned {n : Node} (h : n.Recovered) (hapart : ∀ m ∈ n.simples, m.isApart)
    (hbounds : ∀ m ∈ Outline.numericLoops n.outline, m.boundsAssigned) : n.Aligned := by
  induction h with
  | @flat n h =>
    refine .flat h (hapart n ?_)
    rw [Loops.simples_of_isSimple h.isSimple]
    exact List.mem_singleton_self n
  | @region a b offset inner _ _ _ ih =>
    have hloops : Outline.numericLoops (block a (inner ++ [jump b offset])).outline =
        numericLoops (inner ++ [jump b offset]) := Outline.numericLoops_node rfl _
    rw [hloops] at hbounds
    refine .block (List.forall_mem_append.mpr ⟨fun n hn => ?_, ?_⟩)
    · have hn' : n ∈ inner ++ [jump b offset] := List.mem_append_left _ hn
      exact ih n hn (fun m hm => hapart m (mem_simplesAll.mpr ⟨n, hn', hm⟩))
        fun m hm => hbounds m (mem_numericLoops.mpr ⟨n, hn', hm⟩)
    · exact List.forall_mem_singleton.mpr (.flat (.jump b offset) rfl)
  | @numeric a b v init limit step body hinit hlimit hstep _ _ ih =>
    rw [numericLoops_numericFor hinit.isSimple hlimit.isSimple hstep.isSimple, List.forall_mem_cons]
      at hbounds
    simp only [simples, List.forall_mem_cons] at hapart
    obtain ⟨hassigned, hbody⟩ := hbounds
    obtain ⟨hinit', hlimit', hstep', hbody'⟩ := hapart
    exact .numeric (.flat hinit hinit') (.flat hlimit hlimit') (.flat hstep hstep') hassigned
      fun n hn => ih n hn (fun m hm => hbody' m (mem_simplesAll.mpr ⟨n, hn, hm⟩))
        fun m hm => hbody m (mem_numericLoops.mpr ⟨n, hn, hm⟩)

/-! ### Trees with reads added -/

theorem isApart_addReads (reads : List Nat) (n : Node) : (n.addReads reads).isApart = n.isApart := by
  cases n with
  | assign a ts vs kept =>
    have hall : ((Expr.addReadsAll reads ts).all fun e => e.register?.isSome) =
        ts.all fun e => e.register?.isSome := by
      induction ts with
      | nil => rfl
      | cons e ts ih =>
        have he : (e.addReads reads).register?.isSome = e.register?.isSome := by cases e <;> rfl
        exact congrArg₂ and he ih
    change (_ == 1 || _) = _
    rw [length_addReadsAll, hall, isApart]
  | _ => rfl

theorem isAssign_addReads (reads : List Nat) (n : Node) :
    (n.addReads reads).isAssign = n.isAssign := by
  cases n <;> rfl

theorem Aligned.addReads {n : Node} (h : n.Aligned) (reads : List Nat) :
    (n.addReads reads).Aligned := by
  induction h with
  | @flat n hflat hapart =>
    exact .flat (flat_addReads hflat reads) ((isApart_addReads reads n).trans hapart)
  | block _ ih => exact .block (forall_addReadsAll ih)
  | numeric _ _ _ hbounds _ ihinit ihlimit ihstep ih =>
    refine .numeric ihinit ihlimit ihstep ?_ (forall_addReadsAll ih)
    simpa only [boundsAssigned, isAssign_addReads] using hbounds

end Node

namespace Access

/-- The access with reads added to the register. -/
def addReads (reads : List Nat) : Access → Access
  | read r => read (r.addReads reads)
  | write r => write (r.addReads reads)

theorem map_addReads_read (reads : List Nat) (rs : List Register) :
    (rs.map read).map (addReads reads) = (rs.map (Register.addReads reads)).map read := by
  rw [List.map_map, List.map_map]
  rfl

theorem map_addReads_write (reads : List Nat) (rs : List Register) :
    (rs.map write).map (addReads reads) = (rs.map (Register.addReads reads)).map write := by
  rw [List.map_map, List.map_map]
  rfl

/-- Accesses do not depend on what was read before. -/
theorem performAll_addReads (reads : List Nat) (as : List Access) :
    Tally.performAll (as.map (addReads reads)) = Tally.performAll as := by
  induction as with
  | nil => rfl
  | cons a as ih =>
    rw [List.map_cons, Tally.performAll, ih]
    cases a <;> rfl

end Access

theorem Expr.targetAccesses_addReads (reads : List Nat) (ts : List Expr) :
    (Expr.addReadsAll reads ts).flatMap Expr.targetAccesses =
      (ts.flatMap Expr.targetAccesses).map (Access.addReads reads) := by
  induction ts with
  | nil => rfl
  | cons t ts ih =>
    rw [Expr.addReadsAll, List.flatMap_cons, ih, List.flatMap_cons, List.map_append]
    congr 1
    cases hr : t.register? with
    | some r =>
      cases t with
      | register r => rfl
      | _ => cases hr
    | none =>
      have hr' : (t.addReads reads).register? = none := by cases t <;> first | rfl | cases hr
      rw [Expr.targetAccesses_of_read hr', Expr.targetAccesses_of_read hr, Expr.inputs_addReads,
        Access.map_addReads_read]

namespace Node

theorem iterators_addReads (reads : List Nat) (ns : List Node) :
    iterators (addReadsAll reads ns) = (iterators ns).map (Register.addReads reads) := by
  induction ns with
  | nil => rfl
  | cons n ns ih =>
    cases n with
    | tForLoop a vars => exact (congrArg _ ih).trans List.map_append.symm
    | _ => exact ih

theorem accessesAll_addReads {reads : List Nat} {ns : List Node}
    (h : ∀ n ∈ ns, (n.addReads reads).accesses = n.accesses.map (Access.addReads reads)) :
    accessesAll (addReadsAll reads ns) = (accessesAll ns).map (Access.addReads reads) := by
  induction ns with
  | nil => rfl
  | cons n ns ih =>
    rw [List.forall_mem_cons] at h
    rw [addReadsAll, accessesAll, h.1, ih h.2, accessesAll, List.map_append]

theorem block_accesses_addReads {reads : List Nat} {a : Int} {ns : List Node}
    (h : ∀ n ∈ ns, (n.addReads reads).accesses = n.accesses.map (Access.addReads reads)) :
    ((block a ns).addReads reads).accesses = (block a ns).accesses.map (Access.addReads reads) := by
  rw [Node.addReads, accesses, iterators_addReads, accessesAll_addReads h, accesses, List.map_append,
    Access.map_addReads_write]

theorem Flat.accesses_addReads {n : Node} (h : n.Flat) (reads : List Nat) :
    (n.addReads reads).accesses = n.accesses.map (Access.addReads reads) := by
  cases n with
  | assign a ts vs kept =>
    rw [Node.addReads, accesses, Expr.inputsAll_addReadsAll, Expr.targetAccesses_addReads, accesses,
      List.map_append, Access.map_addReads_read]
  | returns a vs =>
    rw [Node.addReads, accesses, Expr.inputsAll_addReadsAll, accesses, Access.map_addReads_read]
  | jump a offset => rfl
  | test a c => rw [Node.addReads, accesses, Expr.inputs_addReads, accesses, Access.map_addReads_read]
  | forPrep a x y z v =>
    simp only [Node.addReads, accesses, Expr.inputs_addReads, List.map_append,
      Access.map_addReads_read, List.map_singleton, Access.addReads]
  | forLoop a c offset =>
    rw [Node.addReads, accesses, Expr.inputs_addReads, accesses, Access.map_addReads_read]
  | tForLoop a vars => rw [Node.addReads, accesses, accesses, Access.map_addReads_write]
  | _ => cases h

theorem Aligned.accesses_addReads {n : Node} (h : n.Aligned) (reads : List Nat) :
    (n.addReads reads).accesses = n.accesses.map (Access.addReads reads) := by
  induction h with
  | flat hflat _ => exact hflat.accesses_addReads reads
  | block _ ih => exact block_accesses_addReads ih
  | @numeric a b v init limit step body _ _ _ _ _ ihinit ihlimit ihstep ih =>
    change (init.addReads reads).accesses ++ (limit.addReads reads).accesses ++
      (step.addReads reads).accesses ++
        .write (v.addReads reads) :: ((Node.block b body).addReads reads).accesses =
      (init.accesses ++ limit.accesses ++ step.accesses ++
        .write v :: (Node.block b body).accesses).map (Access.addReads reads)
    rw [ihinit, ihlimit, ihstep, block_accesses_addReads ih]
    simp only [List.map_append, List.map_cons, Access.addReads]

end Node

/-! ## Functions -/

namespace Declaration

variable {d : Declaration}

/-- Performing the accesses of a function does not depend on what was read before. -/
theorem performAll_addReads (h : ∀ n ∈ d.body, n.Aligned) (reads : List Nat) :
    Tally.performAll (d.addReads reads).accesses = Tally.performAll d.accesses := by
  have hblock := Node.block_accesses_addReads (a := d.address)
    fun n hn => (h n hn).accesses_addReads reads
  have hall : (d.addReads reads).accesses = d.accesses.map (Access.addReads reads) := by
    change _ = (d.parameters.map Access.write ++ (Node.block d.address d.body).accesses).map _
    rw [List.map_append, Access.map_addReads_write, ← hblock]
    rfl
  rw [hall, Access.performAll_addReads]

/-- Inlining a function fails as performing its accesses does. -/
theorem inlined_agree (h : ∀ n ∈ d.body, n.Aligned) (hunshared : d.Unshared) :
    Agree (fun _ _ => True) (· = ·) (Tally.performAll d.accesses Tally.empty) d.toNode.inlined := by
  have hbound : d.toNode.sharedBound = 0 := by
    change max 0 (Node.sharedBoundAll d.body) = 0
    rw [hunshared, Nat.max_self]
  have hfollows : Follows d.accesses (do
      Scope.keepAll d.parameters
      (Node.block d.address d.body).inline 0) :=
    (Follows.keepAll d.parameters).bind fun _ _ _ _ =>
      Node.block_follows fun n hn => (h n hn).inline_follows
  have hagree := hfollows Tally.empty (Scope.start 0) (SameBound.start 0)
  have hinline : d.toNode.inline 0 (Scope.start 0) =
      Scope.nested 0 d.parameters ((Node.block d.address d.body).inline 0) (Scope.start 0) >>=
        fun r => .ok ((.function d.address .missing d.parameters d.vararg r.1, false), r.2) := rfl
  unfold Node.inlined
  rw [hbound, hinline, Scope.nested]
  -- Only the walk over the body can fail.
  generalize Tally.performAll d.accesses Tally.empty = x at hagree ⊢
  generalize (do
    Scope.keepAll d.parameters
    (Node.block d.address d.body).inline 0 : Inlining (Node × Bool)) (Scope.start 0) = y at hagree ⊢
  cases hagree with
  | ok _ => exact .ok trivial
  | error h => exact .error h

/-- Counting the uses of a function and inlining it fail alike. -/
structure FailsAlike (d : Declaration) : Prop where
  /-- one fails exactly if the other does, and with the same failure -/
  iff : ∀ e, d.toNode.inlined = .error e ↔ d.toNode.countUses = .error e
  /-- whatever reads were counted by then -/
  counted : ∀ reads e, (d.addReads reads).toNode.inlined = .error e ↔ d.toNode.countUses = .error e
  /-- all that fails is the read of a register -/
  refused : ∀ e, d.toNode.countUses = .error e → Unbound e
  /-- what counting gives can be inlined -/
  inlines : ∀ n, d.toNode.countUses = .ok n → ∃ m, n.inlined = .ok m

/-- A run that agrees with the accesses of a function fails as counting does. -/
theorem error_iff_countUses (h : ∀ n ∈ d.body, n.Recovered) {α : Type}
    {y : Except DecompileError α}
    (hagree : Agree (fun _ _ => True) (· = ·) (Tally.performAll d.accesses Tally.empty) y)
    (e : DecompileError) : y = .error e ↔ d.toNode.countUses = .error e := by
  rw [countUses_eq h]
  generalize Tally.performAll d.accesses Tally.empty = x at hagree
  cases hagree with
  | ok _ => exact iff_of_false nofun nofun
  | error h =>
    rw [Except.map, Except.error.injEq, Except.error.injEq, h]

theorem failsAlike (h : ∀ n ∈ d.body, n.Recovered) (haligned : ∀ n ∈ d.body, n.Aligned) :
    d.FailsAlike := by
  have hcounted : ∀ reads e,
      (d.addReads reads).toNode.inlined = .error e ↔ d.toNode.countUses = .error e := by
    intro reads e
    have hagree := inlined_agree (d := d.addReads reads)
      (forall_addReadsAll fun n hn => (haligned n hn).addReads reads)
      (unshared_of_recovered (forall_addReadsAll fun n hn => (h n hn).addReads reads))
    rw [performAll_addReads haligned] at hagree
    exact error_iff_countUses h hagree e
  refine ⟨error_iff_countUses h (inlined_agree haligned (unshared_of_recovered h)), hcounted, ?_, ?_⟩
  · intro e he
    have hout := d.toNode.countUses_outcome
    rw [he] at hout
    exact hout
  · intro n hn
    obtain ⟨t, -, rfl⟩ := countUses_ok h hn
    cases hinlined : (d.addReads t.reads).toNode.inlined with
    | ok m => exact ⟨m, rfl⟩
    | error e =>
      rw [(hcounted t.reads e).mp hinlined] at hn
      cases hn

end Declaration

/-- Lowered statements are made apart, and recovery keeps those that stay. -/
theorem Code.recovered_apart {c : Code} {d : Declaration} {out : List Node} (hlower : c.lower = .ok d)
    (hrecover : Loops.recover d.body = .ok out) : ∀ n ∈ Node.simplesAll out, n.isApart := by
  intro n hn
  obtain ⟨ends, hunrolls⟩ :=
    Loops.recover_unrolls (fun n hn => (c.lower_flat hlower n hn).isSimple) hrecover
  obtain ⟨i, -, op, -, hshaped⟩ :=
    Code.lower_shaped hlower n (hunrolls.perm.mem_iff.mpr (List.mem_append_left _ hn))
  exact hshaped.apart

/-- **Counting and inlining agree on what is bound.** On a lowered function, and also when its loops
were recovered and have assignments for their bounds, inlining fails exactly if counting the uses does,
at the same read; and a function of which the uses were counted can be inlined. -/
theorem Code.inlined_error_iff {c : Code} {d : Declaration} {out : List Node}
    (hlower : c.lower = .ok d)
    (hout : out = d.body ∨
      Loops.recover d.body = .ok out ∧ ∀ n ∈ Node.numericLoops out, n.boundsAssigned) :
    ({ d with body := out } : Declaration).FailsAlike := by
  have hflat : ∀ n ∈ d.body, n.Flat := c.lower_flat hlower
  rcases hout with rfl | ⟨hrecover, hbounds⟩
  · refine Declaration.failsAlike (fun n hn => .flat (hflat n hn)) fun n hn => ?_
    obtain ⟨i, -, op, -, hshaped⟩ := Code.lower_shaped hlower n hn
    exact .flat (hflat n hn) hshaped.apart
  · have hrecovered := (Loops.recover_recovered hflat hrecover).1
    have hapart := Code.recovered_apart hlower hrecover
    refine Declaration.failsAlike hrecovered fun n hn => (hrecovered n hn).aligned ?_ ?_
    · exact fun m hm => hapart m (Node.mem_simplesAll.mpr ⟨n, hn, hm⟩)
    · exact fun m hm => hbounds m (Node.mem_numericLoops.mpr ⟨n, hn, hm⟩)

/-- Both fail at the read of R12 behind a loop that has assignments for its bounds. -/
theorem Code.inlined_error_iff_afterLoop :
    ∃ (c : Code) (d : Declaration) (out : List Node), c.lower = .ok d ∧
      Loops.recover d.body = .ok out ∧ (Node.numericLoops out).length = 1 ∧
      (∀ n ∈ Node.numericLoops out, n.boundsAssigned) ∧
      ({ d with body := out } : Declaration).FailsAlike ∧
      ({ d with body := out } : Declaration).toNode.inlined =
        .error (.failed 24 none (.unboundRegister 12)) := by
  have hrun : (Code.ofWords 1 [Word.ofABC 7 1 0 0, Word.ofABC 7 2 0 0, Word.ofABC 7 3 0 0,
      Word.ofAsBx 62 1 1, Word.ofABC 7 9 4 0, Word.ofAsBx 63 1 (-2), Word.ofABC 7 10 12 0,
      Word.ofABC 9 10 2 0]).withLoops.toOption.any fun d =>
        (Node.numericLoops d.body).length = 1 && (Node.numericLoops d.body).all Node.boundsAssigned &&
          d.toNode.countUses.map (fun _ => ()) = .error (.failed 24 none (.unboundRegister 12)) := by
    decide +kernel
  obtain ⟨d', hd, hrun⟩ := exists_ok_of_any hrun
  obtain ⟨d, out, hlower, hrecover, rfl⟩ := Code.withLoops_ok hd
  simp only [Bool.and_eq_true, decide_eq_true_eq, List.all_eq_true] at hrun
  obtain ⟨⟨hone, hbounds⟩, hcount⟩ := hrun
  have halike := Code.inlined_error_iff hlower (.inr ⟨hrecover, hbounds⟩)
  exact ⟨_, d, out, hlower, hrecover, hone, hbounds, halike, (halike.iff _).mpr (error_of_map hcount)⟩

end HavokScript
