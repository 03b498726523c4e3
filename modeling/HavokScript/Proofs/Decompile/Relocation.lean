import HavokScript.Proofs.Decompile.Closures
import HavokScript.Proofs.Tree.Moved

/-!
# Passes do not look at addresses

Use counts and inlining do to a tree at other addresses what they do to the tree, up to the
addresses (`Node.countUses_moved`, `Node.inlined_moved`). Counting keeps no addresses at all. What
inlining knows at a point holds expressions, so it is moved with the tree (`Scope.moved`).
-/

namespace HavokScript

variable (g : Int → Int)

/-! ## Use counts -/

theorem Tally.bindAll_moved (rs : List Register) :
    Tally.bindAll (rs.map (Register.moved g)) = Tally.bindAll rs := by
  induction rs with
  | nil => rfl
  | cons r rs ih =>
    rw [List.map_cons, Tally.bindAll, Tally.bindAll, ih]
    rfl

theorem Tally.read_moved (r : Register) (t : Tally) :
    (Tally.read (r.moved g) t).toOption = (Tally.read r t).toOption := by
  dsimp only [Tally.read, Register.moved]
  cases t.live r.index <;> rfl

mutual

theorem Expr.tally_moved (e : Expr) (t : Tally) :
    ((e.moved g).tally t).toOption = (e.tally t).toOption := by
  cases e with
  | register r => exact Tally.read_moved g r t
  | call a f args =>
    simp only [Expr.moved, Expr.tally, toOption_run_bind, Expr.tally_moved f,
      Expr.tallyAll_moved args]
  | binary a op l r =>
    simp only [Expr.moved, Expr.tally, toOption_run_bind, Expr.tally_moved l, Expr.tally_moved r]
  | unary a op e => exact Expr.tally_moved e t
  | table a ks vs =>
    simp only [Expr.moved, Expr.tally, toOption_run_bind, Expr.tallyAll_moved ks,
      Expr.tallyAll_moved vs]
  | index a table key =>
    simp only [Expr.moved, Expr.tally, toOption_run_bind, Expr.tally_moved table,
      Expr.tally_moved key]
  | shared n e => exact Expr.tally_moved e t
  | _ => rfl

theorem Expr.tallyAll_moved (es : List Expr) (t : Tally) :
    (Expr.tallyAll (Expr.movedAll g es) t).toOption = (Expr.tallyAll es t).toOption := by
  cases es with
  | nil => rfl
  | cons e es =>
    simp only [Expr.movedAll, Expr.tallyAll, toOption_run_bind, Expr.tally_moved e,
      Expr.tallyAll_moved es]

end

theorem Expr.tallyTarget_moved (e : Expr) (t : Tally) :
    ((e.moved g).tallyTarget t).toOption = (e.tallyTarget t).toOption := by
  have he := e.tally_moved g t
  cases e <;> first | rfl | exact he

theorem Expr.tallyTargets_moved (es : List Expr) (t : Tally) :
    (Expr.tallyTargets (Expr.movedAll g es) t).toOption = (Expr.tallyTargets es t).toOption := by
  induction es generalizing t with
  | nil => rfl
  | cons e es ih =>
    simp only [Expr.movedAll, Expr.tallyTargets, toOption_run_bind, Expr.tallyTarget_moved, ih]

theorem Node.bindIterators_moved (ns : List Node) :
    Node.bindIterators (Node.movedAll g ns) = Node.bindIterators ns := by
  induction ns with
  | nil => rfl
  | cons n ns ih =>
    cases n with
    | tForLoop a vars =>
      simp only [Node.movedAll, Node.moved, Node.bindIterators, Tally.bindAll_moved, ih]
    | _ => exact ih

mutual

theorem Node.tally_moved (n : Node) (t : Tally) :
    ((n.moved g).tally t).toOption = (n.tally t).toOption := by
  cases n with
  | missing | jump => rfl
  | expr e => exact e.tally_moved g t
  | chunk a body | block a body =>
    simp only [Node.moved, Node.tally, toOption_run_bind, Node.bindIterators_moved,
      Node.tallyAll_moved body]
  | scope a body => exact Node.tally_moved body t
  | whileLoop a c body | repeatLoop a body c | arm a c body =>
    simp only [Node.moved, Node.tally, toOption_run_bind, Expr.tally_moved, Node.tally_moved body]
  | branch a c body arms other =>
    simp only [Node.moved, Node.tally, toOption_run_bind, Expr.tally_moved, Node.tally_moved body,
      Node.tallyAll_moved arms, Node.tally_moved other]
  | numericFor a v init limit step body =>
    simp only [Node.moved, Node.tally, toOption_run_bind, Node.tally_moved init,
      Node.tally_moved limit, Node.tally_moved step, Node.tally_moved body]
    rfl
  | genericFor a vars es body =>
    simp only [Node.moved, Node.tally, toOption_run_bind, Expr.tallyAll_moved,
      Expr.tallyTargets_moved, Node.tally_moved body]
  | function a name params vararg body | localFunction a name params vararg body =>
    simp only [Node.moved, Node.tally, Tally.toOption_nested, Tally.bindAll_moved,
      toOption_run_bind, Node.tally_moved body]
  | locals a names vs | assign a names vs kept =>
    simp only [Node.moved, Node.tally, toOption_run_bind, Expr.tallyAll_moved,
      Expr.tallyTargets_moved]
  | returns a vs => exact Expr.tallyAll_moved g vs t
  | test a c => exact c.tally_moved g t
  | forPrep a init limit step v =>
    simp only [Node.moved, Node.tally, toOption_run_bind, Expr.tally_moved]
    rfl
  | forLoop a counter offset => exact counter.tally_moved g t
  | tForLoop a vars => rw [Node.moved, Node.tally, Tally.bindAll_moved, Node.tally]

theorem Node.tallyAll_moved (ns : List Node) (t : Tally) :
    (Node.tallyAll (Node.movedAll g ns) t).toOption = (Node.tallyAll ns t).toOption := by
  cases ns with
  | nil => rfl
  | cons n ns =>
    simp only [Node.movedAll, Node.tallyAll, toOption_run_bind, Node.tally_moved n,
      Node.tallyAll_moved ns]

end

theorem Tally.readsOf_moved (params : List Register) (body : Node) :
    Tally.readsOf (params.map (Register.moved g)) (body.moved g) = Tally.readsOf params body := by
  simp only [Tally.readsOf_eq_getD, Tally.bindAll_moved, toOption_run_bind, Node.tally_moved]

theorem Register.map_addReads_moved (reads : List Nat) (rs : List Register) :
    (rs.map (Register.moved g)).map (Register.addReads reads) =
      (rs.map (Register.addReads reads)).map (Register.moved g) := by
  rw [List.map_map, List.map_map]
  rfl

mutual

theorem Expr.addReads_moved (reads : List Nat) (e : Expr) :
    (e.moved g).addReads reads = (e.addReads reads).moved g := by
  cases e with
  | call a f args =>
    simp only [Expr.moved, Expr.addReads, Expr.addReads_moved reads f,
      Expr.addReadsAll_moved reads args]
  | binary a op l r =>
    simp only [Expr.moved, Expr.addReads, Expr.addReads_moved reads l, Expr.addReads_moved reads r]
  | unary a op e => simp only [Expr.moved, Expr.addReads, Expr.addReads_moved reads e]
  | table a ks vs =>
    simp only [Expr.moved, Expr.addReads, Expr.addReadsAll_moved reads ks,
      Expr.addReadsAll_moved reads vs]
  | index a t key =>
    simp only [Expr.moved, Expr.addReads, Expr.addReads_moved reads t,
      Expr.addReads_moved reads key]
  | shared n e => simp only [Expr.moved, Expr.addReads, Expr.addReads_moved reads e]
  | _ => rfl

theorem Expr.addReadsAll_moved (reads : List Nat) (es : List Expr) :
    Expr.addReadsAll reads (Expr.movedAll g es) = Expr.movedAll g (Expr.addReadsAll reads es) := by
  cases es with
  | nil => rfl
  | cons e es =>
    simp only [Expr.movedAll, Expr.addReadsAll, Expr.addReads_moved reads e,
      Expr.addReadsAll_moved reads es]

end

mutual

theorem Node.addReads_moved (reads : List Nat) (n : Node) :
    (n.moved g).addReads reads = (n.addReads reads).moved g := by
  cases n with
  | missing | jump => rfl
  | chunk a body | block a body =>
    simp only [Node.moved, Node.addReads, Node.addReadsAll_moved reads body]
  | scope a body => simp only [Node.moved, Node.addReads, Node.addReads_moved reads body]
  | whileLoop a c body | repeatLoop a body c | arm a c body =>
    simp only [Node.moved, Node.addReads, Expr.addReads_moved, Node.addReads_moved reads body]
  | branch a c body arms other =>
    simp only [Node.moved, Node.addReads, Expr.addReads_moved, Node.addReads_moved reads body,
      Node.addReadsAll_moved reads arms, Node.addReads_moved reads other]
  | numericFor a v init limit step body =>
    simp only [Node.moved, Node.addReads, Node.addReads_moved reads init,
      Node.addReads_moved reads limit, Node.addReads_moved reads step,
      Node.addReads_moved reads body]
    rfl
  | genericFor a vars es body =>
    simp only [Node.moved, Node.addReads, Expr.addReadsAll_moved, Node.addReads_moved reads body]
  | function a name params vararg body | localFunction a name params vararg body =>
    simp only [Node.moved, Node.addReads, Tally.readsOf_moved, Register.map_addReads_moved,
      Node.addReads_moved _ body]
  | tForLoop a vars => simp only [Node.moved, Node.addReads, Register.map_addReads_moved]
  | forPrep a init limit step v =>
    simp only [Node.moved, Node.addReads, Expr.addReads_moved]
    rfl
  | _ => simp only [Node.moved, Node.addReads, Expr.addReads_moved, Expr.addReadsAll_moved]

theorem Node.addReadsAll_moved (reads : List Nat) (ns : List Node) :
    Node.addReadsAll reads (Node.movedAll g ns) = Node.movedAll g (Node.addReadsAll reads ns) := by
  cases ns with
  | nil => rfl
  | cons n ns =>
    simp only [Node.movedAll, Node.addReadsAll, Node.addReads_moved reads n,
      Node.addReadsAll_moved reads ns]

end

theorem Node.countUses_moved (n : Node) :
    (n.moved g).countUses.toOption = n.countUses.toOption.map (Node.moved g) := by
  have hcount : ∀ n : Node, n.countUses.toOption =
      (n.tally Tally.empty).toOption.map fun r => n.addReads r.2.reads := by
    intro n
    unfold Node.countUses
    cases n.tally Tally.empty <;> rfl
  rw [hcount, hcount, Node.tally_moved, Option.map_map]
  congr 1
  funext r
  exact Node.addReads_moved g r.2.reads n

/-! ## Inlining -/

/-- What is known, at other addresses. -/
def Scope.moved (s : Scope) : Scope where
  live := fun i => (s.live i).map (Expr.moved g)
  versions := s.versions.map fun (n, e) => (n, e.moved g)
  next := s.next

/-- The step does at other addresses what the other step does, up to the addresses. -/
def Moves {α β : Type} (f : α → β) (m : Inlining α) (m' : Inlining β) : Prop :=
  ∀ s, (m' (s.moved g)).toOption = (m s).toOption.map fun r => (f r.1, r.2.moved g)

namespace Moves

variable {g : Int → Int} {α β α' β' : Type} {f : α → β} {f' : α' → β'}

theorem pure (a : α) : Moves g f (Pure.pure a) (Pure.pure (f a)) := fun _ => rfl

theorem bind {m : Inlining α} {m' : Inlining β} {k : α → Inlining α'} {k' : β → Inlining β'}
    (hm : Moves g f m m') (hk : ∀ a, Moves g f' (k a) (k' (f a))) :
    Moves g f' (m >>= k) (m' >>= k') := by
  intro s
  rw [toOption_run_bind, toOption_run_bind, hm s]
  cases (m s).toOption with
  | none => rfl
  | some r => exact hk r.1 r.2

end Moves

namespace Scope

theorem set_moves (i : Int) (e : Expr) : Moves g id (set i e) (set i (e.moved g)) := by
  intro s
  have hlive : (s.moved g).live.set i (e.moved g) =
      ({ s with live := s.live.set i e }.moved g).live := by
    funext j
    simp only [moved, Slots.set]
    split <;> rfl
  unfold set
  rw [hlive]
  rfl

theorem keep_moves (r : Register) : Moves g id (keep r) (keep (r.moved g)) :=
  set_moves g r.index (.register r)

theorem keepAll_moves (rs : List Register) :
    Moves g id (keepAll rs) (keepAll (rs.map (Register.moved g))) := by
  induction rs with
  | nil => exact .pure ()
  | cons r rs ih => exact (keep_moves g r).bind fun _ => ih

theorem keepTargets_moves (ts : List Expr) :
    Moves g id (keepTargets ts) (keepTargets (Expr.movedAll g ts)) := by
  induction ts with
  | nil => exact .pure ()
  | cons t ts ih =>
    cases t with
    | register r => exact (keep_moves g r).bind fun _ => ih
    | _ => exact ih

theorem keepIterators_moves (ns : List Node) :
    Moves g id (keepIterators ns) (keepIterators (Node.movedAll g ns)) := by
  induction ns with
  | nil => exact .pure ()
  | cons n ns ih =>
    cases n with
    | tForLoop a vars => exact (keepAll_moves g vars).bind fun _ => ih
    | _ => exact ih

theorem read_moves (r : Register) : Moves g (Expr.moved g) (read r) (read (r.moved g)) := by
  intro s
  dsimp only [read, Register.moved, moved]
  cases s.live r.index <;> rfl

theorem lookup_moved (versions : List (Nat × Expr)) (n : Nat) :
    (versions.map fun (n, e) => (n, e.moved g)).lookup n =
      (versions.lookup n).map (Expr.moved g) := by
  induction versions with
  | nil => rfl
  | cons v versions ih =>
    obtain ⟨m, e⟩ := v
    simp only [List.map_cons, List.lookup_cons]
    cases n == m with
    | true => rfl
    | false => exact ih

theorem getD_moved (e : Expr) (x : Option Expr) :
    (x.map (Expr.moved g)).getD (e.moved g) = (x.getD e).moved g := by
  cases x <;> rfl

theorem latest_moves (n : Nat) (e : Expr) :
    Moves g (Expr.moved g) (latest n e) (latest n (e.moved g)) := by
  intro s
  dsimp only [latest, moved]
  rw [lookup_moved, getD_moved]
  rfl

theorem record_moves (n : Nat) (e : Expr) :
    Moves g id (record n e) (record n (e.moved g)) := fun _ => rfl

theorem share_moves (e : Expr) : Moves g (Expr.moved g) (share e) (share (e.moved g)) := by
  intro s
  cases e <;> rfl

end Scope

mutual

theorem Expr.swapWith_moves {visit : Nat → Expr → Inlining Expr}
    (hvisit : ∀ n e, Moves g (Expr.moved g) (visit n e) (visit n (e.moved g))) (e : Expr) :
    Moves g (Expr.moved g) (e.swapWith visit) ((e.moved g).swapWith visit) := by
  cases e with
  | register r => exact Scope.read_moves g r
  | call a f args =>
    exact (Expr.swapWith_moves hvisit f).bind fun _ =>
      (Expr.swapAllWith_moves hvisit args).bind fun _ => .pure _
  | binary a op l r =>
    exact (Expr.swapWith_moves hvisit l).bind fun _ =>
      (Expr.swapWith_moves hvisit r).bind fun _ => .pure _
  | unary a op e => exact (Expr.swapWith_moves hvisit e).bind fun _ => .pure _
  | table a ks vs =>
    exact (Expr.swapAllWith_moves hvisit ks).bind fun _ =>
      (Expr.swapAllWith_moves hvisit vs).bind fun _ => .pure _
  | index a t key =>
    exact (Expr.swapWith_moves hvisit t).bind fun _ =>
      (Expr.swapWith_moves hvisit key).bind fun _ => .pure _
  | shared n e => exact hvisit n e
  | _ => exact .pure _

theorem Expr.swapAllWith_moves {visit : Nat → Expr → Inlining Expr}
    (hvisit : ∀ n e, Moves g (Expr.moved g) (visit n e) (visit n (e.moved g))) (es : List Expr) :
    Moves g (Expr.movedAll g) (Expr.swapAllWith visit es)
      (Expr.swapAllWith visit (Expr.movedAll g es)) := by
  cases es with
  | nil => exact .pure _
  | cons e es =>
    exact (Expr.swapWith_moves hvisit e).bind fun _ =>
      (Expr.swapAllWith_moves hvisit es).bind fun _ => .pure _

end

theorem Expr.visitShared_moves (depth n : Nat) (e : Expr) :
    Moves g (Expr.moved g) (Expr.visitShared depth n e)
      (Expr.visitShared depth n (e.moved g)) := by
  induction depth generalizing n e with
  | zero => exact .pure _
  | succ depth ih =>
    refine (Scope.latest_moves g n e).bind fun e => ?_
    refine (Expr.swapWith_moves g ih e).bind fun e => ?_
    exact (Scope.record_moves g n e).bind fun _ => .pure _

theorem Expr.swap_moves (depth : Nat) (e : Expr) :
    Moves g (Expr.moved g) (e.swap depth) ((e.moved g).swap depth) :=
  Expr.swapWith_moves g (Expr.visitShared_moves g depth) e

theorem Expr.swapAll_moves (depth : Nat) (es : List Expr) :
    Moves g (Expr.movedAll g) (Expr.swapAll depth es) (Expr.swapAll depth (Expr.movedAll g es)) :=
  Expr.swapAllWith_moves g (Expr.visitShared_moves g depth) es

theorem Expr.swapTargets_moves (depth : Nat) (ts : List Expr) :
    Moves g (Expr.movedAll g) (Expr.swapTargets depth ts)
      (Expr.swapTargets depth (Expr.movedAll g ts)) := by
  induction ts with
  | nil => exact .pure _
  | cons t ts ih =>
    have ht : Moves g (Expr.movedAll g)
        (do let e ← t.swap depth; let es ← Expr.swapTargets depth ts; return e :: es)
        (do
          let e ← (t.moved g).swap depth
          let es ← Expr.swapTargets depth (Expr.movedAll g ts)
          return e :: es) :=
      (Expr.swap_moves g depth t).bind fun _ => ih.bind fun _ => .pure _
    cases t with
    | register r => exact ih.bind fun _ => .pure _
    | _ => exact ht

theorem Expr.isCall_moved (e : Expr) : (e.moved g).isCall = e.isCall := by
  rw [Expr.isCall, Expr.isCall, Expr.peel_moved]
  cases e.peel <;> rfl

theorem Scope.foldable?_moved (ts : List Expr) :
    Scope.foldable? (Expr.movedAll g ts) = (Scope.foldable? ts).map (Register.moved g) := by
  match ts with
  | [] => rfl
  | [e] =>
    cases e with
    | register r =>
      simp only [Expr.movedAll, Expr.moved, Scope.foldable?, Register.moved]
      split <;> rfl
    | _ => rfl
  | e :: e' :: es => cases e <;> rfl

theorem Expr.length_movedAll (es : List Expr) : (Expr.movedAll g es).length = es.length := by
  rw [Expr.movedAll_eq, List.length_map]

/-- An assignment and the value that stands for it. -/
theorem Scope.assign_moves (depth : Nat) (a : Int) (ts vs : List Expr) (kept : Bool) :
    Moves g (fun r : Node × Option Expr => (r.1.moved g, r.2.map (Expr.moved g)))
      (Scope.assign depth a ts vs kept)
      (Scope.assign depth (g a) (Expr.movedAll g ts) (Expr.movedAll g vs) kept) := by
  refine (Expr.swapAll_moves g depth vs).bind fun vs => ?_
  refine (Expr.swapTargets_moves g depth ts).bind fun ts => ?_
  cases vs with
  | nil => exact (Scope.keepTargets_moves g ts).bind fun _ => .pure _
  | cons v rest =>
    have hempty : (Expr.movedAll g rest).isEmpty = rest.isEmpty := by cases rest <;> rfl
    simp only [Expr.movedAll, hempty, Expr.isCall_moved, Scope.foldable?_moved,
      Expr.length_movedAll]
    split
    · exact (Scope.keepTargets_moves g ts).bind fun _ => .pure _
    · cases Scope.foldable? ts with
      | none => exact (Scope.keepTargets_moves g ts).bind fun _ => .pure _
      | some r =>
        refine (Scope.share_moves g v).bind fun v => ?_
        exact (Scope.set_moves g r.index v).bind fun _ => .pure _

theorem Node.ofExpr_moved (e : Expr) : Node.ofExpr (e.moved g) = (Node.ofExpr e).moved g := by
  cases e <;> rfl

theorem Scope.bound_moves (depth : Nat) (n : Node) :
    Moves g (Node.moved g) (Scope.bound depth n) (Scope.bound depth (n.moved g)) := by
  have hvalue : ∀ e : Expr, Moves g (Node.moved g) (pure (.ofExpr e))
      (pure (.ofExpr (e.moved g))) := by
    intro e
    rw [Node.ofExpr_moved]
    exact .pure _
  cases n with
  | assign a ts vs kept =>
    refine (Scope.assign_moves g depth a ts vs kept).bind fun (m, value) => ?_
    cases value with
    | none => exact .pure _
    | some v => exact hvalue v
  | expr e => exact (Expr.swap_moves g depth e).bind hvalue
  | _ => exact .pure _

/-! ## The end of a scope -/

mutual

theorem Expr.mapShared_moved {visit visit' : Nat → Expr → Expr}
    (hvisit : ∀ n e, visit' n (e.moved g) = (visit n e).moved g) (e : Expr) :
    (e.moved g).mapShared visit' = (e.mapShared visit).moved g := by
  cases e with
  | call a f args =>
    simp only [Expr.moved, Expr.mapShared, Expr.mapShared_moved hvisit f,
      Expr.mapSharedAll_moved hvisit args]
  | binary a op l r =>
    simp only [Expr.moved, Expr.mapShared, Expr.mapShared_moved hvisit l,
      Expr.mapShared_moved hvisit r]
  | unary a op e => simp only [Expr.moved, Expr.mapShared, Expr.mapShared_moved hvisit e]
  | table a ks vs =>
    simp only [Expr.moved, Expr.mapShared, Expr.mapSharedAll_moved hvisit ks,
      Expr.mapSharedAll_moved hvisit vs]
  | index a t key =>
    simp only [Expr.moved, Expr.mapShared, Expr.mapShared_moved hvisit t,
      Expr.mapShared_moved hvisit key]
  | shared n e => exact hvisit n e
  | _ => rfl

theorem Expr.mapSharedAll_moved {visit visit' : Nat → Expr → Expr}
    (hvisit : ∀ n e, visit' n (e.moved g) = (visit n e).moved g) (es : List Expr) :
    Expr.mapSharedAll visit' (Expr.movedAll g es) =
      Expr.movedAll g (Expr.mapSharedAll visit es) := by
  cases es with
  | nil => rfl
  | cons e es =>
    simp only [Expr.movedAll, Expr.mapSharedAll, Expr.mapShared_moved hvisit e,
      Expr.mapSharedAll_moved hvisit es]

end

theorem Expr.settleShared_moved (versions : List (Nat × Expr)) (depth n : Nat) (e : Expr) :
    Expr.settleShared (versions.map fun (n, e) => (n, e.moved g)) depth n (e.moved g) =
      (Expr.settleShared versions depth n e).moved g := by
  induction depth generalizing n e with
  | zero => rfl
  | succ depth ih =>
    rw [Expr.settleShared, Scope.lookup_moved, Scope.getD_moved, Expr.mapShared_moved g ih]
    rfl

theorem Scope.settle_moved (s : Scope) (e : Expr) :
    (s.moved g).settle (e.moved g) = (s.settle e).moved g := by
  have hempty : (s.moved g).versions.isEmpty = s.versions.isEmpty := by
    rw [Scope.moved, List.isEmpty_map]
  unfold Scope.settle
  rw [hempty]
  split
  · rfl
  · exact Expr.mapShared_moved g (Expr.settleShared_moved g s.versions s.next) e

theorem Expr.map_moved {f f' : Expr → Expr} (hf : ∀ e, f' (e.moved g) = (f e).moved g)
    (es : List Expr) : (Expr.movedAll g es).map f' = Expr.movedAll g (es.map f) := by
  rw [Expr.movedAll_eq, Expr.movedAll_eq, List.map_map, List.map_map]
  exact List.map_congr_left fun e _ => hf e

mutual

theorem Node.mapScope_moved {f f' : Expr → Expr} (hf : ∀ e, f' (e.moved g) = (f e).moved g)
    (n : Node) : (n.moved g).mapScope f' = (n.mapScope f).moved g := by
  cases n with
  | missing | function | localFunction | jump | tForLoop => rfl
  | chunk a body | block a body =>
    simp only [Node.moved, Node.mapScope, Node.mapScopeAll_moved hf body]
  | scope a body | whileLoop a c body | repeatLoop a body c | arm a c body =>
    simp only [Node.moved, Node.mapScope, hf, Node.mapScope_moved hf body]
  | branch a c body arms other =>
    simp only [Node.moved, Node.mapScope, hf, Node.mapScope_moved hf body,
      Node.mapScopeAll_moved hf arms, Node.mapScope_moved hf other]
  | numericFor a v init limit step body =>
    simp only [Node.moved, Node.mapScope, Node.mapScope_moved hf init, Node.mapScope_moved hf limit,
      Node.mapScope_moved hf step, Node.mapScope_moved hf body]
  | genericFor a vars es body =>
    simp only [Node.moved, Node.mapScope, Expr.map_moved g hf, Node.mapScope_moved hf body]
  | _ => simp only [Node.moved, Node.mapScope, hf, Expr.map_moved g hf]

theorem Node.mapScopeAll_moved {f f' : Expr → Expr} (hf : ∀ e, f' (e.moved g) = (f e).moved g)
    (ns : List Node) :
    Node.mapScopeAll f' (Node.movedAll g ns) = Node.movedAll g (Node.mapScopeAll f ns) := by
  cases ns with
  | nil => rfl
  | cons n ns =>
    simp only [Node.movedAll, Node.mapScopeAll, Node.mapScope_moved hf n,
      Node.mapScopeAll_moved hf ns]

end

/-! ## Statements -/

theorem Scope.start_moved (bound : Nat) : (Scope.start bound).moved g = Scope.start bound := rfl

/-- A statement, and whether it is to be deleted. -/
abbrev movedStep (r : Node × Bool) : Node × Bool := (r.1.moved g, r.2)

theorem Scope.nested_moves (bound : Nat) (params : List Register) {m m' : Inlining (Node × Bool)}
    (h : Moves g (movedStep g) m m') :
    Moves g (Node.moved g) (Scope.nested bound params m)
      (Scope.nested bound (params.map (Register.moved g)) m') := by
  intro s
  have hmoves : Moves g (movedStep g) (do Scope.keepAll params; m)
      (do Scope.keepAll (params.map (Register.moved g)); m') :=
    (Scope.keepAll_moves g params).bind fun _ => h
  have hrun := hmoves (Scope.start bound)
  rw [Scope.start_moved] at hrun
  rw [Scope.toOption_nested, Scope.toOption_nested, hrun, Option.map_map,
    Option.map_map]
  congr 1
  funext r
  exact congrArg (·, s.moved g) (Node.mapScope_moved g (Scope.settle_moved g r.2) r.1.1)

mutual

theorem Node.inline_moves (bound : Nat) (n : Node) :
    Moves g (movedStep g) (n.inline bound) ((n.moved g).inline bound) := by
  cases n with
  | chunk a body | block a body =>
    exact (Scope.keepIterators_moves g body).bind fun _ =>
      (Node.inlineAll_moves bound body).bind fun _ => .pure _
  | scope a body => exact (Node.inline_moves bound body).bind fun _ => .pure _
  | function a name params vararg body | localFunction a name params vararg body =>
    exact (Scope.nested_moves g bound params (Node.inline_moves bound body)).bind fun _ =>
      .pure _
  | assign a ts vs kept =>
    refine (Scope.assign_moves g bound a ts vs kept).bind fun (m, value) => ?_
    cases value <;> exact .pure _
  | locals a names vs =>
    exact (Expr.swapAll_moves g bound vs).bind fun _ =>
      (Scope.keepTargets_moves g names).bind fun _ => .pure _
  | returns a vs => exact (Expr.swapAll_moves g bound vs).bind fun _ => .pure _
  | whileLoop a c body =>
    exact (Expr.swap_moves g bound c).bind fun _ =>
      (Node.inline_moves bound body).bind fun _ => .pure _
  | repeatLoop a body c =>
    exact (Node.inline_moves bound body).bind fun _ =>
      (Expr.swap_moves g bound c).bind fun _ => .pure _
  | branch a c body arms other =>
    exact (Expr.swap_moves g bound c).bind fun _ =>
      (Node.inline_moves bound body).bind fun _ =>
      (Node.inlineArms_moves bound arms).bind fun _ =>
      (Node.inline_moves bound other).bind fun _ => .pure _
  | numericFor a v init limit step body =>
    exact (Scope.bound_moves g bound init).bind fun _ =>
      (Scope.bound_moves g bound limit).bind fun _ =>
      (Scope.bound_moves g bound step).bind fun _ => (Scope.keep_moves g v).bind fun _ =>
      (Node.inline_moves bound body).bind fun _ => .pure _
  | genericFor a vars vs body =>
    exact (Expr.swapAll_moves g bound vs).bind fun _ =>
      (Scope.keepTargets_moves g vars).bind fun _ =>
      (Node.inline_moves bound body).bind fun _ => .pure _
  | test a c | forLoop a c offset => exact (Expr.swap_moves g bound c).bind fun _ => .pure _
  | forPrep a init limit step v =>
    exact (Expr.swap_moves g bound init).bind fun _ =>
      (Expr.swap_moves g bound limit).bind fun _ =>
      (Expr.swap_moves g bound step).bind fun _ =>
      (Scope.keep_moves g v).bind fun _ => .pure _
  | tForLoop a vars => exact (Scope.keepAll_moves g vars).bind fun _ => .pure _
  | missing | expr | arm | jump => exact .pure _

theorem Node.inlineAll_moves (bound : Nat) (ns : List Node) :
    Moves g (Node.movedAll g) (Node.inlineAll bound ns)
      (Node.inlineAll bound (Node.movedAll g ns)) := by
  cases ns with
  | nil => exact .pure _
  | cons n ns =>
    refine (Node.inline_moves bound n).bind fun (n, delete) => ?_
    refine (Node.inlineAll_moves bound ns).bind fun ns => ?_
    cases delete <;> exact .pure _

theorem Node.inlineArms_moves (bound : Nat) (ns : List Node) :
    Moves g (Node.movedAll g) (Node.inlineArms bound ns)
      (Node.inlineArms bound (Node.movedAll g ns)) := by
  cases ns with
  | nil => exact .pure _
  | cons n ns =>
    have hrest := Node.inlineArms_moves bound ns
    cases n with
    | arm a c body =>
      exact (Expr.swap_moves g bound c).bind fun _ =>
        (Node.inline_moves bound body).bind fun _ => hrest.bind fun _ => .pure _
    | _ => exact hrest.bind fun _ => .pure _

end

/-! ## Trees -/

mutual

theorem Expr.sharedBound_moved (e : Expr) : (e.moved g).sharedBound = e.sharedBound := by
  cases e with
  | call a f args =>
    simp only [Expr.moved, Expr.sharedBound, Expr.sharedBound_moved f,
      Expr.sharedBoundAll_moved args]
  | binary a op l r =>
    simp only [Expr.moved, Expr.sharedBound, Expr.sharedBound_moved l, Expr.sharedBound_moved r]
  | unary a op e => exact Expr.sharedBound_moved e
  | table a ks vs =>
    simp only [Expr.moved, Expr.sharedBound, Expr.sharedBoundAll_moved ks,
      Expr.sharedBoundAll_moved vs]
  | index a t key =>
    simp only [Expr.moved, Expr.sharedBound, Expr.sharedBound_moved t, Expr.sharedBound_moved key]
  | shared n e => simp only [Expr.moved, Expr.sharedBound, Expr.sharedBound_moved e]
  | _ => rfl

theorem Expr.sharedBoundAll_moved (es : List Expr) :
    Expr.sharedBoundAll (Expr.movedAll g es) = Expr.sharedBoundAll es := by
  cases es with
  | nil => rfl
  | cons e es =>
    simp only [Expr.movedAll, Expr.sharedBoundAll, Expr.sharedBound_moved e,
      Expr.sharedBoundAll_moved es]

end

mutual

theorem Node.sharedBound_moved (n : Node) : (n.moved g).sharedBound = n.sharedBound := by
  cases n with
  | missing | jump | tForLoop => rfl
  | chunk a body | block a body => exact Node.sharedBoundAll_moved body
  | scope a body => exact Node.sharedBound_moved body
  | whileLoop a c body | repeatLoop a body c | arm a c body =>
    simp only [Node.moved, Node.sharedBound, Expr.sharedBound_moved, Node.sharedBound_moved body]
  | branch a c body arms other =>
    simp only [Node.moved, Node.sharedBound, Expr.sharedBound_moved, Node.sharedBound_moved body,
      Node.sharedBoundAll_moved arms, Node.sharedBound_moved other]
  | numericFor a v init limit step body =>
    simp only [Node.moved, Node.sharedBound, Node.sharedBound_moved init,
      Node.sharedBound_moved limit, Node.sharedBound_moved step, Node.sharedBound_moved body]
  | genericFor a vars es body =>
    simp only [Node.moved, Node.sharedBound, Expr.sharedBoundAll_moved,
      Node.sharedBound_moved body]
  | function a name params vararg body | localFunction a name params vararg body =>
    simp only [Node.moved, Node.sharedBound, Expr.sharedBound_moved, Node.sharedBound_moved body]
  | _ => simp only [Node.moved, Node.sharedBound, Expr.sharedBound_moved, Expr.sharedBoundAll_moved]

theorem Node.sharedBoundAll_moved (ns : List Node) :
    Node.sharedBoundAll (Node.movedAll g ns) = Node.sharedBoundAll ns := by
  cases ns with
  | nil => rfl
  | cons n ns =>
    simp only [Node.movedAll, Node.sharedBoundAll, Node.sharedBound_moved n,
      Node.sharedBoundAll_moved ns]

end

theorem Node.inlined_moved (n : Node) :
    (n.moved g).inlined.toOption = n.inlined.toOption.map (Node.moved g) := by
  have hinline : ∀ n : Node, n.inlined.toOption =
      (n.inline n.sharedBound (Scope.start n.sharedBound)).toOption.map fun r =>
        r.1.1.mapScope r.2.settle := by
    intro n
    unfold Node.inlined
    cases n.inline n.sharedBound (Scope.start n.sharedBound) <;> rfl
  have hrun := Node.inline_moves g n.sharedBound n (Scope.start n.sharedBound)
  rw [Scope.start_moved] at hrun
  rw [hinline, hinline, Node.sharedBound_moved, hrun, Option.map_map, Option.map_map]
  congr 1
  funext r
  exact Node.mapScope_moved g (Scope.settle_moved g r.2) r.1.1

end HavokScript
