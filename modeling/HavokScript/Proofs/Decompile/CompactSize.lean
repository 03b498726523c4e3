import HavokScript.Proofs.Decompile.Sharing
import HavokScript.Proofs.Tree.Size

/-!
# The compact size of a tree

An expression with parts, that is a call, an operation, an access or a table, may stand at several places,
and a walk over the tree comes to it and to the nodes below it once for each of them. `Node.compactSize`
counts these nodes at the first place only: its walk remembers the numbers of the shared expressions it was
in and does not enter them again. Registers and other expressions without parts have no numbers, and count
at each place. Numbers are those of one function, so a function inside another one is walked over with
nothing remembered.

Both walks come to the same number of nodes if no shared expression is met twice. `Walk.Exact` says this of
a walk for which the numbers it meets are known: in an unshared tree these are none
(`Node.exact_of_unshared`), and in an expression they are among its parts (`Expr.exact_once`).
-/

namespace HavokScript

/-! ## Walks that remember -/

/-- A walk that remembers the numbers of the shared expressions it was in, and gives the number of nodes it
came to. -/
abbrev Walk := List Nat → Nat × List Nat

namespace Walk

/-- Some nodes without parts. -/
def done (count : Nat) : Walk := fun seen => (count, seen)

/-- One walk after the other. -/
def and (x y : Walk) : Walk := fun seen => ((x seen).1 + (y (x seen).2).1, (y (x seen).2).2)

/-- A node and what is below it. -/
def node (below : Walk) : Walk := fun seen => ((below seen).1 + 1, (below seen).2)

/-- A shared expression, at the first place. -/
def enter (number : Nat) (inside : Walk) : Walk := fun seen =>
  if number ∈ seen then (0, seen) else inside (number :: seen)

/-- A function, in which the numbers have another meaning. -/
def apart (inside : Walk) : Walk := fun seen => ((inside []).1, seen)

end Walk

mutual

/-- The walk over an expression. -/
def Expr.once : Expr → Walk
  | .missing => .done 0
  | .call _ f args => .node (f.once.and (Expr.onceAll args))
  | .binary _ _ l r => .node (l.once.and r.once)
  | .unary _ _ e => .node e.once
  | .table _ ks vs => .node ((Expr.onceAll ks).and (Expr.onceAll vs))
  | .index _ t k => .node (t.once.and k.once)
  | .shared n e => .enter n e.once
  | _ => .done 1

/-- The walk over expressions. -/
def Expr.onceAll : List Expr → Walk
  | [] => .done 0
  | e :: es => e.once.and (Expr.onceAll es)

end

mutual

/-- The walk over a tree. -/
def Node.once : Node → Walk
  | .missing => .done 0
  | .expr e => e.once
  | .chunk _ body | .block _ body => .node (Node.onceAll body)
  | .scope _ body => .node body.once
  | .whileLoop _ c body | .arm _ c body => .node (c.once.and body.once)
  | .repeatLoop _ body c => .node (body.once.and c.once)
  | .branch _ c body arms other =>
    .node (((c.once.and body.once).and (Node.onceAll arms)).and other.once)
  | .numericFor _ _ init limit step body =>
    .node (.node (((init.once.and limit.once).and step.once).and body.once))
  | .genericFor _ vars es body => .node (((Expr.onceAll vars).and (Expr.onceAll es)).and body.once)
  | .function _ name params _ body | .localFunction _ name params _ body =>
    .node ((name.once.and (.done params.length)).and (.apart body.once))
  | .locals _ ts vs | .assign _ ts vs _ => .node ((Expr.onceAll ts).and (Expr.onceAll vs))
  | .returns _ vs => .node (Expr.onceAll vs)
  | .jump .. => .node (.done 0)
  | .test _ c | .forLoop _ c _ => .node c.once
  | .forPrep _ x y z _ => .node (((x.once.and y.once).and z.once).and (.done 1))
  | .tForLoop _ vars => .node (.done vars.length)

/-- The walk over statements. -/
def Node.onceAll : List Node → Walk
  | [] => .done 0
  | n :: ns => n.once.and (Node.onceAll ns)

end

/-- How many nodes a tree has if an expression with parts that stands at several places counts, with the
nodes below it, at the first of them only. -/
def Node.compactSize (n : Node) : Nat := (n.once []).1

/-! ## Walks that meet nothing twice -/

namespace Walk

/-- The walk comes to so many nodes if it meets the numbers for the first time, each of them once, and
remembers them. -/
def Exact (w : Walk) (numbers : List Nat) (count : Nat) : Prop :=
  ∀ seen, numbers.Nodup → numbers.Disjoint seen →
    (w seen).1 = count ∧ (w seen).2.Perm (numbers ++ seen)

variable {x y : Walk} {ms ns : List Nat} {k l : Nat}

namespace Exact

theorem perm (h : Exact x ms k) (hperm : ms.Perm ns) : Exact x ns k := by
  intro seen hnodup hseen
  obtain ⟨hcount, hafter⟩ := h seen (hperm.nodup_iff.mpr hnodup) fun n hn => hseen (hperm.subset hn)
  exact ⟨hcount, hafter.trans (hperm.append_right seen)⟩

theorem done (k : Nat) : Exact (Walk.done k) [] k := fun seen _ _ => ⟨rfl, .refl seen⟩

theorem and (hx : Exact x ms k) (hy : Exact y ns l) : Exact (x.and y) (ms ++ ns) (k + l) := by
  intro seen hnodup hseen
  obtain ⟨hms, hns, hapart⟩ := List.nodup_append.mp hnodup
  rw [List.disjoint_append_left] at hseen
  obtain ⟨hcount, hafter⟩ := hx seen hms hseen.1
  have hfresh : ns.Disjoint (x seen).2 := by
    intro n hn hmem
    rcases List.mem_append.mp (hafter.subset hmem) with hm | hm
    · exact hapart n hm n hn rfl
    · exact hseen.2 hn hm
  obtain ⟨hcount', hafter'⟩ := hy (x seen).2 hns hfresh
  refine ⟨congrArg₂ (· + ·) hcount hcount', hafter'.trans ?_⟩
  rw [List.append_assoc]
  exact (hafter.append_left ns).trans (List.perm_append_comm_assoc ..)

theorem node (h : Exact x ms k) : Exact x.node ms (k + 1) := fun seen hnodup hseen =>
  ⟨congrArg (· + 1) (h seen hnodup hseen).1, (h seen hnodup hseen).2⟩

theorem enter (h : Exact x ms k) (n : Nat) : Exact (x.enter n) (n :: ms) k := by
  intro seen hnodup hseen
  rw [List.nodup_cons] at hnodup
  have hn : n ∉ seen := hseen List.mem_cons_self
  have hfresh : ms.Disjoint (n :: seen) := by
    intro m hm hmem
    rcases List.mem_cons.mp hmem with rfl | hmem
    · exact hnodup.1 hm
    · exact hseen (List.mem_cons_of_mem _ hm) hmem
  obtain ⟨hcount, hafter⟩ := h (n :: seen) hnodup.2 hfresh
  rw [Walk.enter, if_neg hn]
  exact ⟨hcount, hafter.trans List.perm_middle⟩

theorem apart (h : Exact x ms k) (hnodup : ms.Nodup) : Exact x.apart [] k := fun seen _ _ =>
  ⟨(h [] hnodup (List.disjoint_nil_right ms)).1, .refl seen⟩

end Exact

end Walk

/-! ## Expressions -/

/-- The number of a place of a shared expression. -/
def Expr.Part.number? : Expr.Part → Option Nat
  | .shared n => some n
  | _ => none

/-- The numbers in an expression, as often as they stand in it. -/
def Expr.numbers (e : Expr) : List Nat := e.parts.filterMap Expr.Part.number?

/-- The numbers in expressions. -/
def Expr.numbersAll (es : List Expr) : List Nat := (Expr.partsAll es).filterMap Expr.Part.number?

namespace Expr

theorem numbersAll_cons (e : Expr) (es : List Expr) : numbersAll (e :: es) = e.numbers ++ numbersAll es :=
  List.filterMap_append

theorem numbersAll_append (es fs : List Expr) :
    numbersAll (es ++ fs) = numbersAll es ++ numbersAll fs := by
  rw [numbersAll, partsAll_append, List.filterMap_append, numbersAll, numbersAll]

theorem count_numbersAll (es : List Expr) (n : Nat) :
    (numbersAll es).count n = (partsAll es).count (.shared n) := by
  rw [numbersAll]
  induction partsAll es with
  | nil => rfl
  | cons p ps ih =>
    cases p with
    | shared m =>
      have hcons : (Part.shared m :: ps).filterMap Part.number? = m :: ps.filterMap Part.number? := rfl
      rw [hcons, List.count_cons, List.count_cons, ih]
      simp
    | _ => rw [List.filterMap_cons_none rfl, ih, List.count_cons_of_ne (by nofun)]

section

variable (a : Int)

@[simp] theorem numbers_call (f : Expr) (args : List Expr) :
    (call a f args).numbers = f.numbers ++ numbersAll args := List.filterMap_append

@[simp] theorem numbers_binary (op : Bytes) (l r : Expr) :
    (binary a op l r).numbers = l.numbers ++ r.numbers := List.filterMap_append

@[simp] theorem numbers_unary (op : Bytes) (e : Expr) : (unary a op e).numbers = e.numbers := rfl

@[simp] theorem numbers_table (ks vs : List Expr) :
    (table a ks vs).numbers = numbersAll ks ++ numbersAll vs := List.filterMap_append

@[simp] theorem numbers_index (t k : Expr) : (index a t k).numbers = t.numbers ++ k.numbers :=
  List.filterMap_append

end

theorem numbers_of_unshared {e : Expr} (h : e.sharedBound = 0) : e.numbers = [] := by
  refine List.filterMap_eq_nil_iff.mpr fun p hp => ?_
  cases p with
  | shared n => exact absurd hp (shared_not_mem h n)
  | _ => rfl

theorem numbersAll_of_unshared {es : List Expr} (h : sharedBoundAll es = 0) : numbersAll es = [] := by
  refine List.filterMap_eq_nil_iff.mpr fun p hp => ?_
  cases p with
  | shared n => exact absurd hp (shared_not_mem_all h n)
  | _ => rfl

end Expr

mutual

/-- A walk over an expression comes to all its nodes if it meets no shared one twice. -/
theorem Expr.exact_once (e : Expr) : e.once.Exact e.numbers e.size := by
  cases e with
  | missing => exact .done 0
  | call a f args =>
    rw [numbers_call]
    exact (f.exact_once.and (Expr.exact_onceAll args)).node
  | binary a op l r =>
    rw [numbers_binary]
    exact (l.exact_once.and r.exact_once).node
  | unary a op e =>
    rw [numbers_unary]
    exact e.exact_once.node
  | table a ks vs =>
    rw [numbers_table]
    exact ((Expr.exact_onceAll ks).and (Expr.exact_onceAll vs)).node
  | index a t k =>
    rw [numbers_index]
    exact (t.exact_once.and k.exact_once).node
  | shared n e => exact e.exact_once.enter n
  | _ => exact .done 1

theorem Expr.exact_onceAll (es : List Expr) :
    (Expr.onceAll es).Exact (Expr.numbersAll es) (Expr.sizeAll es) := by
  cases es with
  | nil => exact .done 0
  | cons e es =>
    rw [numbersAll_cons]
    exact e.exact_once.and (Expr.exact_onceAll es)

end

theorem Expr.exact_of_unshared {e : Expr} (h : e.sharedBound = 0) : e.once.Exact [] e.size :=
  numbers_of_unshared h ▸ e.exact_once

theorem Expr.exactAll_of_unshared {es : List Expr} (h : Expr.sharedBoundAll es = 0) :
    (Expr.onceAll es).Exact [] (Expr.sizeAll es) :=
  numbersAll_of_unshared h ▸ Expr.exact_onceAll es

/-! ## Trees without shared expressions -/

mutual

theorem Node.exact_of_unshared {n : Node} (h : n.sharedBound = 0) : n.once.Exact [] n.size := by
  have hone : ∀ {e : Expr}, e.sharedBound = 0 → e.once.Exact [] e.size := Expr.exact_of_unshared
  have hall : ∀ {es : List Expr}, Expr.sharedBoundAll es = 0 →
      (Expr.onceAll es).Exact [] (Expr.sizeAll es) := Expr.exactAll_of_unshared
  cases n with
  | missing => exact .done 0
  | expr e => exact hone h
  | chunk a body | block a body =>
    rw [sharedBound] at h
    exact (Node.exactAll_of_unshared h).node
  | scope a body => exact (Node.exact_of_unshared (n := body) h).node
  | whileLoop a c body | arm a c body =>
    rw [sharedBound, Nat.max_eq_zero_iff] at h
    exact ((hone h.1).and (Node.exact_of_unshared h.2)).node
  | repeatLoop a body c =>
    rw [sharedBound, Nat.max_eq_zero_iff] at h
    exact ((Node.exact_of_unshared h.2).and (hone h.1)).node
  | branch a c body arms other =>
    simp only [sharedBound, Nat.max_eq_zero_iff] at h
    obtain ⟨⟨hc, hbody⟩, harms, hother⟩ := h
    exact ((((hone hc).and (Node.exact_of_unshared hbody)).and
      (Node.exactAll_of_unshared harms)).and (Node.exact_of_unshared hother)).node
  | numericFor a v init limit step body =>
    simp only [sharedBound, Nat.max_eq_zero_iff] at h
    obtain ⟨⟨hinit, hlimit⟩, hstep, hbody⟩ := h
    exact ((((Node.exact_of_unshared hinit).and (Node.exact_of_unshared hlimit)).and
      (Node.exact_of_unshared hstep)).and (Node.exact_of_unshared hbody)).node.node
  | genericFor a vars es body =>
    simp only [sharedBound, Nat.max_eq_zero_iff] at h
    exact (((hall h.1.1).and (hall h.1.2)).and (Node.exact_of_unshared h.2)).node
  | function a name params vararg body | localFunction a name params vararg body =>
    rw [sharedBound, Nat.max_eq_zero_iff] at h
    exact (((hone h.1).and (.done params.length)).and
      ((Node.exact_of_unshared h.2).apart List.nodup_nil)).node
  | locals a ts vs | assign a ts vs kept =>
    rw [sharedBound, Nat.max_eq_zero_iff] at h
    exact ((hall h.1).and (hall h.2)).node
  | returns a vs =>
    rw [sharedBound] at h
    exact (hall h).node
  | jump a offset => exact (Walk.Exact.done 0).node
  | test a c | forLoop a c offset => exact (hone (e := c) h).node
  | forPrep a x y z v =>
    simp only [sharedBound, Nat.max_eq_zero_iff] at h
    exact ((((hone h.1.1).and (hone h.1.2)).and (hone h.2)).and (.done 1)).node
  | tForLoop a vars => exact (Walk.Exact.done vars.length).node

theorem Node.exactAll_of_unshared {ns : List Node} (h : Node.sharedBoundAll ns = 0) :
    (Node.onceAll ns).Exact [] (Node.sizeAll ns) := by
  cases ns with
  | nil => exact .done 0
  | cons n ns =>
    rw [Node.sharedBoundAll, Nat.max_eq_zero_iff] at h
    exact (Node.exact_of_unshared h.1).and (Node.exactAll_of_unshared h.2)

end

/-! ## Functions without loops -/

theorem Expr.numbers_of_register {e : Expr} {r : Register} (h : e.register? = some r) :
    e.numbers = [] := by
  cases e with
  | register r => rfl
  | _ => cases h

theorem Expr.numbersAll_places (ts : List Expr) : numbersAll (places ts) = numbersAll ts := by
  induction ts with
  | nil => rfl
  | cons t ts ih =>
    unfold places at ih ⊢
    cases ht : t.register? with
    | none =>
      rw [List.filter_cons_of_pos (by simp [ht]), numbersAll_cons, ih, numbersAll_cons]
    | some r =>
      rw [List.filter_cons_of_neg (by simp [ht]), ih, numbersAll_cons, numbers_of_register ht,
        List.nil_append]

/-- A walk over a filled statement comes to all its nodes if it meets no shared expression twice. -/
theorem Node.Flat.exact_fill {n : Node} (h : n.Flat) (live : Slots Expr) :
    (n.fill live).once.Exact (Expr.numbersAll (n.fill live).expressions) (n.fill live).size := by
  have hone : ∀ e : Expr, e.once.Exact (Expr.numbersAll [e]) e.size := by
    intro e
    rw [Expr.numbersAll_cons]
    exact e.exact_once.perm (.of_eq (List.append_nil _).symm)
  have hsame : (n.fill live).expressions = (n.fill live).operands := by cases h <;> rfl
  rw [hsame]
  cases n with
  | assign a ts vs kept =>
    rw [fill]
    refine ((Expr.exact_onceAll _).and (Expr.exact_onceAll _)).node.perm ?_
    rw [Node.operands, Expr.numbersAll_append, Expr.numbersAll_places]
    exact List.perm_append_comm
  | returns a vs =>
    rw [fill]
    exact (Expr.exact_onceAll _).node
  | test a c | forLoop a c offset =>
    rw [fill]
    exact (hone _).node
  | forPrep a x y z v =>
    rw [fill]
    refine (((((Expr.exact_once _).and (Expr.exact_once _)).and (Expr.exact_once _)).and
      (.done 1)).node.perm ?_)
    simp [Node.operands, Expr.numbersAll, Expr.numbers, Expr.partsAll]
  | jump a offset => exact (Walk.Exact.done 0).node
  | tForLoop a vars => exact (Walk.Exact.done vars.length).node
  | _ => cases h

/-- A run over flat statements fills those that it keeps. -/
theorem Turns.fills_flat {s s' : Scope} {ns ns' : List Node} (h : Turns s ns ns' s')
    (hns : ∀ n ∈ ns, n.Flat) :
    (∀ n' ∈ ns', ∃ (n : Node) (live : Slots Expr), n.Flat ∧ n' = n.fill live) ∧
      Node.readsAll true ns ns' = [] := by
  induction h with
  | nil => exact ⟨nofun, rfl⟩
  | @folded s s' a r v ns ns' hfolded _ ih =>
    rw [List.forall_mem_cons] at hns
    rw [Node.readsAll_folds (hfolded.folds a false)]
    exact ih hns.2
  | @kept s s' n ns ns' hkept _ ih =>
    rw [List.forall_mem_cons] at hns
    obtain ⟨hfilled, hnone⟩ := ih hns.2
    rw [Node.readsAll_stays hkept.folds, hkept.flat.reads_fill, hnone]
    exact ⟨List.forall_mem_cons.mpr ⟨⟨n, s.live, hkept.flat, rfl⟩, hfilled⟩, rfl⟩
  | block =>
    rw [List.forall_mem_cons] at hns
    cases hns.1
  | numeric =>
    rw [List.forall_mem_cons] at hns
    cases hns.1

theorem Node.exact_filled {ns : List Node}
    (h : ∀ n' ∈ ns, ∃ (n : Node) (live : Slots Expr), n.Flat ∧ n' = n.fill live) :
    (Node.onceAll ns).Exact (Expr.numbersAll (Node.expressionsAll ns)) (Node.sizeAll ns) := by
  induction ns with
  | nil => exact .done 0
  | cons n' ns ih =>
    rw [List.forall_mem_cons] at h
    obtain ⟨⟨n, live, hflat, rfl⟩, hns⟩ := h
    rw [expressionsAll, Expr.numbersAll_append]
    exact (hflat.exact_fill live).and (ih hns)

/-- A function without loops is inlined such that no shared expression stands at two places. -/
theorem Declaration.Economical.compactSize {d : Declaration} {body : List Node} {s : Scope}
    (h : d.Economical body) (hflat : ∀ n ∈ d.body, n.Flat) (hturns : Turns d.scope d.body body s) :
    (Node.onceAll body []).1 = Node.sizeAll body := by
  obtain ⟨hfilled, hnone⟩ := hturns.fills_flat hflat
  have hall := h.all
  rw [hnone, List.append_nil] at hall
  have hnodup : (Expr.numbersAll (Node.expressionsAll body)).Nodup := by
    refine List.nodup_iff_count_le_one.mpr fun n => ?_
    rw [Expr.count_numbersAll, ← (Expr.partsAll_perm hall).count_eq]
    exact h.outside.shared n
  exact (Node.exact_filled hfilled [] hnodup (List.disjoint_nil_right _)).1

end HavokScript
