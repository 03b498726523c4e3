import HavokScript.Proofs.Decompile.CompactSize
import Mathlib.Algebra.Order.BigOperators.Group.List
import Mathlib.Algebra.Order.Group.Nat

/-!
# Inlining makes no nodes

A value with parts that is folded becomes one shared expression, however often it is read, so an inlined
tree has no larger compact size than the tree it was made of (`Turns.compactSize_le`).

What is folded pays for itself: `Prices` has a price for each number that was given, the size of the value as
it was before anything was filled into it. A walk pays for the nodes it comes to, and where it enters a
shared expression for the first time it may spend the price of its number (`Walk.Paid`). So a read that is
filled costs no more than the register that stood there.
-/

namespace HavokScript

/-! ## Prices -/

/-- Numbers of shared expressions, each with a price. -/
abbrev Prices := List (Nat × Nat)

/-- What is left to spend on shared expressions that were not entered yet. -/
def Prices.left (prices : Prices) (seen : List Nat) : Nat :=
  (prices.map fun p => if p.1 ∈ seen then 0 else p.2).sum

/-- All prices together. -/
def Prices.total (prices : Prices) : Nat := prices.left []

namespace Prices

variable {prices more : Prices} {seen seen' : List Nat}

theorem left_append (prices more : Prices) (seen : List Nat) :
    (more ++ prices).left seen = Prices.left more seen + prices.left seen := by
  rw [left, List.map_append, List.sum_append, left, left]

theorem total_append (prices more : Prices) :
    total (more ++ prices) = total more + prices.total := left_append prices more []

theorem left_le (prices : Prices) (h : seen ⊆ seen') : prices.left seen' ≤ prices.left seen := by
  refine List.sum_le_sum fun p _ => ?_
  by_cases hp : p.1 ∈ seen
  · rw [if_pos (h hp)]
    exact Nat.zero_le _
  · rw [if_neg hp]
    split_ifs
    · exact Nat.zero_le _
    · exact Nat.le_refl _

/-- The price of a number that is entered for the first time was left. -/
theorem left_enter {n k : Nat} (hmem : (n, k) ∈ prices) (hn : n ∉ seen) :
    k + prices.left (n :: seen) ≤ prices.left seen := by
  induction prices with
  | nil => cases hmem
  | cons p prices ih =>
    simp only [left, List.map_cons, List.sum_cons] at ih ⊢
    rcases List.mem_cons.mp hmem with rfl | hmem
    · have hle := left_le prices (List.subset_cons_self n seen)
      unfold left at hle
      rw [if_pos List.mem_cons_self, if_neg hn]
      omega
    · have hle := left_le [p] (List.subset_cons_self n seen)
      simp only [left, List.map_cons, List.map_nil, List.sum_cons, List.sum_nil] at hle
      have := ih hmem
      omega

end Prices

/-! ## Walks that are paid -/

namespace Walk

/-- The walk comes to as many nodes as there is credit, and as it spends prices of expressions it enters. -/
def Paid (prices : Prices) (credit : Nat) (w : Walk) : Prop :=
  ∀ seen, seen ⊆ (w seen).2 ∧ (w seen).1 + prices.left (w seen).2 ≤ credit + prices.left seen

variable {prices : Prices} {x y : Walk} {c d : Nat}

namespace Paid

theorem le (h : Paid prices c x) (hle : c ≤ d) : Paid prices d x := fun seen =>
  ⟨(h seen).1, by have := (h seen).2; omega⟩

/-- More prices. -/
theorem more (h : Paid prices c x) (more : Prices) : Paid (more ++ prices) c x := by
  intro seen
  obtain ⟨hsub, hle⟩ := h seen
  have := Prices.left_le more hsub
  rw [Prices.left_append, Prices.left_append]
  exact ⟨hsub, by omega⟩

theorem done (k : Nat) : Paid prices k (Walk.done k) := fun seen => ⟨List.Subset.refl seen, Nat.le_refl _⟩

theorem and (hx : Paid prices c x) (hy : Paid prices d y) : Paid prices (c + d) (x.and y) := by
  intro seen
  obtain ⟨hsub, hle⟩ := hx seen
  obtain ⟨hsub', hle'⟩ := hy (x seen).2
  refine ⟨List.Subset.trans hsub hsub', ?_⟩
  change (x seen).1 + (y (x seen).2).1 + prices.left (y (x seen).2).2 ≤ _
  omega

theorem node (h : Paid prices c x) : Paid prices (c + 1) x.node := by
  intro seen
  obtain ⟨hsub, hle⟩ := h seen
  refine ⟨hsub, ?_⟩
  change (x seen).1 + 1 + prices.left (x seen).2 ≤ _
  omega

theorem enter {n k : Nat} (h : Paid prices k x) (hn : (n, k) ∈ prices) : Paid prices 0 (x.enter n) := by
  intro seen
  unfold Walk.enter
  split_ifs with hseen
  · exact ⟨List.Subset.refl seen, Nat.le_refl _⟩
  · obtain ⟨hsub, hle⟩ := h (n :: seen)
    have := Prices.left_enter hn hseen
    exact ⟨List.Subset.trans (List.subset_cons_self n seen) hsub, by omega⟩

end Paid

/-- A walk that meets no shared expression pays for itself. -/
theorem Exact.paid (h : Exact x [] c) : Paid prices c x := by
  intro seen
  obtain ⟨hcount, hafter⟩ := h seen List.nodup_nil (List.disjoint_nil_left seen)
  have hle := Prices.left_le prices hafter.symm.subset
  rw [List.nil_append] at hle
  exact ⟨hafter.symm.subset, by omega⟩

end Walk

/-- Whatever stands for a register costs no more than the register. -/
def Slots.Priced (live : Slots Expr) (prices : Prices) : Prop :=
  live.Forall fun e => e.once.Paid prices 1

theorem Slots.Priced.more {live : Slots Expr} {prices : Prices} (h : live.Priced prices) (more : Prices) :
    live.Priced (more ++ prices) := fun q x hx => (h q x hx).more more

/-! ## Filling -/

mutual

theorem Expr.paid_fill {prices : Prices} {live : Slots Expr} (hlive : live.Priced prices) {e : Expr}
    (he : e.sharedBound = 0) : (e.fill live).once.Paid prices e.size := by
  cases e with
  | register r =>
    rw [fill]
    cases hx : live r.index with
    | none => exact .done 1
    | some x => exact hlive _ x hx
  | call a f args =>
    rw [sharedBound, Nat.max_eq_zero_iff] at he
    exact ((Expr.paid_fill hlive he.1).and (Expr.paid_fillAll hlive he.2)).node
  | binary a op l r =>
    rw [sharedBound, Nat.max_eq_zero_iff] at he
    exact ((Expr.paid_fill hlive he.1).and (Expr.paid_fill hlive he.2)).node
  | unary a op e => exact (Expr.paid_fill hlive (e := e) he).node
  | table a ks vs =>
    rw [sharedBound, Nat.max_eq_zero_iff] at he
    exact ((Expr.paid_fillAll hlive he.1).and (Expr.paid_fillAll hlive he.2)).node
  | index a t k =>
    rw [sharedBound, Nat.max_eq_zero_iff] at he
    exact ((Expr.paid_fill hlive he.1).and (Expr.paid_fill hlive he.2)).node
  | shared n e =>
    rw [sharedBound] at he
    omega
  | missing => exact .done 0
  | _ => exact .done 1

theorem Expr.paid_fillAll {prices : Prices} {live : Slots Expr} (hlive : live.Priced prices)
    {es : List Expr} (hes : Expr.sharedBoundAll es = 0) :
    (Expr.onceAll (Expr.fillAll live es)).Paid prices (Expr.sizeAll es) := by
  cases es with
  | nil => exact .done 0
  | cons e es =>
    rw [Expr.sharedBoundAll, Nat.max_eq_zero_iff] at hes
    exact (Expr.paid_fill hlive hes.1).and (Expr.paid_fillAll hlive hes.2)

end

theorem Expr.paid_fillTargets {prices : Prices} {live : Slots Expr} (hlive : live.Priced prices)
    {ts : List Expr} (hts : Expr.sharedBoundAll ts = 0) :
    (Expr.onceAll (ts.map (Expr.fillTarget live))).Paid prices (Expr.sizeAll ts) := by
  induction ts with
  | nil => exact .done 0
  | cons t ts ih =>
    rw [Expr.sharedBoundAll, Nat.max_eq_zero_iff] at hts
    refine .and ?_ (ih hts.2)
    cases t with
    | register r => exact .done 1
    | _ => exact Expr.paid_fill hlive hts.1

/-- A statement that is filled has no larger compact size than before, what was folded left out. -/
theorem Node.Flat.paid_fill {prices : Prices} {live : Slots Expr} (hlive : live.Priced prices) {n : Node}
    (h : n.Flat) : (n.fill live).once.Paid prices n.size := by
  have hbound := h.sharedBound
  cases n with
  | assign a ts vs kept =>
    rw [Node.sharedBound, Nat.max_eq_zero_iff] at hbound
    exact ((Expr.paid_fillTargets hlive hbound.1).and (Expr.paid_fillAll hlive hbound.2)).node
  | returns a vs =>
    rw [Node.sharedBound] at hbound
    exact (Expr.paid_fillAll hlive hbound).node
  | test a c | forLoop a c offset => exact (Expr.paid_fill (e := c) hlive hbound).node
  | forPrep a x y z v =>
    simp only [Node.sharedBound, Nat.max_eq_zero_iff] at hbound
    exact ((((Expr.paid_fill hlive hbound.1.1).and (Expr.paid_fill hlive hbound.1.2)).and
      (Expr.paid_fill hlive hbound.2)).and (.done 1)).node
  | jump | tForLoop => exact (Node.exact_of_unshared hbound).paid
  | _ => cases h

/-! ## Runs -/

/-- The walk is paid with the prices of what was folded on the way, and together with these it takes no more
than `size`. -/
def Walk.Spends (prices prices' : Prices) (size : Nat) (w : Walk) : Prop :=
  ∃ (more : Prices) (credit : Nat), prices' = more ++ prices ∧ w.Paid prices' credit ∧
    credit + more.total ≤ size

namespace Walk.Spends

variable {prices prices' prices'' : Prices} {x y : Walk} {k l : Nat}

theorem of_paid (h : x.Paid prices k) : Spends prices prices k x := ⟨[], k, rfl, h, Nat.le_refl _⟩

theorem and (hx : Spends prices prices' k x) (hy : Spends prices' prices'' l y) :
    Spends prices prices'' (k + l) (x.and y) := by
  obtain ⟨more, c, rfl, hpaid, hle⟩ := hx
  obtain ⟨more', d, rfl, hpaid', hle'⟩ := hy
  refine ⟨more' ++ more, c + d, (List.append_assoc ..).symm, (hpaid.more more').and hpaid', ?_⟩
  rw [Prices.total_append]
  omega

theorem node (h : Spends prices prices' k x) : Spends prices prices' (k + 1) x.node := by
  obtain ⟨more, c, rfl, hpaid, hle⟩ := h
  exact ⟨more, c + 1, rfl, hpaid.node, by omega⟩

end Walk.Spends

namespace Scope

variable {s : Scope} {prices : Prices}

theorem priced_keeping (h : s.live.Priced prices) (rs : List Register) :
    (s.keeping rs).live.Priced prices := forall_keeping h fun _ _ => .done 1

/-- What stands for a folded value is a shared expression, or the value had no parts. -/
theorem standIn_fill (s : Scope) {v : Expr} (hv : v.sharedBound = 0) :
    s.standIn (v.fill s.live) = .shared s.next (v.fill s.live) ∨
      s.standIn (v.fill s.live) = v.fill s.live ∧ v.size ≤ 1 := by
  cases v with
  | call | binary | unary | table | index => exact .inl rfl
  | register r =>
    have hany : ∀ x : Expr, s.standIn x = .shared s.next x ∨ s.standIn x = x := by
      intro x
      cases x <;> first | exact .inl rfl | exact .inr rfl
    exact (hany _).imp_right fun h => ⟨h, Nat.le_refl 1⟩
  | shared n e =>
    rw [Expr.sharedBound] at hv
    omega
  | missing => exact .inr ⟨rfl, Nat.zero_le 1⟩
  | _ => exact .inr ⟨rfl, Nat.le_refl 1⟩

/-- A value that is folded puts its price down, and what stands for its register then costs no more than
the register. -/
theorem priced_folding (h : s.live.Priced prices) {v : Expr} (hv : v.sharedBound = 0) (r : Register) :
    ∃ more, (s.folding r (v.fill s.live)).live.Priced (more ++ prices) ∧
      (s.standIn (v.fill s.live)).once.Paid (more ++ prices) 1 ∧
      Prices.total more ≤ v.size := by
  have hfill : (v.fill s.live).once.Paid prices v.size := Expr.paid_fill h hv
  suffices hstands : ∃ more, (s.standIn (v.fill s.live)).once.Paid (more ++ prices) 1 ∧
      Prices.total more ≤ v.size by
    obtain ⟨more, hpaid, hle⟩ := hstands
    exact ⟨more, forall_folding (h.more more) hpaid, hpaid, hle⟩
  rcases s.standIn_fill hv with hshared | ⟨hsame, hsize⟩
  · refine ⟨[(s.next, v.size)], ?_, Nat.le_refl _⟩
    rw [hshared]
    exact ((hfill.more _).enter List.mem_cons_self).le (Nat.zero_le 1)
  · rw [hsame]
    exact ⟨[], hfill.le hsize, Nat.zero_le _⟩

end Scope

theorem Node.size_assign (a : Int) (r : Register) (v : Expr) (kept : Bool) :
    (Node.assign a [.register r] [v] kept).size = v.size + 2 := by
  simp only [size, Expr.sizeAll, Expr.size]
  omega

/-- What becomes of a bound spends no more than the bound has nodes. -/
theorem Loads.spends {s s' : Scope} {n n' : Node} (h : Loads s n n' s') (hn : n.sharedBound = 0)
    {prices : Prices} (hs : s.live.Priced prices) :
    ∃ prices', s'.live.Priced prices' ∧ n'.once.Spends prices prices' n.size := by
  cases h with
  | @folded a r v hfolded =>
    obtain ⟨more, hpriced, hpaid, hle⟩ :=
      Scope.priced_folding hs (Expr.sharedBound_of_plain hfolded.plain) r
    refine ⟨more ++ prices, hpriced, more, 1, rfl, ?_, ?_⟩
    · rcases Node.ofExpr_cases (s.standIn (v.fill s.live)) with hvalue | hvalue
      · rw [hvalue]
        exact (Walk.Paid.done 0).le (Nat.zero_le 1)
      · rw [hvalue]
        exact hpaid
    · rw [Node.size_assign]
      omega
  | kept hkept _ => exact ⟨prices, Scope.priced_keeping hs _, .of_paid (hkept.flat.paid_fill hs)⟩
  | alone _ => exact ⟨prices, hs, .of_paid (Node.exact_of_unshared hn).paid⟩

/-- A run spends no more than the statements it goes over have nodes. -/
theorem Turns.spends {s s' : Scope} {ns ns' : List Node} (h : Turns s ns ns' s')
    (hns : Node.sharedBoundAll ns = 0) {prices : Prices} (hs : s.live.Priced prices) :
    ∃ prices', s'.live.Priced prices' ∧
      (Node.onceAll ns').Spends prices prices' (Node.sizeAll ns) := by
  induction h generalizing prices with
  | nil => exact ⟨prices, hs, .of_paid (.done 0)⟩
  | @folded s s' a r v ns ns' hfolded _ ih =>
    rw [Node.sharedBoundAll, Nat.max_eq_zero_iff] at hns
    obtain ⟨more, hpriced, -, hle⟩ :=
      Scope.priced_folding hs (Expr.sharedBound_of_plain hfolded.plain) r
    obtain ⟨prices', hpriced', more', c, rfl, hpaid, hle'⟩ := ih hns.2 hpriced
    refine ⟨_, hpriced', more' ++ more, c, (List.append_assoc ..).symm, hpaid, ?_⟩
    rw [Prices.total_append, Node.sizeAll, Node.size_assign]
    omega
  | kept hkept _ ih =>
    rw [Node.sharedBoundAll, Nat.max_eq_zero_iff] at hns
    obtain ⟨prices', hpriced, hspends⟩ := ih hns.2 (Scope.priced_keeping hs _)
    exact ⟨prices', hpriced, (Walk.Spends.of_paid (hkept.flat.paid_fill hs)).and hspends⟩
  | @block s t s' a body body' ns ns' _ _ ihinner ihrest =>
    rw [Node.sharedBoundAll, Nat.max_eq_zero_iff] at hns
    obtain ⟨prices', hpriced, hinner⟩ := ihinner hns.1 (Scope.priced_keeping hs _)
    obtain ⟨prices'', hpriced', hrest⟩ := ihrest hns.2 hpriced
    exact ⟨prices'', hpriced', hinner.node.and hrest⟩
  | @numeric s t u w x s' a b v init init' limit limit' step step' body body' ns ns' hinit hlimit hstep
      _ _ ihinner ihrest =>
    simp only [Node.sharedBoundAll, Node.sharedBound, Nat.max_eq_zero_iff] at hns
    obtain ⟨⟨⟨hinit0, hlimit0⟩, hstep0, hbody0⟩, hrest0⟩ := hns
    obtain ⟨prices1, hpriced, hinit⟩ := hinit.spends hinit0 hs
    obtain ⟨prices2, hpriced, hlimit⟩ := hlimit.spends hlimit0 hpriced
    obtain ⟨prices3, hpriced, hstep⟩ := hstep.spends hstep0 hpriced
    obtain ⟨prices4, hpriced, hinner⟩ := ihinner hbody0 (Scope.priced_keeping hpriced _)
    obtain ⟨prices5, hpriced, hrest⟩ := ihrest hrest0 hpriced
    refine ⟨prices5, hpriced, ?_⟩
    exact (((hinit.and hlimit).and hstep).and hinner.node).node.node.and hrest

/-- **Inlining makes no nodes.** The compact size of the statements of a function is no larger after
inlining than their size was before. -/
theorem Turns.compactSize_le {d : Declaration} {s : Scope} {body : List Node}
    (h : Turns d.scope d.body body s) (hd : d.Unshared) :
    (Node.onceAll body []).1 ≤ Node.sizeAll d.body := by
  have hempty : (Scope.start 0).live.Priced [] := nofun
  obtain ⟨prices, -, more, c, rfl, hpaid, hle⟩ := h.spends hd (Scope.priced_keeping hempty _)
  have hspent := (hpaid []).2
  rw [List.append_nil] at hspent
  unfold Prices.total at hle
  omega

end HavokScript
