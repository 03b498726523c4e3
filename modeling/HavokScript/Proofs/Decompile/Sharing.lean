import HavokScript.Proofs.Decompile.Potential

/-!
# What inlining duplicates

A value that is folded goes to the one read that its use count promises, so inlining duplicates
nothing; but a bound of a numeric loop keeps its value in the loop, and a later read of the bound's
register gets the value once more. `Code.inlined_unduplicated` says so with the parts of the
expressions of a tree: outside such bounds they are no more often in the inlined tree than in the
counted one, no shared expression stands at two places, and each register node is read at most as often
as its use count says; and the same holds in each such bound by itself. It cannot be said of all of them
together (`Code.inlined_duplicates_rereadBound`). Nodes without a number are told apart by kind, address and
text; a folded value without parts has these to itself (`Code.leaf_count`), so it stands at one place too.

Every statement spends at most what it takes from the potential (`Turns.charged`): a folded value is paid
for by what it is made of, and its register has one read at most.
-/

namespace HavokScript

/-! ## What a tree reads -/

mutual

/-- The expressions that a recovered statement or function reads, before or after inlining. -/
def Node.expressions : Node → List Expr
  | .expr e => [e]
  | .block _ body => Node.expressionsAll body
  | .numericFor _ _ init limit step body =>
    init.expressions ++ limit.expressions ++ step.expressions ++ body.expressions
  | .function _ _ _ _ body => body.expressions
  | n => n.operands

/-- The same for statements. -/
def Node.expressionsAll : List Node → List Expr
  | [] => []
  | n :: ns => n.expressions ++ Node.expressionsAll ns

end

/-- What a bound of a numeric loop reads after inlining, if the value of the bound is read again behind
it, or else if it is not. -/
def Node.boundReads (again : Bool) (n : Node) : Node → List Expr
  | .expr e => if again = n.written.any (fun r => 0 < r.uses) then [e] else []
  | n' => if again then [] else n'.operands

mutual

/-- The expressions that a statement reads after inlining: those in bounds of which the value is read
again behind the bound, or else all others. -/
def Node.reads (again : Bool) : Node → Node → List Expr
  | .block _ body, .block _ body' => Node.readsAll again body body'
  | .numericFor _ _ init limit step body, .numericFor _ _ init' limit' step' body' =>
    init.boundReads again init' ++ limit.boundReads again limit' ++ step.boundReads again step' ++
      body.reads again body'
  | _, n' => if again then [] else n'.operands

/-- The same for statements, of which those that fold are gone after inlining. -/
def Node.readsAll (again : Bool) : List Node → List Node → List Expr
  | n :: ns, n' :: ns' =>
    if n.folds then Node.readsAll again ns (n' :: ns')
    else n.reads again n' ++ Node.readsAll again ns ns'
  | _, _ => []

end

namespace Node

theorem expressionsAll_eq_flatMap (ns : List Node) : expressionsAll ns = ns.flatMap expressions := by
  induction ns with
  | nil => rfl
  | cons n ns ih => rw [expressionsAll, ih, List.flatMap_cons]

theorem expressionsAll_append (ms ns : List Node) :
    expressionsAll (ms ++ ns) = expressionsAll ms ++ expressionsAll ns := by
  simp only [expressionsAll_eq_flatMap, List.flatMap_append]

theorem readsAll_nil (again : Bool) (ns : List Node) : readsAll again ns [] = [] := by
  cases ns <;> rfl

theorem readsAll_folds {n : Node} (h : n.folds) (again : Bool) (ns ns' : List Node) :
    readsAll again (n :: ns) ns' = readsAll again ns ns' := by
  cases ns' with
  | nil => rw [readsAll_nil, readsAll_nil]
  | cons n' ns' => rw [readsAll, if_pos h]

theorem readsAll_stays {n : Node} (h : n.folds = false) (again : Bool) (n' : Node)
    (ns ns' : List Node) :
    readsAll again (n :: ns) (n' :: ns') = n.reads again n' ++ readsAll again ns ns' := by
  rw [readsAll, h]
  rfl

theorem Folded.folds {s : Scope} {r : Register} {v : Expr} (h : Folded s r v) (a : Int)
    (kept : Bool) : (assign a [.register r] [v] kept).folds := by
  rw [Node.folds, folded?_cons _ _ (isCall_of_plain h.plain)]
  change ((if r.uses ≤ 1 then some r else none).map fun r => (r, v)).isSome
  rw [if_pos h.uses]
  rfl

theorem ofExpr_cases (x : Expr) : ofExpr x = .missing ∨ ofExpr x = .expr x := by
  cases x <;> first | exact .inl rfl | exact .inr rfl

/-- A bound that was folded leaves its value, which is read again behind it if its register is. -/
theorem boundReads_value (again : Bool) (a : Int) (r : Register) (vs : List Expr) (kept : Bool)
    (x : Expr) :
    (assign a [.register r] vs kept).boundReads again (.expr x) =
      if again = decide (0 < r.uses) then [x] else [] := by
  have hany : (assign a [.register r] vs kept).written.any (fun r => 0 < r.uses) =
      decide (0 < r.uses) := Bool.or_false _
  rw [boundReads, hany]

theorem Flat.reads_fill {n : Node} (h : n.Flat) (again : Bool) (live : Slots Expr) :
    n.reads again (n.fill live) = if again then [] else (n.fill live).operands := by
  cases h <;> rfl

theorem Flat.expressions {n : Node} (h : n.Flat) : n.expressions = n.operands := by
  cases h <;> rfl

theorem boundReads_fill {n : Node} (h : n.isAssign) (again : Bool) (live : Slots Expr) :
    n.boundReads again (n.fill live) = if again then [] else (n.fill live).operands := by
  cases n <;> first | rfl | cases h

/-- A flat statement reads its expressions before it writes its registers. -/
theorem Flat.accesses_apart {n : Node} (h : n.Flat) (hapart : n.isApart) :
    n.accesses = (Expr.inputsAll n.operands).map .read ++ n.written.map .write := by
  cases n with
  | assign a ts vs kept =>
    rw [accesses, Expr.targetAccesses_apart (isApart_assign hapart), operands,
      Expr.inputsAll_append, List.map_append, List.append_assoc]
    rfl
  | forPrep a x y z v => simp [accesses, operands, written]
  | returns | test | forLoop | jump | tForLoop => simp [accesses, operands, written]
  | _ => cases h

end Node

/-! ## Charges -/

/-- What accesses cost, with others behind them: expressions become others, and the parts of these, with
what is owed behind, are no more than the parts there were, what was owed in front, and the numbers that
were given. So is each of the expressions whose value is read again. -/
structure Charged (k : Expr.Part) (s s' : Scope) (as rest : List Access)
    (before after again : List Expr) : Prop where
  next : s.next ≤ s'.next
  spent : (Expr.partsAll after).count k + s'.supply k rest ≤
    k.owned (Expr.partsAll before) + s.supply k (as ++ rest) + k.minted s.next s'.next
  each : ∀ x ∈ again, x.parts.count k ≤
    k.owned (Expr.partsAll before) + s.supply k (as ++ rest) + k.minted s.next s'.next

namespace Charged

variable {k : Expr.Part} {s t u : Scope} {as bs rest : List Access}
  {before after again before' after' again' : List Expr}

theorem refl : Charged k s s [] rest [] [] [] :=
  ⟨Nat.le_refl _, by simp [Expr.partsAll], nofun⟩

theorem trans (h : Charged k s t as (bs ++ rest) before after again)
    (h' : Charged k t u bs rest before' after' again') :
    Charged k s u (as ++ bs) rest (before ++ before') (after ++ after') (again ++ again') := by
  have hminted := Expr.Part.minted_add (k := k) h.next h'.next
  have hspent := h.spent
  have hspent' := h'.spent
  refine ⟨h.next.trans h'.next, ?_, List.forall_mem_append.mpr ⟨fun x hx => ?_, fun x hx => ?_⟩⟩
  · rw [Expr.partsAll_append, List.count_append, Expr.partsAll_append, Expr.Part.owned_append,
      List.append_assoc]
    omega
  · have heach := h.each x hx
    rw [Expr.partsAll_append, Expr.Part.owned_append, List.append_assoc]
    omega
  · have heach := h'.each x hx
    rw [Expr.partsAll_append, Expr.Part.owned_append, List.append_assoc]
    omega

theorem keeping (rs : List Register) : Charged k s (s.keeping rs) (rs.map .write) rest [] [] [] := by
  refine ⟨Nat.le_of_eq (Scope.next_keeping rs).symm, ?_, nofun⟩
  rw [Scope.supply_keeping]
  simp [Expr.partsAll]

theorem fill {es : List Expr} (hes : Expr.sharedBoundAll es = 0)
    (hbinds : s.live.Binds (Expr.inputsAll es)) :
    Charged k s s ((Expr.inputsAll es).map .read) rest es (Expr.fillAll s.live es) [] := by
  refine ⟨Nat.le_refl _, ?_, nofun⟩
  rw [Expr.count_fillAll hes hbinds, Scope.supply_reads]
  omega

/-- A statement that is kept. -/
theorem kept {n : Node} (h : n.Kept s) (hapart : n.isApart) :
    Charged k s (s.keeping n.written) n.accesses rest n.operands (n.fill s.live).operands [] := by
  rw [h.flat.accesses_apart hapart, h.flat.operands_fill]
  have hfill : Charged k s s ((Expr.inputsAll n.operands).map .read) (n.written.map .write ++ rest)
      n.operands (Expr.fillAll s.live n.operands) [] := fill h.flat.sharedBound_operands h.binds
  simpa using hfill.trans (keeping n.written)

/-- A value that is folded. What stands for its register pays for the reads of it, which are one at
most, or if there are none for the place that the value keeps. -/
theorem folded {r : Register} {v x : Expr} (h : Node.Folded s r v) (hx : x = s.standIn (v.fill s.live))
    (hcovers : Access.Covers (.write r :: rest))
    (hafter : (Expr.partsAll after).count k ≤ if 0 < r.uses then 0 else x.parts.count k)
    (hagain : ∀ y ∈ again, y = x) :
    Charged k s (s.folding r (v.fill s.live)) (v.inputs.map .read ++ [.write r]) rest [v] after
      again := by
  have hcount : x.parts.count k = k.owned v.parts +
      (v.inputs.map fun r => s.live.weight k r.index).sum +
        k.minted s.next (s.numberAfter (v.fill s.live)) := by
    rw [hx, Scope.count_standIn, Expr.count_fill (Expr.sharedBound_of_plain h.plain) h.binds]
  have hfront : s.supply k (v.inputs.map .read ++ [.write r] ++ rest) =
      (v.inputs.map fun r => s.live.weight k r.index).sum +
        (Access.pending (Access.put (s.live.weight k) r.index 0) rest +
          (k.grant r * Access.exposed r.index rest + Access.granted k.grant rest)) := by
    rw [List.append_assoc, Scope.supply_reads]
    rfl
  have hbehind : (s.folding r (v.fill s.live)).supply k rest =
      Access.pending (Access.put (s.live.weight k) r.index 0) rest +
        x.parts.count k * Access.exposed r.index rest + Access.granted k.grant rest := by
    rw [Scope.supply, Scope.folding, Slots.weight_set, Access.pending_put, ← hx]
  have hexposed := hcovers.write
  have huses := h.uses
  have hvalue : Expr.partsAll [v] = v.parts := List.append_nil _
  have hpaid : (Expr.partsAll after).count k + x.parts.count k * Access.exposed r.index rest ≤
      x.parts.count k := by
    split_ifs at hafter with hread
    · have hone : Access.exposed r.index rest ≤ 1 := by omega
      have hle := Nat.mul_le_mul_left (x.parts.count k) hone
      omega
    · have hnone : Access.exposed r.index rest = 0 := by omega
      rw [hnone]
      omega
  refine ⟨Scope.next_le_numberAfter _, ?_, fun y hy => ?_⟩
  · rw [hbehind, hfront, hvalue]
    change _ ≤ _ + _ + k.minted s.next (s.numberAfter (v.fill s.live))
    omega
  · rw [hagain y hy, hcount, hfront, hvalue]
    change _ ≤ _ + _ + k.minted s.next (s.numberAfter (v.fill s.live))
    omega

end Charged

/-- What a folded assignment accesses. -/
theorem Node.accesses_assign_register (a : Int) (r : Register) (v : Expr) (kept : Bool) :
    (Node.assign a [.register r] [v] kept).accesses = v.inputs.map .read ++ [.write r] := by
  rw [accesses, Expr.inputsAll_cons, Expr.inputsAll_nil, List.append_nil]
  rfl

theorem Loads.charged {s s' : Scope} {n n' : Node} (h : Loads s n n' s') (k : Expr.Part)
    (hn : n.Aligned) (hassign : n.isAssign) {rest : List Access}
    (hcovers : Access.Covers (n.accesses ++ rest)) :
    Charged k s s' n.accesses rest n.expressions (n.boundReads false n') (n.boundReads true n') := by
  cases h with
  | @folded a r v hfolded =>
    rw [Node.accesses_assign_register] at hcovers ⊢
    rw [List.append_assoc] at hcovers
    refine .folded hfolded rfl hcovers.append ?_ ?_
    · rcases Node.ofExpr_cases (s.standIn (v.fill s.live)) with hvalue | hvalue
      · rw [hvalue]
        exact Nat.zero_le _
      · rw [hvalue, Node.boundReads_value]
        by_cases hread : 0 < r.uses <;> simp [hread, Expr.partsAll]
    · rcases Node.ofExpr_cases (s.standIn (v.fill s.live)) with hvalue | hvalue
      · rw [hvalue]
        nofun
      · rw [hvalue, Node.boundReads_value]
        split_ifs
        · exact fun y hy => List.mem_singleton.mp hy
        · nofun
  | kept hkept _ =>
    rw [Node.boundReads_fill hassign, Node.boundReads_fill hassign, hkept.flat.expressions]
    cases hn with
    | flat _ hapart => exact .kept hkept hapart
    | block => cases hassign
    | numeric => cases hassign
  | alone hno =>
    rw [hno] at hassign
    cases hassign

/-- What a run spends is paid for. -/
theorem Turns.charged {s s' : Scope} {ns ns' : List Node} (h : Turns s ns ns' s') (k : Expr.Part)
    (hns : ∀ n ∈ ns, n.Aligned) {rest : List Access}
    (hcovers : Access.Covers (Node.accessesAll ns ++ rest)) :
    Charged k s s' (Node.accessesAll ns) rest (Node.expressionsAll ns) (Node.readsAll false ns ns')
      (Node.readsAll true ns ns') := by
  induction h generalizing rest with
  | nil => exact .refl
  | @folded s s' a r v ns ns' hfolded _ ih =>
    rw [List.forall_mem_cons] at hns
    rw [Node.accessesAll, List.append_assoc] at hcovers
    rw [Node.readsAll_folds (hfolded.folds a false), Node.readsAll_folds (hfolded.folds a false)]
    have hrest := ih hns.2 hcovers.append
    rw [Node.accesses_assign_register, List.append_assoc] at hcovers
    rw [Node.accessesAll, Node.accesses_assign_register]
    have hfold : Charged k s (s.folding r (v.fill s.live)) (v.inputs.map .read ++ [.write r])
        (Node.accessesAll ns ++ rest) [v] [] [] :=
      .folded hfolded rfl hcovers.append (Nat.zero_le _) (List.forall_mem_nil _)
    exact hfold.trans hrest
  | @kept s s' n ns ns' hkept _ ih =>
    rw [List.forall_mem_cons] at hns
    rw [Node.accessesAll, List.append_assoc] at hcovers
    rw [Node.readsAll_stays hkept.folds, Node.readsAll_stays hkept.folds, hkept.flat.reads_fill,
      hkept.flat.reads_fill, Node.expressionsAll, hkept.flat.expressions, Node.accessesAll]
    have hflat : n.isApart := by
      cases hns.1 with
      | flat _ hapart => exact hapart
      | block => cases hkept.flat
      | numeric => cases hkept.flat
    exact (Charged.kept hkept hflat).trans (ih hns.2 hcovers.append)
  | @block s t s' a body body' ns ns' _ _ ihinner ihrest =>
    rw [List.forall_mem_cons] at hns
    have hbody : ∀ n ∈ body, n.Aligned := by
      cases hns.1 with
      | flat hflat _ => cases hflat
      | block hbody => exact hbody
    rw [Node.accessesAll, Node.accesses] at hcovers ⊢
    rw [Node.readsAll_stays rfl, Node.readsAll_stays rfl]
    simp only [List.append_assoc] at hcovers ⊢
    exact (Charged.keeping _).trans ((ihinner hbody hcovers.append).trans
      (ihrest hns.2 hcovers.append.append))
  | @numeric s t u w x s' a b v init init' limit limit' step step' body body' ns ns' hinit hlimit
      hstep _ _ ihinner ihrest =>
    rw [List.forall_mem_cons] at hns
    cases hns.1 with
    | flat hflat _ => cases hflat
    | numeric hinit' hlimit' hstep' hbounds hbody =>
      simp only [Node.boundsAssigned, Bool.and_eq_true] at hbounds
      obtain ⟨⟨hinits, hlimits⟩, hsteps⟩ := hbounds
      rw [Node.accessesAll, Node.accesses, Node.accesses] at hcovers ⊢
      rw [Node.readsAll_stays rfl, Node.readsAll_stays rfl]
      simp only [List.append_assoc, List.cons_append] at hcovers
      have hbehind : Access.Covers ((v :: Node.iterators body).map .write ++
          (Node.accessesAll body ++ (Node.accessesAll ns ++ rest))) := hcovers.append.append.append
      have hcharged := (hinit.charged k hinit' hinits hcovers).trans
        (hlimit.charged k hlimit' hlimits hcovers.append) |>.trans
        (hstep.charged k hstep' hsteps hcovers.append.append) |>.trans
        (.keeping (v :: Node.iterators body)) |>.trans
        (ihinner hbody hbehind.append) |>.trans (ihrest hns.2 hbehind.append.append)
      simpa [Node.expressionsAll, Node.expressions, Node.reads] using hcharged

/-! ## All that a tree reads -/

theorem perm_interleave {α : Type} {as as' bs bs' cs cs' : List α} (h : (as ++ bs).Perm cs)
    (h' : (as' ++ bs').Perm cs') : (as ++ as' ++ (bs ++ bs')).Perm (cs ++ cs') := by
  refine .trans ?_ (h.append h')
  rw [List.append_assoc, List.append_assoc]
  exact (List.perm_append_comm_assoc as' bs bs').append_left as

theorem Loads.expressions_perm {s s' : Scope} {n n' : Node} (h : Loads s n n' s')
    (hassign : n.isAssign) :
    (n.boundReads false n' ++ n.boundReads true n').Perm n'.expressions := by
  cases h with
  | @folded a r v _ =>
    rcases Node.ofExpr_cases (s.standIn (v.fill s.live)) with hvalue | hvalue
    · rw [hvalue]
      exact .refl _
    · rw [hvalue, Node.boundReads_value, Node.boundReads_value]
      by_cases hread : 0 < r.uses <;> simp [hread, Node.expressions]
  | kept hkept _ =>
    rw [Node.boundReads_fill hassign, Node.boundReads_fill hassign]
    cases n with
    | assign a ts vs kept => exact .of_eq (List.append_nil _)
    | _ => cases hassign
  | alone hno =>
    rw [hno] at hassign
    cases hassign

/-- What is read again and what is not are all that is read. -/
theorem Turns.expressions_perm {s s' : Scope} {ns ns' : List Node} (h : Turns s ns ns' s')
    (hns : ∀ n ∈ ns, n.Aligned) :
    (Node.readsAll false ns ns' ++ Node.readsAll true ns ns').Perm (Node.expressionsAll ns') := by
  induction h with
  | nil => exact .refl _
  | @folded s s' a r v ns ns' hfolded _ ih =>
    rw [List.forall_mem_cons] at hns
    rw [Node.readsAll_folds (hfolded.folds a false), Node.readsAll_folds (hfolded.folds a false)]
    exact ih hns.2
  | @kept s s' n ns ns' hkept _ ih =>
    rw [List.forall_mem_cons] at hns
    rw [Node.readsAll_stays hkept.folds, Node.readsAll_stays hkept.folds, hkept.flat.reads_fill,
      hkept.flat.reads_fill]
    refine perm_interleave ?_ (ih hns.2)
    have hsame : (n.fill s.live).expressions = (n.fill s.live).operands := by
      cases hkept.flat <;> rfl
    rw [hsame]
    exact .of_eq (List.append_nil _)
  | block _ _ ihinner ihrest =>
    rw [List.forall_mem_cons] at hns
    rw [Node.readsAll_stays rfl, Node.readsAll_stays rfl]
    cases hns.1 with
    | flat hflat _ => cases hflat
    | block hbody => exact perm_interleave (ihinner hbody) (ihrest hns.2)
  | numeric hinit hlimit hstep _ _ ihinner ihrest =>
    rw [List.forall_mem_cons] at hns
    rw [Node.readsAll_stays rfl, Node.readsAll_stays rfl]
    cases hns.1 with
    | flat hflat _ => cases hflat
    | numeric _ _ _ hbounds hbody =>
      simp only [Node.boundsAssigned, Bool.and_eq_true] at hbounds
      obtain ⟨⟨hinits, hlimits⟩, hsteps⟩ := hbounds
      have hloads := perm_interleave (perm_interleave (hinit.expressions_perm hinits)
        (hlimit.expressions_perm hlimits)) (hstep.expressions_perm hsteps)
      exact perm_interleave (perm_interleave hloads (ihinner hbody)) (ihrest hns.2)

theorem append_subset_append {α : Type} {as as' bs bs' : List α} (h : as ⊆ bs) (h' : as' ⊆ bs') :
    as ++ as' ⊆ bs ++ bs' :=
  List.append_subset.mpr ⟨List.subset_append_of_subset_left _ h, List.subset_append_of_subset_right _ h'⟩

theorem Loads.written_subset {s s' : Scope} {n n' : Node} (h : Loads s n n' s') :
    n'.written ⊆ n.written := by
  cases h with
  | @folded a r v _ =>
    rcases Node.ofExpr_cases (s.standIn (v.fill s.live)) with hvalue | hvalue <;> rw [hvalue] <;> nofun
  | kept _ _ =>
    rw [Node.written_fill]
    exact List.Subset.refl _
  | alone _ => exact List.Subset.refl _

/-- Inlining only leaves out writes. -/
theorem Turns.written_subset {s s' : Scope} {ns ns' : List Node} (h : Turns s ns ns' s') :
    Node.writtenAll ns' ⊆ Node.writtenAll ns := by
  induction h with
  | nil => exact List.Subset.refl _
  | folded _ _ ih => exact List.subset_append_of_subset_right _ ih
  | kept _ _ ih =>
    rw [Node.writtenAll, Node.written_fill]
    exact append_subset_append (List.Subset.refl _) ih
  | block _ _ ihinner ihrest => exact append_subset_append ihinner ihrest
  | numeric hinit hlimit hstep _ _ ihinner ihrest =>
    have hloads := append_subset_append (append_subset_append hinit.written_subset
      hlimit.written_subset) hstep.written_subset
    exact append_subset_append (append_subset_append hloads (List.cons_subset_cons _ ihinner)) ihrest

/-! ## Unshared trees -/

mutual

theorem Expr.shared_not_mem {e : Expr} (h : e.sharedBound = 0) (m : Nat) : .shared m ∉ e.parts := by
  cases e with
  | call a f args =>
    rw [sharedBound, Nat.max_eq_zero_iff] at h
    simp [parts, part, Expr.shared_not_mem h.1 m, Expr.shared_not_mem_all h.2 m]
  | binary a op l r =>
    rw [sharedBound, Nat.max_eq_zero_iff] at h
    simp [parts, part, Expr.shared_not_mem h.1 m, Expr.shared_not_mem h.2 m]
  | unary a op e =>
    rw [sharedBound] at h
    simp [parts, part, Expr.shared_not_mem h m]
  | table a ks vs =>
    rw [sharedBound, Nat.max_eq_zero_iff] at h
    simp [parts, part, Expr.shared_not_mem_all h.1 m, Expr.shared_not_mem_all h.2 m]
  | index a t k =>
    rw [sharedBound, Nat.max_eq_zero_iff] at h
    simp [parts, part, Expr.shared_not_mem h.1 m, Expr.shared_not_mem h.2 m]
  | shared n e =>
    rw [sharedBound] at h
    omega
  | _ => simp [parts, part]

theorem Expr.shared_not_mem_all {es : List Expr} (h : Expr.sharedBoundAll es = 0) (m : Nat) :
    .shared m ∉ Expr.partsAll es := by
  cases es with
  | nil => nofun
  | cons e es =>
    rw [sharedBoundAll, Nat.max_eq_zero_iff] at h
    simp [partsAll, Expr.shared_not_mem h.1 m, Expr.shared_not_mem_all h.2 m]

end

theorem Node.forall_expressionsAll {P : Expr → Prop} {ns : List Node}
    (h : ∀ n ∈ ns, ∀ e ∈ n.expressions, P e) : ∀ e ∈ Node.expressionsAll ns, P e := by
  intro e he
  rw [expressionsAll_eq_flatMap] at he
  obtain ⟨n, hn, he⟩ := List.mem_flatMap.mp he
  exact h n hn e he

theorem Node.Aligned.unshared {n : Node} (h : n.Aligned) : ∀ e ∈ n.expressions, e.sharedBound = 0 := by
  induction h with
  | flat hflat _ =>
    rw [hflat.expressions]
    exact Expr.sharedBoundAll_eq_zero.mp hflat.sharedBound_operands
  | block _ ih => exact forall_expressionsAll ih
  | numeric _ _ _ _ _ ihinit ihlimit ihstep ihbody =>
    simp only [expressions, List.forall_mem_append]
    exact ⟨⟨⟨ihinit, ihlimit⟩, ihstep⟩, forall_expressionsAll ihbody⟩

/-! ## Functions -/

/-- Nothing is duplicated in expressions that were made of those of a function. -/
structure Declaration.Unduplicated (d : Declaration) (es : List Expr) : Prop where
  /-- no node stands at more places than before -/
  nodes : ∀ kind a label, (Expr.partsAll es).count (.node kind a label) ≤
    (Expr.partsAll (Node.expressionsAll d.body)).count (.node kind a label)
  /-- no folded value stands at two places -/
  shared : ∀ n, (Expr.partsAll es).count (.shared n) ≤ 1
  /-- a register node is read no more often than its use count says -/
  reads : ∀ r ∈ d.registers, ((Expr.partsAll es).count (.read r.id) : Int) ≤ r.uses

/-- What inlining makes of the body of a function. -/
structure Declaration.Economical (d : Declaration) (body : List Node) : Prop where
  /-- nothing is duplicated outside of bounds of which the value is read again -/
  outside : d.Unduplicated (Node.readsAll false d.body body)
  /-- nor in any of these -/
  bounds : ∀ e ∈ Node.readsAll true d.body body, d.Unduplicated [e]
  /-- together these are all expressions -/
  all : (Node.readsAll false d.body body ++ Node.readsAll true d.body body).Perm
    (Node.expressionsAll body)
  /-- a register node that is written and whose use count is zero is read nowhere -/
  unused : ∀ r ∈ d.parameters ++ Node.writtenAll body, r.uses ≤ 0 →
    .read r.id ∉ Expr.partsAll (Node.expressionsAll body)

namespace Declaration

variable {d : Declaration} {t : Tally}

theorem recovered_addReads (h : ∀ n ∈ d.body, n.Recovered) (reads : List Nat) :
    ∀ n ∈ (d.addReads reads).body, n.Recovered :=
  forall_addReadsAll fun n hn => (h n hn).addReads reads

/-- After counting, the use count of a register node is how often it was read. -/
theorem uses_addReads (h : ∀ n ∈ d.body, n.Recovered) (hunread : ∀ r ∈ d.registers, r.uses = 0)
    (hfew : d.registers.length < 2 ^ 63)
    (hrun : Tally.performAll d.accesses Tally.empty = .ok ((), t)) :
    ∀ r ∈ (d.addReads t.reads).registers, r.uses = t.reads.count r.id := by
  intro r hr
  rw [registers_addReads h] at hr
  obtain ⟨q, hq, rfl⟩ := List.mem_map.mp hr
  obtain ⟨-, hreads, hlength⟩ := Access.performAll_ok hrun
  have hle : t.reads.count q.id ≤ d.registers.length := by
    refine List.count_le_length.trans ?_
    rw [hreads, List.length_reverse, List.length_map, hlength, (registers_perm h).length_eq,
      List.length_append]
    exact Nat.le_add_left _ _
  change wrap64 (q.uses + t.reads.count q.id) = t.reads.count q.id
  rw [hunread q hq, Int.zero_add, wrap64, Int.bmod_def]
  omega

theorem Expr.Part.grant_read (id : Nat) :
    (Expr.Part.read id).grant = fun r => if r.id = id then 1 else 0 := by
  funext r
  simp [Expr.Part.grant, List.count_singleton]

/-- What writes grant for a register node is how often it is read. -/
theorem granted_read (id : Nat) (hrun : Tally.performAll d.accesses Tally.empty = .ok ((), t)) :
    Access.granted (Expr.Part.read id).grant d.accesses = t.reads.count id := by
  have hcount := Access.count_reads id hrun
  have hnone : (fun q => if Tally.empty.live q = some id then 1 else 0) = fun _ => 0 := rfl
  rw [hnone, Access.pending_zero, ← Expr.Part.grant_read] at hcount
  simpa [Tally.empty] using hcount.symm

theorem covers (h : ∀ n ∈ d.body, n.Recovered)
    (huses : ∀ r ∈ d.registers, r.uses = t.reads.count r.id)
    (hrun : Tally.performAll d.accesses Tally.empty = .ok ((), t)) : Access.Covers d.accesses := by
  intro before r after has
  have hwrite : .write r ∈ d.accesses := by simp [has]
  have hgranted := granted_read r.id hrun
  have hle := Access.granted_le (Expr.Part.read r.id).grant before (.write r :: after)
  have hgrant : (Expr.Part.read r.id).grant r = 1 := List.count_singleton_self
  rw [← has, hgranted, Access.granted, hgrant, Nat.one_mul] at hle
  rw [huses r (mem_registers_of_write h hwrite)]
  omega

/-- All that is owed to a function is what its writes grant. -/
theorem supply_scope (k : Expr.Part) :
    d.scope.supply k (Node.accessesAll d.body) = Access.granted k.grant d.accesses := by
  have hweight : Slots.weight (Scope.start 0).live k = fun _ => 0 := rfl
  rw [scope, Scope.supply_keeping, Scope.supply, hweight, Access.pending_zero, Nat.zero_add,
    List.map_append, List.append_assoc]
  rfl

/-- Expressions of which the parts are paid for are not duplicated. -/
theorem unduplicated_of_le {es : List Expr} {m : Nat}
    (hunshared : ∀ e ∈ Node.expressionsAll d.body, e.sharedBound = 0)
    (huses : ∀ r ∈ d.registers, r.uses = t.reads.count r.id)
    (hrun : Tally.performAll d.accesses Tally.empty = .ok ((), t))
    (h : ∀ k : Expr.Part, (Expr.partsAll es).count k ≤
      k.owned (Expr.partsAll (Node.expressionsAll d.body)) + Access.granted k.grant d.accesses +
        k.minted 0 m) : d.Unduplicated es := by
  constructor
  · intro kind a label
    have hk := h (.node kind a label)
    have hgranted : Access.granted (Expr.Part.node kind a label).grant d.accesses = 0 :=
      Access.granted_zero (fun _ => rfl) _
    rwa [hgranted] at hk
  · intro n
    have hk := h (.shared n)
    have hgranted : Access.granted (Expr.Part.shared n).grant d.accesses = 0 :=
      Access.granted_zero (fun _ => rfl) _
    have hnone : Expr.Part.owned (.shared n) (Expr.partsAll (Node.expressionsAll d.body)) = 0 :=
      List.count_eq_zero.mpr (Expr.shared_not_mem_all (Expr.sharedBoundAll_eq_zero.mpr hunshared) n)
    have hone : Expr.Part.minted 0 m (.shared n) ≤ 1 := by
      simp only [Expr.Part.minted]
      split_ifs <;> omega
    rw [hgranted, hnone] at hk
    omega
  · intro r hr
    have hk := h (.read r.id)
    rw [granted_read r.id hrun] at hk
    rw [huses r hr]
    have hnone : Expr.Part.owned (.read r.id) (Expr.partsAll (Node.expressionsAll d.body)) +
        t.reads.count r.id + Expr.Part.minted 0 m (.read r.id) = t.reads.count r.id :=
      Nat.zero_add _
    omega

theorem Unduplicated.unread {es : List Expr} (h : d.Unduplicated es) {r : Register}
    (hr : r ∈ d.registers) (hzero : r.uses ≤ 0) : .read r.id ∉ Expr.partsAll es := by
  intro hread
  have hle := h.reads r hr
  have hpos := List.count_pos_iff.mpr hread
  omega

/-- A run over the body of a function of which the uses were counted. -/
theorem economical {body : List Node} {s : Scope} (h : ∀ n ∈ d.body, n.Recovered)
    (haligned : ∀ n ∈ d.body, n.Aligned) (huses : ∀ r ∈ d.registers, r.uses = t.reads.count r.id)
    (hrun : Tally.performAll d.accesses Tally.empty = .ok ((), t))
    (hturns : Turns d.scope d.body body s) : d.Economical body := by
  have hunshared := Node.forall_expressionsAll fun n hn => (haligned n hn).unshared
  have hcovers : Access.Covers (Node.accessesAll d.body ++ []) := by
    have haccesses := covers h huses hrun
    rw [accesses, Node.accesses] at haccesses
    rw [List.append_nil]
    exact haccesses.append.append
  have hcharged : ∀ k, Charged k d.scope s (Node.accessesAll d.body) [] _ _ _ :=
    fun k => hturns.charged k haligned hcovers
  have hnext : d.scope.next = 0 := Scope.next_keeping _
  have hpaid : ∀ {es}, (∀ k : Expr.Part, (Expr.partsAll es).count k ≤
      k.owned (Expr.partsAll (Node.expressionsAll d.body)) +
        d.scope.supply k (Node.accessesAll d.body ++ []) + k.minted d.scope.next s.next) →
      d.Unduplicated es := by
    intro es hes
    refine unduplicated_of_le (m := s.next) hunshared huses hrun fun k => ?_
    have hk := hes k
    rwa [List.append_nil, supply_scope, hnext] at hk
  have houtside : d.Unduplicated (Node.readsAll false d.body body) :=
    hpaid fun k => (Nat.le_add_right _ _).trans (hcharged k).spent
  have hbounds : ∀ e ∈ Node.readsAll true d.body body, d.Unduplicated [e] := by
    refine fun e he => hpaid fun k => ?_
    rw [Expr.partsAll, Expr.partsAll, List.append_nil]
    exact (hcharged k).each e he
  have hall := hturns.expressions_perm haligned
  refine ⟨houtside, hbounds, hall, fun r hr hzero hread => ?_⟩
  have hmem : r ∈ d.registers := by
    refine (registers_perm h).mem_iff.mpr (List.mem_append_left _ ?_)
    exact append_subset_append (List.Subset.refl _) hturns.written_subset hr
  obtain ⟨e, he, hread⟩ := Expr.mem_partsAll.mp hread
  rcases List.mem_append.mp (hall.mem_iff.mpr he) with he | he
  · exact houtside.unread hmem hzero (Expr.mem_partsAll.mpr ⟨e, he, hread⟩)
  · exact (hbounds e he).unread hmem hzero
      (Expr.mem_partsAll.mpr ⟨e, List.mem_singleton_self e, hread⟩)

end Declaration

/-- No register node of a lowered function was read before its uses are counted. -/
theorem Code.unread {c : Code} {d : Declaration} {out : List Node} (hlower : c.lower = .ok d)
    (hout : out = d.body ∨ Loops.recover d.body = .ok out) :
    ∀ r ∈ ({ d with body := out } : Declaration).registers, r.uses = 0 := by
  rcases hout with rfl | hrecover
  · exact (Code.lower_registers hlower).2
  · exact (Code.recovered_registers hlower hrecover).2

/-- Inlining into a counted function is a run over its statements that duplicates nothing but bounds that are
read again. -/
theorem Code.inlined_economical {c : Code} {d : Declaration} {out : List Node} {counted tree : Node}
    (hlower : c.lower = .ok d)
    (hout : out = d.body ∨
      Loops.recover d.body = .ok out ∧ ∀ n ∈ Node.numericLoops out, n.boundsAssigned)
    (hcount : ({ d with body := out } : Declaration).toNode.countUses = .ok counted)
    (hfew : counted.registers.length < 2 ^ 63) (hinline : counted.inlined = .ok tree) :
    ∃ (reads : List Nat) (e : Declaration) (body : List Node) (s : Scope),
      e = ({ d with body := out } : Declaration).addReads reads ∧ counted = e.toNode ∧
      tree = ({ e with body } : Declaration).toNode ∧ Turns e.scope e.body body s ∧
      e.Economical body := by
  have hout' : out = d.body ∨ Loops.recover d.body = .ok out := hout.imp_right And.left
  obtain ⟨hrecovered, t, body, s, hrun, rfl, hturns, rfl⟩ :=
    Code.inlined_turns hlower hout' hcount hinline
  have haligned := Code.aligned hlower hout
  rw [Declaration.registers_toNode, Declaration.registers_addReads hrecovered, List.length_map] at hfew
  have huses := Declaration.uses_addReads hrecovered (Code.unread hlower hout') hfew hrun
  rw [← Declaration.performAll_addReads haligned t.reads] at hrun
  exact ⟨t.reads, _, body, s, rfl, rfl, rfl, hturns, Declaration.economical
    (Declaration.recovered_addReads hrecovered t.reads)
    (forall_addReadsAll fun n hn => (haligned n hn).addReads t.reads) huses hrun hturns⟩

/-- **Inlining duplicates nothing but bounds that are read again.** In a function that was lowered, and
also when its loops were recovered and have assignments for their bounds, the expressions fall into those
outside of bounds of which the value is read again, and these bounds. In the first, and in each of the
others by itself, no node stands at more places than before inlining, no folded value stands at two, and
no register node is read more often than its use count says; and a register node that is written and has
the use count zero is read nowhere. -/
theorem Code.inlined_unduplicated {c : Code} {d : Declaration} {out : List Node}
    {counted tree : Node} (hlower : c.lower = .ok d)
    (hout : out = d.body ∨
      Loops.recover d.body = .ok out ∧ ∀ n ∈ Node.numericLoops out, n.boundsAssigned)
    (hcount : ({ d with body := out } : Declaration).toNode.countUses = .ok counted)
    (hfew : counted.registers.length < 2 ^ 63) (hinline : counted.inlined = .ok tree) :
    ∃ (e : Declaration) (body : List Node), counted = e.toNode ∧
      tree = ({ e with body } : Declaration).toNode ∧ e.Economical body := by
  obtain ⟨-, e, body, -, -, hcounted, htree, -, heconomical⟩ :=
    Code.inlined_economical hlower hout hcount hfew hinline
  exact ⟨e, body, hcounted, htree, heconomical⟩

/-- A loop of which the first bound is the sum of R0 and R0 in R1, and of which the body reads R1. -/
def Code.rereadBound : Code :=
  .ofWords 1 [Word.ofABC 40 1 0 0, Word.ofABC 7 2 0 0, Word.ofABC 7 3 0 0, Word.ofAsBx 62 1 1,
    Word.ofABC 1 1 0 0, Word.ofAsBx 63 1 (-2), Word.ofABC 9 0 1 0]

theorem Code.inlined_unduplicated_rereadBound :
    ∃ (d : Declaration) (out : List Node) (counted tree : Node), Code.rereadBound.lower = .ok d ∧
      Loops.recover d.body = .ok out ∧ (∀ n ∈ Node.numericLoops out, n.boundsAssigned) ∧
      ({ d with body := out } : Declaration).toNode.countUses = .ok counted ∧
      counted.registers.length < 2 ^ 63 ∧ counted.inlined = .ok tree ∧
      ∃ (e : Declaration) (body : List Node), counted = e.toNode ∧
        tree = ({ e with body } : Declaration).toNode ∧ e.Economical body := by
  obtain ⟨d', counted, tree, hd, hcount, hinline, hrun⟩ := bothPasses_any
    (x := Code.rereadBound.withLoops)
    (P := fun d counted _ => (Node.numericLoops d.body).all Node.boundsAssigned &&
      counted.registers.length < 2 ^ 63)
    (by decide +kernel)
  obtain ⟨d, out, hlower, hrecover, rfl⟩ := Code.withLoops_ok hd
  rw [Bool.and_eq_true, List.all_eq_true, decide_eq_true_eq] at hrun
  exact ⟨d, out, counted, tree, hlower, hrecover, hrun.1, hcount, hrun.2, hinline,
    Code.inlined_unduplicated hlower (.inr ⟨hrecover, hrun.1⟩) hcount hrun.2 hinline⟩

/-- Its sum stands at two places after inlining, and R0 is read six times where its use count is four. -/
theorem Code.inlined_duplicates_rereadBound :
    ∃ (d : Declaration) (out : List Node) (counted tree : Node), Code.rereadBound.lower = .ok d ∧
      Loops.recover d.body = .ok out ∧ (∀ n ∈ Node.numericLoops out, n.boundsAssigned) ∧
      ({ d with body := out } : Declaration).toNode.countUses = .ok counted ∧
      counted.inlined = .ok tree ∧
      ∃ (e : Declaration) (body : List Node), counted = e.toNode ∧
        tree = ({ e with body } : Declaration).toNode ∧
        (Expr.partsAll (Node.expressionsAll body)).count (.shared 0) = 2 ∧
        (∃ r ∈ e.registers, r.uses = 4 ∧
          (Expr.partsAll (Node.expressionsAll body)).count (.read r.id) = 6) ∧
        ¬ e.Unduplicated (Node.expressionsAll body) := by
  obtain ⟨d', counted, tree, hd, hcount, hinline, hrun⟩ := bothPasses_any
    (x := Code.rereadBound.withLoops)
    (P := fun d counted tree => (Node.numericLoops d.body).all Node.boundsAssigned &&
      ((Expr.partsAll tree.expressions).count (.shared 0) == 2 &&
        counted.registers.any fun r =>
          r.uses == 4 && (Expr.partsAll tree.expressions).count (.read r.id) == 6))
    (by decide +kernel)
  obtain ⟨d, out, hlower, hrecover, rfl⟩ := Code.withLoops_ok hd
  obtain ⟨-, t, body, s, -, rfl, -, rfl⟩ :=
    Code.inlined_turns hlower (.inr hrecover) hcount hinline
  rw [Bool.and_eq_true, List.all_eq_true] at hrun
  obtain ⟨hbounds, hcounts⟩ := hrun
  obtain ⟨htwice, hreads⟩ := Bool.and_eq_true_iff.mp hcounts
  simp only [List.any_eq_true, Bool.and_eq_true, beq_iff_eq] at htwice hreads
  obtain ⟨r, hr, huses, hcount'⟩ := hreads
  rw [Declaration.registers_toNode] at hr
  refine ⟨d, out, _, _, hlower, hrecover, hbounds, hcount, hinline, _, body, rfl, rfl, htwice,
    ⟨r, hr, huses, hcount'⟩, fun h => ?_⟩
  have hone := h.shared 0
  have htwo : (Expr.partsAll (Node.expressionsAll body)).count (.shared 0) = 2 := htwice
  omega

end HavokScript
