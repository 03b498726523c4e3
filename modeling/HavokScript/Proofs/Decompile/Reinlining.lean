import HavokScript.Proofs.Decompile.Settled

/-!
# Inlining again changes nothing

In settled statements each register stands for a register with the same index, so inlining into them
again finds something for every read, folds no assignment, and keeps the shape of every statement
(`Node.Settled.recurs`). Shared expressions get new forms on the way and are brought up to date at the
end of the scope; as all forms of one have the same shape, that changes no shape either
(`Scope.Steady.settle`). With the shapes the text stays the same.
-/

namespace HavokScript

/-! ## Inlining into settled expressions -/

/-- Each register that is bound stands for a register with its index, and what was made of the shared
expressions so far has the shapes that belong to their numbers. -/
structure Scope.Steady (made : List Expr) (bound : Int → Prop) (s : Scope) : Prop where
  holds : s.live.Holds bound
  live : ∀ q x, s.live q = some x → ∃ r : Register, x = .register r ∧ r.index = q
  versions : ∀ n e, s.versions.lookup n = some e → made[n]? = some e.shape

section

variable {made : List Expr} {bound : Int → Prop} {s : Scope}

namespace Scope.Steady

theorem start (b : Nat) : (Scope.start b).Steady made fun _ => False := ⟨nofun, nofun, nofun⟩

theorem keep (h : s.Steady made bound) (r : Register) :
    Scope.Steady made (boundAfter bound [r]) { s with live := s.live.set r.index (.register r) } := by
  refine ⟨h.holds.set r _, fun q x hx => ?_, h.versions⟩
  simp only [Slots.set] at hx
  split at hx
  next hq =>
    cases hx
    exact ⟨r, rfl, hq.symm⟩
  · exact h.live q x hx

theorem keeping (h : s.Steady made bound) (rs : List Register) :
    (s.keeping rs).Steady made (boundAfter bound rs) := by
  induction rs generalizing s bound with
  | nil => rwa [boundAfter_nil]
  | cons r rs ih =>
    rw [boundAfter_cons]
    exact ih (h.keep r)

theorem unwritten (h : s.Steady made bound) : s.Steady made (boundAfter bound []) := h.keeping []

/-- A shared expression got a form of the shape that belongs to its number. -/
theorem record {n : Nat} {e : Expr} (h : s.Steady made bound) (he : made[n]? = some e.shape) :
    Scope.Steady made bound { s with versions := (n, e) :: s.versions } := by
  refine ⟨h.holds, h.live, fun m x hx => ?_⟩
  rw [List.lookup_cons] at hx
  split at hx
  next hm =>
    cases hx
    rw [eq_of_beq hm]
    exact he
  · exact h.versions m x hx

/-- The latest form of a shared expression has its shape. -/
theorem latest {n : Nat} {e : Expr} (h : s.Steady made bound) (he : made[n]? = some e.shape) :
    ((s.versions.lookup n).getD e).shape = e.shape := by
  cases hx : s.versions.lookup n with
  | none => rfl
  | some x =>
    have hshape := h.versions n x hx
    rw [he, Option.some.injEq] at hshape
    exact hshape.symm

end Scope.Steady

/-- Visiting shared expressions keeps their shapes. -/
def Visits (made : List Expr) (bound : Int → Prop) (visit : Nat → Expr → Inlining Expr) : Prop :=
  ∀ n e s, (Expr.shared n e).Sound made bound → s.Steady made bound →
    Succeeds (visit n e) s fun e' s' => e'.shape = (Expr.shared n e).shape ∧ s'.Steady made bound

mutual

/-- Inlining into a sound expression keeps its shape. -/
theorem Expr.Sound.swapWith {visit : Nat → Expr → Inlining Expr} (hvisit : Visits made bound visit)
    {e : Expr} {s : Scope} (he : e.Sound made bound) (hs : s.Steady made bound) :
    Succeeds (e.swapWith visit) s fun e' s' => e'.shape = e.shape ∧ s'.Steady made bound := by
  cases e with
  | register r =>
    obtain ⟨x, hx⟩ := Option.isSome_iff_exists.mp (hs.holds r.index he)
    obtain ⟨q, rfl, hq⟩ := hs.live _ x hx
    refine ⟨.register q, s, ?_, by rw [Expr.shape, hq, Expr.shape], hs⟩
    simp only [Expr.swapWith, Scope.read, hx]
  | call a f args =>
    refine .bind ((Expr.Sound.swapWith hvisit he.1 hs).mono fun f' s hf => ?_)
    refine .bind ((Expr.SoundAll.swapAllWith hvisit he.2 hf.2).mono fun args' s hargs => ?_)
    exact .pure ⟨by rw [Expr.shape, hf.1, hargs.1, Expr.shape], hargs.2⟩
  | binary a op l r =>
    refine .bind ((Expr.Sound.swapWith hvisit he.1 hs).mono fun l' s hl => ?_)
    refine .bind ((Expr.Sound.swapWith hvisit he.2 hl.2).mono fun r' s hr => ?_)
    exact .pure ⟨by rw [Expr.shape, hl.1, hr.1, Expr.shape], hr.2⟩
  | unary a op e =>
    refine .bind ((Expr.Sound.swapWith (e := e) hvisit he hs).mono fun e' s he' => ?_)
    exact .pure ⟨by rw [Expr.shape, he'.1, Expr.shape], he'.2⟩
  | table a ks vs =>
    refine .bind ((Expr.SoundAll.swapAllWith hvisit he.1 hs).mono fun ks' s hks => ?_)
    refine .bind ((Expr.SoundAll.swapAllWith hvisit he.2 hks.2).mono fun vs' s hvs => ?_)
    exact .pure ⟨by rw [Expr.shape, hks.1, hvs.1, Expr.shape], hvs.2⟩
  | index a t k =>
    refine .bind ((Expr.Sound.swapWith hvisit he.1 hs).mono fun t' s ht => ?_)
    refine .bind ((Expr.Sound.swapWith hvisit he.2 ht.2).mono fun k' s hk => ?_)
    exact .pure ⟨by rw [Expr.shape, ht.1, hk.1, Expr.shape], hk.2⟩
  | shared n e => exact hvisit n e s he hs
  | _ => exact .pure ⟨rfl, hs⟩

theorem Expr.SoundAll.swapAllWith {visit : Nat → Expr → Inlining Expr}
    (hvisit : Visits made bound visit) {es : List Expr} {s : Scope}
    (hes : Expr.SoundAll made bound es) (hs : s.Steady made bound) :
    Succeeds (Expr.swapAllWith visit es) s fun es' s' =>
      Expr.shapeAll es' = Expr.shapeAll es ∧ s'.Steady made bound := by
  cases es with
  | nil => exact .pure ⟨rfl, hs⟩
  | cons e es =>
    refine .bind ((Expr.Sound.swapWith hvisit hes.1 hs).mono fun e' s he => ?_)
    refine .bind ((Expr.SoundAll.swapAllWith hvisit hes.2 he.2).mono fun es' s hes => ?_)
    exact .pure ⟨by rw [Expr.shapeAll, he.1, hes.1, Expr.shapeAll], hes.2⟩

end

/-- However deep shared expressions are followed. -/
theorem visits (depth : Nat) : Visits made bound (Expr.visitShared depth) := by
  induction depth with
  | zero => exact fun n e s _ hs => .pure ⟨rfl, hs⟩
  | succ depth ih =>
    intro n e s he hs
    have hlatest := hs.latest he.1
    refine .bind ⟨(s.versions.lookup n).getD e, s, rfl, .bind ?_⟩
    refine ((he.2.of_shape hlatest).swapWith ih hs).mono fun e' s he' => ?_
    have hshape : e'.shape = e.shape := he'.1.trans hlatest
    refine .bind ⟨(), _, rfl, .pure ⟨?_, he'.2.record ?_⟩⟩
    · rw [Expr.shape, hshape, Expr.shape]
    · rw [hshape]
      exact he.1

theorem Expr.SoundAll.swapTargets {ts : List Expr} (depth : Nat)
    (hts : Expr.SoundAll made bound (Expr.places ts)) (hs : s.Steady made bound) :
    Succeeds (Expr.swapTargets depth ts) s fun ts' s' =>
      ts'.map Expr.targetShape = ts.map Expr.targetShape ∧ s'.Steady made bound := by
  induction ts generalizing s with
  | nil => exact .pure ⟨rfl, hs⟩
  | cons e ts ih =>
    cases he : e.register? with
    | some r =>
      cases e with
      | register r =>
        refine .bind ((ih hts hs).mono fun ts' s hts' => ?_)
        exact .pure ⟨by rw [List.map_cons, hts'.1, List.map_cons], hts'.2⟩
      | _ => cases he
    | none =>
      rw [Expr.places, List.filter_cons_of_pos (by rw [he]; rfl)] at hts
      rw [swapTargets_cons depth he]
      refine .bind ((hts.1.swapWith (visits depth) hs).mono fun e' s he' => ?_)
      refine .bind ((ih hts.2 he'.2).mono fun ts' s hts' => ?_)
      refine .pure ⟨?_, hts'.2⟩
      rw [List.map_cons, hts'.1, Expr.targetShape_of_read (Expr.register?_of_shape he'.1 he), he'.1,
        List.map_cons, Expr.targetShape_of_read he]

end

/-! ## Inlining into settled statements -/

/-- What is done to expressions in the end keeps the shapes of those that are sound. -/
structure Mild (made : List Expr) (f : Expr → Expr) : Prop where
  shape : ∀ e, (e.Sound made fun _ => True) → (f e).shape = e.shape
  register : ∀ r, f (.register r) = .register r

namespace Mild

variable {made : List Expr} {bound : Int → Prop} {f : Expr → Expr}

theorem of_shape (hf : Mild made f) {e e' : Expr} (he : e.Sound made bound)
    (h : e'.shape = e.shape) : (f e').shape = e.shape := by
  have hsound := (he.of_shape h).mono (List.prefix_refl made) fun _ _ => trivial
  exact (hf.shape e' hsound).trans h

theorem of_shapeAll (hf : Mild made f) {es es' : List Expr} (hes : Expr.SoundAll made bound es)
    (h : Expr.shapeAll es' = Expr.shapeAll es) : Expr.shapeAll (es'.map f) = Expr.shapeAll es := by
  induction es generalizing es' with
  | nil =>
    cases es' with
    | nil => rfl
    | cons e' es' => cases h
  | cons e es ih =>
    cases es' with
    | nil => cases h
    | cons e' es' =>
      obtain ⟨he, hrest⟩ := List.cons.inj h
      rw [List.map_cons, Expr.shapeAll, hf.of_shape hes.1 he, ih hes.2 hrest, Expr.shapeAll]

theorem of_targetShape (hf : Mild made f) {ts ts' : List Expr}
    (hts : Expr.SoundAll made bound (Expr.places ts))
    (h : ts'.map Expr.targetShape = ts.map Expr.targetShape) :
    (ts'.map f).map Expr.targetShape = ts.map Expr.targetShape := by
  induction ts generalizing ts' with
  | nil =>
    rw [List.map_nil, List.map_eq_nil_iff] at h
    rw [h]
    rfl
  | cons e ts ih =>
    cases ts' with
    | nil => cases h
    | cons e' ts' =>
      obtain ⟨he, hrest⟩ := List.cons.inj h
      have hsame : e'.register? = e.register? := by
        rw [← e'.register?_targetShape, he, e.register?_targetShape]
      cases hr : e.register? with
      | some r =>
        cases e with
        | register r =>
          rw [hr] at hsame
          cases e' with
          | register r' =>
            cases hsame
            rw [List.map_cons, List.map_cons, hf.register, ih hts hrest, List.map_cons, he]
          | _ => cases hsame
        | _ => cases hr
      | none =>
        rw [hr] at hsame
        rw [Expr.places, List.filter_cons_of_pos (by rw [hr]; rfl)] at hts
        rw [Expr.targetShape_of_read hsame, Expr.targetShape_of_read hr] at he
        have hshape := hf.of_shape hts.1 he
        rw [List.map_cons, List.map_cons, ih hts.2 hrest, List.map_cons,
          Expr.targetShape_of_read (Expr.register?_of_shape hshape hr), hshape,
          Expr.targetShape_of_read hr]

end Mild

theorem Expr.loneCall_shapeAll (es : List Expr) :
    Expr.loneCall (Expr.shapeAll es) = Expr.loneCall es := by
  match es with
  | [] => rfl
  | [e] => exact e.isCall_shape
  | _ :: _ :: _ => rfl

theorem Expr.isEmpty_shapeAll (es : List Expr) : (Expr.shapeAll es).isEmpty = es.isEmpty := by
  rw [shapeAll_eq_map, List.isEmpty_map]

theorem Expr.register?_of_targetShape {ts ts' : List Expr}
    (h : ts'.map Expr.targetShape = ts.map Expr.targetShape) :
    ts'.map Expr.register? = ts.map Expr.register? := by
  have hmap : ∀ xs : List Expr,
      (xs.map Expr.targetShape).map Expr.register? = xs.map Expr.register? := by
    intro xs
    rw [List.map_map]
    exact List.map_congr_left fun x _ => x.register?_targetShape
  rw [← hmap ts', h, hmap]

namespace Node

/-- Whatever is done to expressions in the end, the second statement has the shape of the first. -/
def Recurs (made : List Expr) (n n' : Node) : Prop :=
  ∀ f, Mild made f → n.shape = (n'.mapScope f).shape

variable {made : List Expr} {bound : Int → Prop} {s : Scope}

theorem Stays.assign_recurs {a : Int} {ts vs : List Expr} {kept : Bool} (depth : Nat)
    (h : (Node.assign a ts vs kept).Stays made bound) (hs : s.Steady made bound) :
    Succeeds (Scope.assign depth a ts vs kept) s fun r s' => r.2 = none ∧
      (Node.assign a ts vs kept).Recurs made r.1 ∧
        s'.Steady made (boundAfter bound (Node.assign a ts vs kept).written) := by
  cases h with
  | assign hvalues htargets hstays hmarked =>
    refine .bind ((hvalues.swapAllWith (visits depth) hs).mono fun vs' s hvs => ?_)
    refine .bind ((htargets.swapTargets depth hvs.2).mono fun ts' s hts => ?_)
    have hregisters := Expr.register?_of_targetShape hts.1
    have hcall : Expr.loneCall vs' = Expr.loneCall vs := by
      rw [← Expr.loneCall_shapeAll, hvs.1, Expr.loneCall_shapeAll]
    have hempty : vs'.isEmpty = vs.isEmpty := by
      rw [← Expr.isEmpty_shapeAll, hvs.1, Expr.isEmpty_shapeAll]
    rw [folds_assign, ← hcall, ← hempty, ← foldable?_of_map hregisters] at hstays
    -- Every way to go on that is left keeps the targets and the mark.
    have hkeep : ∀ flag, flag = kept →
        Succeeds (do
          Scope.keepTargets ts'
          return (Node.assign a ts' vs' flag, (none : Option Expr))) s fun r s' => r.2 = none ∧
            (Node.assign a ts vs kept).Recurs made r.1 ∧
              s'.Steady made (boundAfter bound (Node.assign a ts vs kept).written) := by
      rintro flag rfl
      refine .bind ⟨(), _, Scope.keepTargets_eq ts', .pure ⟨rfl, fun f hf => ?_, ?_⟩⟩
      · rw [mapScope, shape, shape, hf.of_targetShape htargets hts.1, hf.of_shapeAll hvalues hvs.1]
      · rw [registers_of_map hregisters]
        exact hts.2.keeping _
    cases vs' with
    | nil => exact hkeep kept rfl
    | cons v rest =>
      rw [Expr.loneCall_cons] at hcall hstays
      dsimp only
      split
      next hlone =>
        refine hkeep _ ?_
        rw [← Bool.and_eq_true] at hlone
        rw [hlone] at hcall
        by_cases hone : ts'.length = 1
        · have hlength : ts.length = 1 := by
            rw [← List.length_map Expr.register?, ← hregisters, List.length_map, hone]
          rw [hmarked hcall.symm hlength]
          rfl
        · simp [hone]
      next hlone =>
        rw [← Bool.and_eq_true, Bool.not_eq_true] at hlone
        rw [hlone] at hstays
        have hnone : Scope.foldable? ts' = none := by simpa using hstays
        rw [hnone]
        exact hkeep kept rfl

theorem Stays.recurs {n : Node} (depth : Nat) (h : n.Stays made bound) (hs : s.Steady made bound) :
    Succeeds (n.inline depth) s fun r s' => r.2 = false ∧ n.Recurs made r.1 ∧
      s'.Steady made (boundAfter bound n.written) := by
  cases h with
  | assign hvalues htargets hstays hmarked =>
    refine .bind ((Stays.assign_recurs depth (.assign hvalues htargets hstays hmarked) hs).mono
      fun r s hr => .pure ⟨?_, hr.2⟩)
    rw [hr.1]
    rfl
  | returns hvalues =>
    refine .bind ((hvalues.swapAllWith (visits depth) hs).mono fun vs' s hvs => ?_)
    refine .pure ⟨rfl, fun f hf => ?_, hvs.2.unwritten⟩
    rw [mapScope, shape, shape, hf.of_shapeAll hvalues hvs.1]
  | jump a offset => exact .pure ⟨rfl, fun _ _ => rfl, hs.unwritten⟩
  | test hc =>
    refine .bind ((hc.swapWith (visits depth) hs).mono fun c' s hc' => ?_)
    refine .pure ⟨rfl, fun f hf => ?_, hc'.2.unwritten⟩
    rw [mapScope, shape, shape, hf.of_shape hc hc'.1]
  | forPrep hx hy hz =>
    refine .bind ((hx.swapWith (visits depth) hs).mono fun x' s hx' => ?_)
    refine .bind ((hy.swapWith (visits depth) hx'.2).mono fun y' s hy' => ?_)
    refine .bind ((hz.swapWith (visits depth) hy'.2).mono fun z' s hz' => ?_)
    refine .bind ⟨(), _, rfl, .pure ⟨rfl, fun f hf => ?_, hz'.2.keep _⟩⟩
    rw [mapScope, shape, shape, hf.of_shape hx hx'.1, hf.of_shape hy hy'.1, hf.of_shape hz hz'.1]
  | forLoop hc =>
    refine .bind ((hc.swapWith (visits depth) hs).mono fun c' s hc' => ?_)
    refine .pure ⟨rfl, fun f hf => ?_, hc'.2.unwritten⟩
    rw [mapScope, shape, shape, hf.of_shape hc hc'.1]
  | tForLoop a vars =>
    exact .bind ⟨(), _, Scope.keepAll_eq vars, .pure ⟨rfl, fun _ _ => rfl, hs.keeping vars⟩⟩

theorem Loaded.recurs {n : Node} (depth : Nat) (h : n.Loaded made bound) (hs : s.Steady made bound) :
    Succeeds (Scope.bound depth n) s fun n' s' => n.Recurs made n' ∧
      s'.Steady made (boundAfter bound n.written) := by
  cases h with
  | missing => exact .pure ⟨fun _ _ => rfl, hs.unwritten⟩
  | @value e he hpresent =>
    refine .bind ((he.swapWith (visits depth) hs).mono fun e' s he' => ?_)
    have hvalue : ofExpr e' = expr e' := by
      cases e' with
      | missing => exact absurd (Expr.missing_of_shape he'.1.symm) hpresent
      | _ => rfl
    refine .pure ⟨fun f hf => ?_, he'.2.unwritten⟩
    rw [hvalue, mapScope, shape, shape, hf.of_shape he he'.1]
  | assign h =>
    refine .bind ((h.assign_recurs depth hs).mono fun r s hr => ?_)
    obtain ⟨n', value⟩ := r
    obtain ⟨rfl, hrecurs, hsteady⟩ := hr
    exact .pure ⟨hrecurs, hsteady⟩

/-- Inlining into settled statements leaves out none and keeps their shapes. -/
theorem Settled.recurs {bound' : Int → Prop} {ns : List Node} (depth : Nat)
    (h : Settled made bound ns bound') (hs : s.Steady made bound) :
    Succeeds (Node.inlineAll depth ns) s fun ns' s' =>
      (∀ f, Mild made f → Alike ns (Node.mapScopeAll f ns')) ∧ s'.Steady made bound' := by
  induction h generalizing s with
  | nil => exact .pure ⟨fun _ _ => .nil, hs⟩
  | stays h _ ih =>
    refine .bind ((h.recurs depth hs).mono fun r s hr => ?_)
    obtain ⟨n', delete⟩ := r
    obtain ⟨rfl, hrecurs, hsteady⟩ := hr
    refine .bind ((ih hsteady).mono fun ns' s hns' => ?_)
    exact .pure ⟨fun f hf => .flat (hrecurs f hf) (hns'.1 f hf), hns'.2⟩
  | @block bound bound' bound'' a body ns _ _ ihinner ihrest =>
    refine .bind (.bind ⟨(), _, Scope.keepIterators_eq body, .bind ?_⟩)
    refine (ihinner (hs.keeping _)).mono fun body' s hbody => ?_
    refine .pure (.bind ((ihrest hbody.2).mono fun ns' s hns' => ?_))
    exact .pure ⟨fun f hf => .block (hbody.1 f hf) (hns'.1 f hf), hns'.2⟩
  | @numeric bound bound₁ bound₂ bound₃ bound' bound'' a b v init limit step body ns hinit hbound₁
      hlimit hbound₂ hstep hbound₃ _ _ ihinner ihrest =>
    subst hbound₁ hbound₂ hbound₃
    refine .bind (.bind ((hinit.recurs depth hs).mono fun init' s hinit' => ?_))
    refine .bind ((hlimit.recurs depth hinit'.2).mono fun limit' s hlimit' => ?_)
    refine .bind ((hstep.recurs depth hlimit'.2).mono fun step' s hstep' => ?_)
    refine .bind ⟨(), _, rfl, .bind (.bind ⟨(), _, Scope.keepIterators_eq body, .bind ?_⟩)⟩
    refine (ihinner (hstep'.2.keeping (v :: iterators body))).mono fun body' s hbody => ?_
    refine .pure (.pure (.bind ((ihrest hbody.2).mono fun ns' s hns' => ?_)))
    exact .pure ⟨fun f hf => .numeric (hinit'.1 f hf) (hlimit'.1 f hf) (hstep'.1 f hf)
      (hbody.1 f hf) (hns'.1 f hf), hns'.2⟩

end Node

/-! ## The end of a scope -/

section

variable {made : List Expr} {bound : Int → Prop}

mutual

/-- What shared expressions become keeps the shape of an expression if it keeps theirs. -/
theorem Expr.Sound.mapShared {visit : Nat → Expr → Expr}
    (hvisit : ∀ n e, (Expr.shared n e).Sound made bound →
      (visit n e).shape = (Expr.shared n e).shape)
    {e : Expr} (he : e.Sound made bound) : (e.mapShared visit).shape = e.shape := by
  cases e with
  | call a f args =>
    rw [Expr.mapShared, Expr.shape, Expr.Sound.mapShared hvisit he.1,
      Expr.SoundAll.mapSharedAll hvisit he.2, Expr.shape]
  | binary a op l r =>
    rw [Expr.mapShared, Expr.shape, Expr.Sound.mapShared hvisit he.1,
      Expr.Sound.mapShared hvisit he.2, Expr.shape]
  | unary a op e =>
    rw [Expr.mapShared, Expr.shape, Expr.Sound.mapShared (e := e) hvisit he, Expr.shape]
  | table a ks vs =>
    rw [Expr.mapShared, Expr.shape, Expr.SoundAll.mapSharedAll hvisit he.1,
      Expr.SoundAll.mapSharedAll hvisit he.2, Expr.shape]
  | index a t k =>
    rw [Expr.mapShared, Expr.shape, Expr.Sound.mapShared hvisit he.1,
      Expr.Sound.mapShared hvisit he.2, Expr.shape]
  | shared n e => exact hvisit n e he
  | _ => rfl

theorem Expr.SoundAll.mapSharedAll {visit : Nat → Expr → Expr}
    (hvisit : ∀ n e, (Expr.shared n e).Sound made bound →
      (visit n e).shape = (Expr.shared n e).shape)
    {es : List Expr} (hes : Expr.SoundAll made bound es) :
    Expr.shapeAll (Expr.mapSharedAll visit es) = Expr.shapeAll es := by
  cases es with
  | nil => rfl
  | cons e es =>
    rw [Expr.mapSharedAll, Expr.shapeAll, Expr.Sound.mapShared hvisit hes.1,
      Expr.SoundAll.mapSharedAll hvisit hes.2, Expr.shapeAll]

end

theorem Scope.Steady.settleShared {s : Scope} {bound' : Int → Prop} (hs : s.Steady made bound')
    (depth : Nat) (n : Nat) (e : Expr) (he : (Expr.shared n e).Sound made bound) :
    (Expr.settleShared s.versions depth n e).shape = (Expr.shared n e).shape := by
  induction depth generalizing n e with
  | zero => rfl
  | succ depth ih =>
    have hlatest := hs.latest he.1
    rw [Expr.settleShared, Expr.shape, (he.2.of_shape hlatest).mapShared ih, hlatest, Expr.shape]

/-- Bringing shared expressions up to date keeps shapes. -/
theorem Scope.Steady.settle {s : Scope} (hs : s.Steady made bound) : Mild made s.settle := by
  constructor
  · intro e he
    rw [Scope.settle]
    split
    · rfl
    · exact he.mapShared (hs.settleShared s.next)
  · intro r
    rw [Scope.settle]
    split <;> rfl

end

/-! ## Functions -/

/-- A function of which the statements are settled. -/
def Declaration.Settled (d : Declaration) : Prop :=
  ∃ made bound, Node.Settled made
    (boundAfter (fun _ => False) (d.parameters ++ Node.iterators d.body)) d.body bound

namespace Declaration

variable {d : Declaration}

/-- Inlining leaves a settled function. -/
theorem settled {body : List Node} {s : Scope} (haligned : ∀ n ∈ d.body, n.Aligned)
    (h : Turns d.scope d.body body s) : ({ d with body } : Declaration).Settled := by
  obtain ⟨made, bound, -, -, hsettled⟩ :=
    h.settled haligned (Scope.Feeds.start.keeping (d.parameters ++ Node.iterators d.body))
  refine ⟨made, bound, ?_⟩
  rw [h.iterators]
  exact hsettled made (List.prefix_refl made)

/-- The uses of a settled function can be counted. -/
theorem Settled.countUses (h : d.Settled) : ∃ m, d.toNode.countUses = .ok m := by
  obtain ⟨made, bound, h⟩ := h
  rw [boundAfter_append] at h
  have hwalk : Succeeds (do Tally.bindAll d.parameters; (Node.block d.address d.body).tally)
      Tally.empty fun _ _ => True := by
    have hempty : Tally.empty.live.Holds fun _ => False := nofun
    refine .bind ((Tally.bindAll_holds d.parameters hempty).mono fun _ _ ht => ?_)
    refine .bind ((Tally.bindIterators_holds d.body ht).mono fun _ _ ht => ?_)
    exact (h.tallyAll ht).mono fun _ _ _ => trivial
  obtain ⟨a, t, hwalk, -⟩ := hwalk
  have htally : d.toNode.tally = Tally.nested d.parameters (Node.block d.address d.body).tally := rfl
  unfold Node.countUses
  rw [htally, Tally.nested, hwalk]
  exact ⟨_, rfl⟩

/-- Inlining into a settled function keeps the shapes of its statements. -/
theorem Settled.inlined (h : d.Settled) : ∃ body, Node.Alike d.body body ∧
    d.toNode.inlined = .ok ({ d with body } : Declaration).toNode := by
  obtain ⟨made, bound, h⟩ := h
  rw [boundAfter_append] at h
  have hwalk : ∀ b, Succeeds (do
      Scope.keepAll d.parameters
      (Node.block d.address d.body).inline b) (Scope.start b) fun r s =>
        ∃ body, r.1.mapScope s.settle = .block d.address body ∧ Node.Alike d.body body := by
    intro b
    refine .bind ⟨(), _, Scope.keepAll_eq d.parameters, ?_⟩
    refine .bind ⟨(), _, Scope.keepIterators_eq d.body, .bind ?_⟩
    have hstart : (Scope.start b).Steady made fun _ => False := .start b
    have hstart := (hstart.keeping d.parameters).keeping (Node.iterators d.body)
    refine (h.recurs b hstart).mono fun body s hbody => ?_
    exact .pure ⟨_, rfl, hbody.1 _ hbody.2.settle⟩
  obtain ⟨r, s, hrun, body, hr, halike⟩ := hwalk d.toNode.sharedBound
  refine ⟨body, halike, ?_⟩
  unfold Node.inlined
  have hinline : ∀ b, d.toNode.inline b (Scope.start b) =
      Scope.nested b d.parameters ((Node.block d.address d.body).inline b) (Scope.start b) >>=
        fun r => .ok ((.function d.address .missing d.parameters d.vararg r.1, false), r.2) :=
    fun _ => rfl
  rw [hinline, Scope.nested, hrun]
  change Except.ok (Node.function d.address .missing d.parameters d.vararg (r.1.mapScope s.settle)) = _
  rw [hr]
  rfl

end Declaration

/-- Functions with statements of the same shapes have the same text. -/
theorem Declaration.print_alike {d : Declaration} {body : List Node} (h : Node.Alike d.body body)
    (counts : Bool) :
    ({ d with body } : Declaration).toNode.print counts = d.toNode.print counts := by
  change utf8 "function " ++ functionName .missing ++ parameterText d.parameters d.vararg ++
    Node.lines counts 0 body ++ utf8 "end" = _
  rw [← h.lines]
  rfl

theorem Declaration.lineup_alike {d : Declaration} {body : List Node} (h : Node.Alike d.body body) :
    ({ d with body } : Declaration).toNode.lineup = d.toNode.lineup := by
  rw [toNode, Node.lineup_function, Node.lineup_block, ← h.lineup, toNode, Node.lineup_function,
    Node.lineup_block]

/-- **Inlining again changes nothing.** After inlining a function that was lowered, and also when its
loops were recovered and have assignments for their bounds, the uses can be counted again, since every
register that is still read is bound; and inlining once more succeeds, with the same statements and the
same text, whether use counts are shown or not. -/
theorem Code.inlined_again {c : Code} {d : Declaration} {out : List Node} {counted tree : Node}
    (hlower : c.lower = .ok d)
    (hout : out = d.body ∨
      Loops.recover d.body = .ok out ∧ ∀ n ∈ Node.numericLoops out, n.boundsAssigned)
    (hcount : ({ d with body := out } : Declaration).toNode.countUses = .ok counted)
    (hinline : counted.inlined = .ok tree) :
    (∃ m, tree.countUses = .ok m) ∧ ∃ again, tree.inlined = .ok again ∧
      again.lineup = tree.lineup ∧ ∀ counts, again.print counts = tree.print counts := by
  obtain ⟨-, t, body, s, -, rfl, hturns, rfl⟩ :=
    Code.inlined_turns hlower (hout.imp_right And.left) hcount hinline
  have hsettled := Declaration.settled
    (forall_addReadsAll fun n hn => (Code.aligned hlower hout n hn).addReads t.reads) hturns
  obtain ⟨body', halike, hagain⟩ := hsettled.inlined
  exact ⟨hsettled.countUses, _, hagain, Declaration.lineup_alike halike,
    Declaration.print_alike halike⟩

/-- A loop with a bound that its body reads too: the sum is shared, and the second run comes to it at both
places. -/
theorem Code.inlined_again_sharedBound :
    ∃ (c : Code) (d : Declaration) (out : List Node) (counted tree : Node), c.lower = .ok d ∧
      Loops.recover d.body = .ok out ∧ (∀ n ∈ Node.numericLoops out, n.boundsAssigned) ∧
      ({ d with body := out } : Declaration).toNode.countUses = .ok counted ∧
      counted.inlined = .ok tree ∧ tree.sharedBound = 1 ∧
      (∃ m, tree.countUses = .ok m) ∧ ∃ again, tree.inlined = .ok again ∧
        again.lineup = tree.lineup ∧ ∀ counts, again.print counts = tree.print counts := by
  obtain ⟨d', counted, tree, hd, hcount, hinline, hrun⟩ := bothPasses_any
    (x := (Code.ofWords 1 [Word.ofABC 40 1 0 0, Word.ofABC 7 2 0 0, Word.ofABC 7 3 0 0,
      Word.ofAsBx 62 1 1, Word.ofABC 1 1 0 0, Word.ofAsBx 63 1 (-2), Word.ofABC 9 0 1 0]).withLoops)
    (P := fun d _ tree => (Node.numericLoops d.body).all Node.boundsAssigned &&
      tree.sharedBound == 1)
    (by decide +kernel)
  obtain ⟨d, out, hlower, hrecover, rfl⟩ := Code.withLoops_ok hd
  rw [Bool.and_eq_true, List.all_eq_true] at hrun
  exact ⟨_, d, out, counted, tree, hlower, hrecover, hrun.1, hcount, hinline, eq_of_beq hrun.2,
    Code.inlined_again hlower (.inr ⟨hrecover, hrun.1⟩) hcount hinline⟩

end HavokScript
