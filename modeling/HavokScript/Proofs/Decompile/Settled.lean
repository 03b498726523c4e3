import HavokScript.Proofs.Decompile.Substitution
import HavokScript.Proofs.Tree.Shape

/-!
# What inlining leaves

After inlining every register that is still read is bound by a parameter, a loop variable or a write that
was kept in front of it, no assignment is left that would be folded, and all places of a shared expression
have the same shape. `Node.Settled` says so of a list of statements, with the registers that are bound in
front of it and behind. What a run leaves is settled (`Turns.settled`), and counting the uses in it finds
no register that is not bound (`Node.Settled.tallyAll`).

The run is followed with a list of the shapes that were made shared expressions, by their numbers; it only
grows, so an expression that is sound stays sound (`Expr.Sound.mono`).
-/

namespace HavokScript

/-! ## Sound expressions -/

mutual

/-- The registers of the expression are bound, and each shared expression in it has the shape that
belongs to its number. -/
def Expr.Sound (made : List Expr) (bound : Int → Prop) : Expr → Prop
  | .register r => bound r.index
  | .call _ f args => f.Sound made bound ∧ Expr.SoundAll made bound args
  | .binary _ _ l r => l.Sound made bound ∧ r.Sound made bound
  | .unary _ _ e => e.Sound made bound
  | .table _ ks vs => Expr.SoundAll made bound ks ∧ Expr.SoundAll made bound vs
  | .index _ t k => t.Sound made bound ∧ k.Sound made bound
  | .shared n e => made[n]? = some e.shape ∧ e.Sound made bound
  | _ => True

/-- The same of expressions. -/
def Expr.SoundAll (made : List Expr) (bound : Int → Prop) : List Expr → Prop
  | [] => True
  | e :: es => e.Sound made bound ∧ Expr.SoundAll made bound es

end

section

variable {made made' : List Expr} {bound bound' : Int → Prop}

mutual

theorem Expr.Sound.mono (hmade : made <+: made') (hbound : ∀ q, bound q → bound' q) {e : Expr}
    (h : e.Sound made bound) : e.Sound made' bound' := by
  cases e with
  | register r => exact hbound _ h
  | call a f args => exact ⟨Expr.Sound.mono hmade hbound h.1, Expr.SoundAll.mono hmade hbound h.2⟩
  | binary a op l r => exact ⟨Expr.Sound.mono hmade hbound h.1, Expr.Sound.mono hmade hbound h.2⟩
  | unary a op e => exact Expr.Sound.mono (e := e) hmade hbound h
  | table a ks vs => exact ⟨Expr.SoundAll.mono hmade hbound h.1, Expr.SoundAll.mono hmade hbound h.2⟩
  | index a t k => exact ⟨Expr.Sound.mono hmade hbound h.1, Expr.Sound.mono hmade hbound h.2⟩
  | shared n e =>
    refine ⟨?_, Expr.Sound.mono hmade hbound h.2⟩
    obtain ⟨more, rfl⟩ := hmade
    exact List.getElem?_append_left (List.getElem?_eq_some_iff.mp h.1).1 ▸ h.1
  | _ => trivial

theorem Expr.SoundAll.mono (hmade : made <+: made') (hbound : ∀ q, bound q → bound' q)
    {es : List Expr} (h : Expr.SoundAll made bound es) : Expr.SoundAll made' bound' es := by
  cases es with
  | nil => trivial
  | cons e es => exact ⟨Expr.Sound.mono hmade hbound h.1, Expr.SoundAll.mono hmade hbound h.2⟩

end

mutual

theorem Expr.sound_shape (e : Expr) : e.shape.Sound made bound ↔ e.Sound made bound := by
  cases e with
  | call a f args => exact and_congr f.sound_shape (Expr.soundAll_shapeAll args)
  | binary a op l r => exact and_congr l.sound_shape r.sound_shape
  | unary a op e => exact e.sound_shape
  | table a ks vs => exact and_congr (Expr.soundAll_shapeAll ks) (Expr.soundAll_shapeAll vs)
  | index a t k => exact and_congr t.sound_shape k.sound_shape
  | shared n e =>
    rw [shape, Sound, Sound, e.shape_shape]
    exact and_congr_right fun _ => e.sound_shape
  | _ => exact Iff.rfl

theorem Expr.soundAll_shapeAll (es : List Expr) :
    Expr.SoundAll made bound (Expr.shapeAll es) ↔ Expr.SoundAll made bound es := by
  cases es with
  | nil => exact Iff.rfl
  | cons e es => exact and_congr e.sound_shape (Expr.soundAll_shapeAll es)

end

theorem Expr.soundAll_append {es fs : List Expr} : Expr.SoundAll made bound (es ++ fs) ↔
    Expr.SoundAll made bound es ∧ Expr.SoundAll made bound fs := by
  induction es with
  | nil => exact (and_iff_right trivial).symm
  | cons e es ih => exact (and_congr_right fun _ => ih).trans and_assoc.symm

theorem Expr.Sound.of_shape {e e' : Expr} (he : e.Sound made bound) (h : e'.shape = e.shape) :
    e'.Sound made bound := by
  rwa [← sound_shape, h, sound_shape]

mutual

/-- Filling in what is sound gives something sound. -/
theorem Expr.sound_fill {live : Slots Expr} (hlive : live.Forall fun x => x.Sound made bound)
    {e : Expr} (he : e.sharedBound = 0) (h : live.Binds e.inputs) :
    (e.fill live).Sound made bound := by
  cases e with
  | register r =>
    obtain ⟨x, hx⟩ := Option.isSome_iff_exists.mp (h r (List.mem_singleton_self r))
    rw [fill, hx]
    exact hlive _ x hx
  | call a f args =>
    rw [sharedBound, Nat.max_eq_zero_iff] at he
    rw [inputs_call, Slots.Binds.append] at h
    exact ⟨Expr.sound_fill hlive he.1 h.1, Expr.soundAll_fillAll hlive he.2 h.2⟩
  | binary a op l r =>
    rw [sharedBound, Nat.max_eq_zero_iff] at he
    rw [inputs_binary, Slots.Binds.append] at h
    exact ⟨Expr.sound_fill hlive he.1 h.1, Expr.sound_fill hlive he.2 h.2⟩
  | unary a op e => exact Expr.sound_fill (e := e) hlive he (by rwa [inputs_unary] at h)
  | table a ks vs =>
    rw [sharedBound, Nat.max_eq_zero_iff] at he
    rw [inputs_table, Slots.Binds.append] at h
    exact ⟨Expr.soundAll_fillAll hlive he.1 h.1, Expr.soundAll_fillAll hlive he.2 h.2⟩
  | index a t k =>
    rw [sharedBound, Nat.max_eq_zero_iff] at he
    rw [inputs_index, Slots.Binds.append] at h
    exact ⟨Expr.sound_fill hlive he.1 h.1, Expr.sound_fill hlive he.2 h.2⟩
  | shared n e =>
    rw [sharedBound] at he
    omega
  | _ => trivial

theorem Expr.soundAll_fillAll {live : Slots Expr} (hlive : live.Forall fun x => x.Sound made bound)
    {es : List Expr} (hes : Expr.sharedBoundAll es = 0) (h : live.Binds (Expr.inputsAll es)) :
    Expr.SoundAll made bound (Expr.fillAll live es) := by
  cases es with
  | nil => trivial
  | cons e es =>
    rw [sharedBoundAll, Nat.max_eq_zero_iff] at hes
    rw [inputsAll_cons, Slots.Binds.append] at h
    exact ⟨Expr.sound_fill hlive hes.1 h.1, Expr.soundAll_fillAll hlive hes.2 h.2⟩

end

end

/-! ## What stands for registers is sound -/

/-- The registers that are bound after others were written. -/
def boundAfter (bound : Int → Prop) (rs : List Register) : Int → Prop := fun q =>
  bound q ∨ ∃ r ∈ rs, r.index = q

section

variable {bound : Int → Prop}

@[simp] theorem boundAfter_nil : boundAfter bound [] = bound := by
  funext q
  simp [boundAfter]

theorem boundAfter_append (rs ss : List Register) :
    boundAfter bound (rs ++ ss) = boundAfter (boundAfter bound rs) ss := by
  funext q
  simp only [boundAfter, List.mem_append, or_and_right, exists_or, or_assoc]

theorem boundAfter_cons (r : Register) (rs : List Register) :
    boundAfter bound (r :: rs) = boundAfter (boundAfter bound [r]) rs := boundAfter_append [r] rs

theorem boundAfter_of_bound (rs : List Register) (q : Int) (h : bound q) : boundAfter bound rs q :=
  .inl h

end

/-- What stands for registers in a scope is sound, if expressions were given numbers in order. -/
structure Scope.Feeds (made : List Expr) (bound : Int → Prop) (s : Scope) : Prop where
  numbered : made.length = s.next
  sound : s.live.Forall fun x => x.Sound made bound
  quiet : s.Quiet

namespace Scope.Feeds

variable {made : List Expr} {bound : Int → Prop} {s : Scope}

theorem start : Feeds [] (fun _ => False) (Scope.start 0) := ⟨rfl, nofun, .start 0⟩

theorem keeping (h : s.Feeds made bound) (rs : List Register) :
    (s.keeping rs).Feeds made (boundAfter bound rs) := by
  refine ⟨h.numbered.trans (next_keeping rs).symm, ?_, h.quiet.keeping rs⟩
  refine forall_keeping (fun q x hx => ?_) fun r hr => .inr ⟨r, hr, rfl⟩
  exact (h.sound q x hx).mono (List.prefix_refl made) (boundAfter_of_bound rs)

/-- An expression with parts gets the next number, which no other one has. -/
theorem standIn {x : Expr} (h : s.Feeds made bound) (hx : x.Sound made bound) :
    ∃ made', made <+: made' ∧ made'.length = s.numberAfter x ∧ (s.standIn x).Sound made' bound := by
  have hnew : (Expr.shared s.next x).Sound (made ++ [x.shape]) bound := by
    refine ⟨?_, hx.mono (List.prefix_append _ _) fun _ hq => hq⟩
    rw [← h.numbered, List.getElem?_concat_length]
  have hlength : (made ++ [x.shape]).length = s.next + 1 := by
    rw [List.length_append, h.numbered, List.length_singleton]
  cases x with
  | call | binary | unary | table | index => exact ⟨_, List.prefix_append _ _, hlength, hnew⟩
  | _ => exact ⟨made, List.prefix_refl _, h.numbered, hx⟩

theorem folding {r : Register} {v : Expr} (h : s.Feeds made bound) (hv : Node.Folded s r v) :
    ∃ made', made <+: made' ∧ (s.folding r (v.fill s.live)).Feeds made' bound ∧
      (s.standIn (v.fill s.live)).Sound made' bound := by
  have hsound := Expr.sound_fill h.sound (Expr.sharedBound_of_plain hv.plain) hv.binds
  obtain ⟨made', hmade, hlength, hvalue⟩ := h.standIn hsound
  refine ⟨made', hmade, ⟨hlength, ?_, hv.quiet h.quiet⟩, hvalue⟩
  exact forall_folding (fun q x hx => (h.sound q x hx).mono hmade fun _ hq => hq) hvalue

end Scope.Feeds

/-! ## Settled statements -/

/-- A statement that inlining leaves as it is, but for the register nodes that are read in it. -/
inductive Node.Stays (made : List Expr) (bound : Int → Prop) : Node → Prop
  | assign {a : Int} {ts vs : List Expr} {kept : Bool} (values : Expr.SoundAll made bound vs)
      (targets : Expr.SoundAll made bound (Expr.places ts))
      (stays : (Node.assign a ts vs kept).folds = false)
      (marked : Expr.loneCall vs → ts.length = 1 → kept) : Stays made bound (.assign a ts vs kept)
  | returns {a : Int} {vs : List Expr} (values : Expr.SoundAll made bound vs) :
      Stays made bound (.returns a vs)
  | jump (a offset : Int) : Stays made bound (.jump a offset)
  | test {a : Int} {c : Expr} (condition : c.Sound made bound) : Stays made bound (.test a c)
  | forPrep {a : Int} {x y z : Expr} {v : Register} (init : x.Sound made bound)
      (limit : y.Sound made bound) (step : z.Sound made bound) :
      Stays made bound (.forPrep a x y z v)
  | forLoop {a offset : Int} {c : Expr} (counter : c.Sound made bound) :
      Stays made bound (.forLoop a c offset)
  | tForLoop (a : Int) (vars : List Register) : Stays made bound (.tForLoop a vars)

/-- The same for a bound of a numeric loop: what a folded value left, or an assignment. -/
inductive Node.Loaded (made : List Expr) (bound : Int → Prop) : Node → Prop
  | missing : Loaded made bound .missing
  | value {e : Expr} (h : e.Sound made bound) (present : e ≠ .missing) : Loaded made bound (.expr e)
  | assign {a : Int} {ts vs : List Expr} {kept : Bool}
      (h : (Node.assign a ts vs kept).Stays made bound) : Loaded made bound (.assign a ts vs kept)

/-- Statements that inlining leaves as they are, with the registers that are bound in front of them and
behind. -/
inductive Node.Settled (made : List Expr) : (Int → Prop) → List Node → (Int → Prop) → Prop
  | nil {bound : Int → Prop} : Settled made bound [] bound
  | stays {bound bound' : Int → Prop} {n : Node} {ns : List Node} (h : n.Stays made bound)
      (rest : Settled made (boundAfter bound n.written) ns bound') :
      Settled made bound (n :: ns) bound'
  | block {bound bound' bound'' : Int → Prop} {a : Int} {body ns : List Node}
      (inner : Settled made (boundAfter bound (Node.iterators body)) body bound')
      (rest : Settled made bound' ns bound'') : Settled made bound (.block a body :: ns) bound''
  | numeric {bound bound₁ bound₂ bound₃ bound' bound'' : Int → Prop} {a b : Int} {v : Register}
      {init limit step : Node} {body ns : List Node} (hinit : init.Loaded made bound)
      (hbound₁ : bound₁ = boundAfter bound init.written) (hlimit : limit.Loaded made bound₁)
      (hbound₂ : bound₂ = boundAfter bound₁ limit.written) (hstep : step.Loaded made bound₂)
      (hbound₃ : bound₃ = boundAfter bound₂ step.written)
      (inner : Settled made (boundAfter bound₃ (v :: Node.iterators body)) body bound')
      (rest : Settled made bound' ns bound'') :
      Settled made bound (.numericFor a v init limit step (.block b body) :: ns) bound''

theorem foldable?_of_map {ts ts' : List Expr}
    (h : ts'.map Expr.register? = ts.map Expr.register?) :
    Scope.foldable? ts' = Scope.foldable? ts := by
  rw [foldable?_eq, foldable?_eq, h]

/-- Whether an assignment folds depends on its register, and on whether its value is a call. -/
theorem Node.folds_assign (a : Int) (ts vs : List Expr) (kept : Bool) :
    (Node.assign a ts vs kept).folds =
      (!vs.isEmpty && !Expr.loneCall vs && (Scope.foldable? ts).isSome) := by
  rw [folds]
  cases vs with
  | nil => rfl
  | cons v rest =>
    rw [Expr.loneCall_cons, Scope.folded?]
    cases h : rest.isEmpty && v.isCall with
    | true =>
      rw [Bool.and_eq_true] at h
      rw [if_pos h]
      rfl
    | false =>
      have hnot : ¬(rest.isEmpty ∧ v.isCall) := by
        rw [← Bool.and_eq_true, h]
        exact Bool.false_ne_true
      rw [if_neg hnot, Option.isSome_map]
      rfl

namespace Node

variable {made : List Expr} {bound : Int → Prop} {s : Scope}

/-- What is left of a flat statement that is kept stays. -/
theorem Kept.stays {n : Node} (h : n.Kept s) (hs : s.Feeds made bound) :
    (n.fill s.live).Stays made bound := by
  have hflat := h.flat
  have hfolds := h.folds
  have hsound : Expr.SoundAll made bound (n.fill s.live).operands := by
    rw [hflat.operands_fill]
    exact Expr.soundAll_fillAll hs.sound hflat.sharedBound_operands h.binds
  cases n with
  | assign a ts vs kept =>
    obtain ⟨hvalues, htargets⟩ := Expr.soundAll_append.mp hsound
    have hregisters : (ts.map (Expr.fillTarget s.live)).map Expr.register? =
        ts.map Expr.register? := by
      rw [List.map_map]
      exact List.map_congr_left fun t _ => t.register?_fillTarget s.live
    refine .assign hvalues htargets ?_ fun hcall hone => ?_
    · rw [folds_assign] at hfolds ⊢
      rwa [Expr.loneCall_fillAll hs.quiet.live, foldable?_of_map hregisters, Expr.fillAll_eq_map,
        List.isEmpty_map]
    · rw [Expr.loneCall_fillAll hs.quiet.live] at hcall
      rw [List.length_map] at hone
      simp [hcall, hone]
  | returns a vs => exact .returns hsound
  | jump a offset => exact .jump a offset
  | test a c => exact .test hsound.1
  | forPrep a x y z v => exact .forPrep hsound.1 hsound.2.1 hsound.2.2.1
  | forLoop a c offset => exact .forLoop hsound.1
  | tForLoop a vars => exact .tForLoop a vars
  | _ => cases hflat

end Node

theorem Node.Stays.mono {made made' : List Expr} {bound : Int → Prop} {n : Node}
    (h : n.Stays made bound) (hmade : made <+: made') : n.Stays made' bound := by
  have hbound : ∀ q, bound q → bound q := fun _ hq => hq
  cases h with
  | assign hvalues htargets hstays hmarked =>
    exact .assign (hvalues.mono hmade hbound) (htargets.mono hmade hbound) hstays hmarked
  | returns hvalues => exact .returns (hvalues.mono hmade hbound)
  | jump a offset => exact .jump a offset
  | test hc => exact .test (hc.mono hmade hbound)
  | forPrep hx hy hz =>
    exact .forPrep (hx.mono hmade hbound) (hy.mono hmade hbound) (hz.mono hmade hbound)
  | forLoop hc => exact .forLoop (hc.mono hmade hbound)
  | tForLoop a vars => exact .tForLoop a vars

theorem Node.written_ofExpr (e : Expr) : (Node.ofExpr e).written = [] := by
  cases e <;> rfl

/-- What becomes of a bound is loaded, whatever expressions get numbers later. -/
theorem Loads.loaded {s s' : Scope} {n n' : Node} (h : Loads s n n' s') (hassign : n.isAssign)
    {made : List Expr} {bound : Int → Prop} (hs : s.Feeds made bound) :
    ∃ made', made <+: made' ∧ s'.Feeds made' (boundAfter bound n'.written) ∧
      ∀ final, made' <+: final → n'.Loaded final bound := by
  cases h with
  | @folded a r v hfolded =>
    obtain ⟨made', hmade, hfeeds, hvalue⟩ := hs.folding hfolded
    rw [Node.written_ofExpr, boundAfter_nil]
    refine ⟨made', hmade, hfeeds, fun final hfinal => ?_⟩
    have hsound := hvalue.mono hfinal fun _ hq => hq
    cases hx : s.standIn (v.fill s.live) with
    | missing => exact .missing
    | _ =>
      rw [hx] at hsound
      exact .value hsound nofun
  | kept hkept _ =>
    refine ⟨made, List.prefix_refl made, ?_, fun final hfinal => ?_⟩
    · rw [Node.written_fill]
      exact hs.keeping _
    · have hstays := (hkept.stays hs).mono hfinal
      cases n with
      | assign a ts vs kept => exact .assign hstays
      | _ => cases hassign
  | alone hno =>
    rw [hno] at hassign
    cases hassign

/-- Inlining leaves out no iterator call. -/
theorem Turns.iterators {s s' : Scope} {ns ns' : List Node} (h : Turns s ns ns' s') :
    Node.iterators ns' = Node.iterators ns := by
  induction h with
  | nil => rfl
  | folded _ _ ih => exact ih
  | @kept s s' n ns ns' _ _ ih =>
    cases n with
    | tForLoop a vars => exact congrArg (vars ++ ·) ih
    | _ => exact ih
  | block _ _ _ ih => exact ih
  | numeric _ _ _ _ _ _ ih => exact ih

/-- What a run leaves is settled. -/
theorem Turns.settled {s s' : Scope} {ns ns' : List Node} (h : Turns s ns ns' s')
    (hns : ∀ n ∈ ns, n.Aligned) {made : List Expr} {bound : Int → Prop} (hs : s.Feeds made bound) :
    ∃ made' bound', made <+: made' ∧ s'.Feeds made' bound' ∧
      ∀ final, made' <+: final → Node.Settled final bound ns' bound' := by
  induction h generalizing made bound with
  | nil => exact ⟨made, bound, List.prefix_refl made, hs, fun _ _ => .nil⟩
  | folded hfolded _ ih =>
    rw [List.forall_mem_cons] at hns
    obtain ⟨made', hmade, hfeeds, -⟩ := hs.folding hfolded
    obtain ⟨made'', bound', hmade', hfeeds, hsettled⟩ := ih hns.2 hfeeds
    exact ⟨made'', bound', hmade.trans hmade', hfeeds, hsettled⟩
  | @kept s s' n ns ns' hkept _ ih =>
    rw [List.forall_mem_cons] at hns
    obtain ⟨made', bound', hmade, hfeeds, hsettled⟩ := ih hns.2 (hs.keeping n.written)
    refine ⟨made', bound', hmade, hfeeds, fun final hfinal => ?_⟩
    refine .stays ((hkept.stays hs).mono (hmade.trans hfinal)) ?_
    rw [Node.written_fill]
    exact hsettled final hfinal
  | @block s t s' a body body' ns ns' hinner _ ihinner ihrest =>
    rw [List.forall_mem_cons] at hns
    have hbody : ∀ n ∈ body, n.Aligned := by
      cases hns.1 with
      | flat hflat _ => cases hflat
      | block hbody => exact hbody
    obtain ⟨made', bound', hmade, hfeeds, hsettled⟩ := ihinner hbody (hs.keeping _)
    obtain ⟨made'', bound'', hmade', hfeeds, hsettled'⟩ := ihrest hns.2 hfeeds
    refine ⟨made'', bound'', hmade.trans hmade', hfeeds, fun final hfinal => ?_⟩
    refine .block ?_ (hsettled' final hfinal)
    rw [hinner.iterators]
    exact hsettled final (hmade'.trans hfinal)
  | @numeric s t u w x s' a b v init init' limit limit' step step' body body' ns ns' hinit hlimit
      hstep hinner _ ihinner ihrest =>
    rw [List.forall_mem_cons] at hns
    cases hns.1 with
    | flat hflat _ => cases hflat
    | numeric _ _ _ hbounds hbody =>
      simp only [Node.boundsAssigned, Bool.and_eq_true] at hbounds
      obtain ⟨⟨hinits, hlimits⟩, hsteps⟩ := hbounds
      obtain ⟨made₁, hmade₁, hfeeds, hinit⟩ := hinit.loaded hinits hs
      obtain ⟨made₂, hmade₂, hfeeds, hlimit⟩ := hlimit.loaded hlimits hfeeds
      obtain ⟨made₃, hmade₃, hfeeds, hstep⟩ := hstep.loaded hsteps hfeeds
      obtain ⟨made₄, bound', hmade₄, hfeeds, hsettled⟩ := ihinner hbody (hfeeds.keeping _)
      obtain ⟨made₅, bound'', hmade₅, hfeeds, hsettled'⟩ := ihrest hns.2 hfeeds
      have hmade₃₅ := hmade₄.trans hmade₅
      have hmade₂₅ := hmade₃.trans hmade₃₅
      have hmade₁₅ := hmade₂.trans hmade₂₅
      refine ⟨made₅, bound'', hmade₁.trans hmade₁₅, hfeeds, fun final hfinal => ?_⟩
      refine .numeric (hinit final (hmade₁₅.trans hfinal)) rfl (hlimit final (hmade₂₅.trans hfinal))
        rfl (hstep final (hmade₃₅.trans hfinal)) rfl ?_ (hsettled' final hfinal)
      rw [hinner.iterators]
      exact hsettled final (hmade₅.trans hfinal)

/-! ## Counting settled statements -/

/-- Something is there for all registers that are bound. -/
def Slots.Holds {α : Type} (live : Slots α) (bound : Int → Prop) : Prop :=
  ∀ q, bound q → (live q).isSome

theorem Slots.Holds.set {α : Type} {live : Slots α} {bound : Int → Prop} (h : live.Holds bound)
    (r : Register) (x : α) : (live.set r.index x).Holds (boundAfter bound [r]) := by
  intro q hq
  simp only [Slots.set]
  split
  · rfl
  next hne =>
    rcases hq with hq | ⟨r', hr', hq⟩
    · exact h q hq
    · rw [List.mem_singleton.mp hr'] at hq
      exact absurd hq.symm hne

theorem Slots.Holds.unwritten {α : Type} {live : Slots α} {bound : Int → Prop}
    (h : live.Holds bound) : live.Holds (boundAfter bound []) := by
  rwa [boundAfter_nil]

section

variable {made : List Expr} {bound : Int → Prop} {t : Tally}

mutual

theorem Expr.Sound.tally {t : Tally} {e : Expr} (he : e.Sound made bound) (ht : t.live.Holds bound) :
    Succeeds e.tally t fun _ t' => t'.live.Holds bound := by
  cases e with
  | register r =>
    obtain ⟨id, hid⟩ := Option.isSome_iff_exists.mp (ht r.index he)
    refine ⟨(), { t with reads := id :: t.reads }, ?_, ht⟩
    simp only [Expr.tally, Tally.read, hid]
  | call a f args =>
    exact .bind ((Expr.Sound.tally he.1 ht).mono fun _ _ ht => Expr.SoundAll.tally he.2 ht)
  | binary a op l r =>
    exact .bind ((Expr.Sound.tally he.1 ht).mono fun _ _ ht => Expr.Sound.tally he.2 ht)
  | unary a op e => exact Expr.Sound.tally (e := e) he ht
  | table a ks vs =>
    exact .bind ((Expr.SoundAll.tally he.1 ht).mono fun _ _ ht => Expr.SoundAll.tally he.2 ht)
  | index a x k =>
    exact .bind ((Expr.Sound.tally he.1 ht).mono fun _ _ ht => Expr.Sound.tally he.2 ht)
  | shared n e => exact Expr.Sound.tally (e := e) he.2 ht
  | _ => exact .pure ht

theorem Expr.SoundAll.tally {t : Tally} {es : List Expr} (hes : Expr.SoundAll made bound es)
    (ht : t.live.Holds bound) :
    Succeeds (Expr.tallyAll es) t fun _ t' => t'.live.Holds bound := by
  cases es with
  | nil => exact .pure ht
  | cons e es =>
    exact .bind ((Expr.Sound.tally hes.1 ht).mono fun _ _ ht => Expr.SoundAll.tally hes.2 ht)

end

theorem Tally.bindAll_holds (rs : List Register) (ht : t.live.Holds bound) :
    Succeeds (Tally.bindAll rs) t fun _ t' => t'.live.Holds (boundAfter bound rs) := by
  induction rs generalizing t bound with
  | nil => exact .pure ht.unwritten
  | cons r rs ih =>
    rw [boundAfter_cons]
    exact .bind ⟨(), _, rfl, ih (ht.set r r.id)⟩

theorem Expr.SoundAll.tallyTargets {ts : List Expr}
    (hts : Expr.SoundAll made bound (Expr.places ts)) (ht : t.live.Holds bound) :
    Succeeds (Expr.tallyTargets ts) t fun _ t' =>
      t'.live.Holds (boundAfter bound (Expr.registers ts)) := by
  induction ts generalizing t bound with
  | nil => exact .pure ht.unwritten
  | cons e ts ih =>
    cases he : e.register? with
    | some r =>
      cases e with
      | register r =>
        have hregisters : Expr.registers (.register r :: ts) = r :: Expr.registers ts := rfl
        rw [hregisters, boundAfter_cons]
        have hts' := hts.mono (List.prefix_refl made) (boundAfter_of_bound [r])
        exact .bind ⟨(), _, rfl, ih hts' (ht.set r r.id)⟩
      | _ => cases he
    | none =>
      have hregisters : Expr.registers (e :: ts) = Expr.registers ts :=
        List.filterMap_cons_none he
      have htarget : e.tallyTarget = e.tally := by cases e <;> first | rfl | cases he
      rw [Expr.places, List.filter_cons_of_pos (by rw [he]; rfl)] at hts
      rw [hregisters, Expr.tallyTargets, htarget]
      exact .bind ((Expr.Sound.tally hts.1 ht).mono fun _ _ ht => ih hts.2 ht)

theorem Node.Stays.tally {n : Node} (h : n.Stays made bound) (ht : t.live.Holds bound) :
    Succeeds n.tally t fun _ t' => t'.live.Holds (boundAfter bound n.written) := by
  cases h with
  | assign hvalues htargets _ _ =>
    exact .bind ((hvalues.tally ht).mono fun _ _ ht => htargets.tallyTargets ht)
  | returns hvalues => exact (hvalues.tally ht).mono fun _ _ ht => ht.unwritten
  | jump a offset => exact .pure ht.unwritten
  | test hc => exact (hc.tally ht).mono fun _ _ ht => ht.unwritten
  | forPrep hx hy hz =>
    exact .bind ((hx.tally ht).mono fun _ _ ht => .bind ((hy.tally ht).mono fun _ _ ht =>
      .bind ((hz.tally ht).mono fun _ _ ht => ⟨(), _, rfl, ht.set _ _⟩)))
  | forLoop hc => exact (hc.tally ht).mono fun _ _ ht => ht.unwritten
  | tForLoop a vars => exact Tally.bindAll_holds vars ht

theorem Node.Loaded.tally {n : Node} (h : n.Loaded made bound) (ht : t.live.Holds bound) :
    Succeeds n.tally t fun _ t' => t'.live.Holds (boundAfter bound n.written) := by
  cases h with
  | missing => exact .pure ht.unwritten
  | value he _ => exact (he.tally ht).mono fun _ _ ht => ht.unwritten
  | assign h => exact h.tally ht

theorem Tally.bindIterators_holds (ns : List Node) (ht : t.live.Holds bound) :
    Succeeds (Node.bindIterators ns) t fun _ t' =>
      t'.live.Holds (boundAfter bound (Node.iterators ns)) := by
  rw [Node.bindIterators_eq, ← Tally.bindAll_eq]
  exact Tally.bindAll_holds _ ht

/-- Counting finds no register in settled statements that is not bound. -/
theorem Node.Settled.tallyAll {bound' : Int → Prop} {ns : List Node}
    (h : Node.Settled made bound ns bound') (ht : t.live.Holds bound) :
    Succeeds (Node.tallyAll ns) t fun _ t' => t'.live.Holds bound' := by
  induction h generalizing t with
  | nil => exact .pure ht
  | stays h _ ih => exact .bind ((h.tally ht).mono fun _ _ ht => ih ht)
  | block _ _ ihinner ihrest =>
    exact .bind (.bind ((Tally.bindIterators_holds _ ht).mono fun _ _ ht =>
      (ihinner ht).mono fun _ _ ht => ihrest ht))
  | @numeric bound bound₁ bound₂ bound₃ bound' bound'' a b v init limit step body ns hinit hbound₁
      hlimit hbound₂ hstep hbound₃ _ _ ihinner ihrest =>
    subst hbound₁ hbound₂ hbound₃
    refine .bind (.bind ((hinit.tally ht).mono fun _ _ ht => ?_))
    refine .bind ((hlimit.tally ht).mono fun _ _ ht => ?_)
    refine .bind ((hstep.tally ht).mono fun _ _ ht => ?_)
    refine .bind ⟨(), _, rfl, .bind ?_⟩
    refine (Tally.bindIterators_holds body (ht.set v v.id)).mono fun _ _ ht => ?_
    rw [← boundAfter_cons] at ht
    exact (ihinner ht).mono fun _ _ ht => ihrest ht

end

end HavokScript
