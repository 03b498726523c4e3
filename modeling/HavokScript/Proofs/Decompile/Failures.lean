import HavokScript.Chunk.Assemble
import HavokScript.Decompile.Pipeline
import HavokScript.Proofs.Decompile.Recovery

/-!
# How decompiling can fail

Use counts and inlining walk the whole tree, and all they refuse is the read of a register that was
not written (`Node.countUses_outcome`, `Node.inlined_outcome`). The functions of a file are declared
in the order of `ChunkFile.walk`, and the first one that fails decides (`Prototype.declaration_outcome`).

So decompiling a decoded file without stages gives a tree or a failure that names its address and
cause, unless a function is reached in which the end of a numeric loop leads forward past itself:
there, and nowhere else, decompiling breaks.
-/

namespace HavokScript

/-! ## Unbound registers -/

/-- The failure to read some register that was not written. -/
def Unbound (e : DecompileError) : Prop := ∃ r, e = unbound r

/-- A pass over a tree that only refuses reads of registers that were not written. -/
abbrev Tame {σ α : Type} (m : StateT σ (Except DecompileError) α) : Prop :=
  Gives (fun _ => True) Unbound m

namespace Tame

variable {σ α β : Type}

theorem pure (a : α) : Tame (Pure.pure a : StateT σ (Except DecompileError) α) := Gives.pure trivial

theorem bind {m : StateT σ (Except DecompileError) α} {f : α → StateT σ (Except DecompileError) β}
    (hm : Tame m) (hf : ∀ a, Tame (f a)) : Tame (m >>= f) :=
  Gives.bind hm fun a _ => hf a

end Tame

/-! ## Use counts -/

namespace Tally

theorem bind_tame (r : Register) : Tame (bind r) := fun _ => trivial

theorem read_tame (r : Register) : Tame (read r) := by
  intro t
  unfold read
  cases t.live r.index with
  | none => exact ⟨r, rfl⟩
  | some id => trivial

theorem bindAll_tame (rs : List Register) : Tame (bindAll rs) := by
  induction rs with
  | nil => exact Tame.pure ()
  | cons r rs ih => exact (bind_tame r).bind fun _ => ih

theorem nested_tame (parameters : List Register) {walk : Counting Unit} (h : Tame walk) :
    Tame (nested parameters walk) := by
  intro t
  have hwalk := (bindAll_tame parameters).bind (fun _ => h) empty
  unfold nested
  cases hrun : (do bindAll parameters; walk : Counting Unit) empty with
  | ok r => trivial
  | error e =>
    rw [hrun] at hwalk
    exact hwalk

end Tally

mutual

theorem Expr.tally_tame (e : Expr) : Tame e.tally := by
  cases e with
  | register r => exact Tally.read_tame r
  | call a f args => exact f.tally_tame.bind fun _ => Expr.tallyAll_tame args
  | binary a op l r => exact l.tally_tame.bind fun _ => r.tally_tame
  | unary a op e => exact e.tally_tame
  | table a ks vs => exact (Expr.tallyAll_tame ks).bind fun _ => Expr.tallyAll_tame vs
  | index a t k => exact t.tally_tame.bind fun _ => k.tally_tame
  | shared n e => exact e.tally_tame
  | _ => exact Tame.pure ()

theorem Expr.tallyAll_tame (es : List Expr) : Tame (Expr.tallyAll es) := by
  cases es with
  | nil => exact Tame.pure ()
  | cons e es => exact e.tally_tame.bind fun _ => Expr.tallyAll_tame es

end

theorem Expr.tallyTargets_tame (es : List Expr) : Tame (Expr.tallyTargets es) := by
  induction es with
  | nil => exact Tame.pure ()
  | cons e es ih =>
    refine Tame.bind ?_ fun _ => ih
    unfold Expr.tallyTarget
    split
    · exact Tally.bind_tame _
    · exact e.tally_tame

theorem Node.bindIterators_tame (ns : List Node) : Tame (Node.bindIterators ns) := by
  induction ns with
  | nil => exact Tame.pure ()
  | cons n ns ih =>
    unfold Node.bindIterators
    split
    · exact Tame.pure ()
    · rename_i h
      cases h
      exact (Tally.bindAll_tame _).bind fun _ => ih
    · rename_i h
      cases h
      exact ih

mutual

theorem Node.tally_tame (n : Node) : Tame n.tally := by
  cases n with
  | missing => exact Tame.pure ()
  | expr e => exact e.tally_tame
  | chunk a body | block a body =>
    exact (Node.bindIterators_tame body).bind fun _ => Node.tallyAll_tame body
  | scope a body => exact body.tally_tame
  | whileLoop a c body | arm a c body => exact c.tally_tame.bind fun _ => body.tally_tame
  | repeatLoop a body c => exact body.tally_tame.bind fun _ => c.tally_tame
  | branch a c body arms other =>
    exact c.tally_tame.bind fun _ => body.tally_tame.bind fun _ =>
      (Node.tallyAll_tame arms).bind fun _ => other.tally_tame
  | numericFor a v init limit step body =>
    exact init.tally_tame.bind fun _ => limit.tally_tame.bind fun _ => step.tally_tame.bind fun _ =>
      (Tally.bind_tame v).bind fun _ => body.tally_tame
  | genericFor a vars es body =>
    exact (Expr.tallyAll_tame es).bind fun _ => (Expr.tallyTargets_tame vars).bind fun _ =>
      body.tally_tame
  | function a name params vararg body | localFunction a name params vararg body =>
    exact Tally.nested_tame params body.tally_tame
  | locals a ts vs | assign a ts vs kept =>
    exact (Expr.tallyAll_tame vs).bind fun _ => Expr.tallyTargets_tame ts
  | returns a vs => exact Expr.tallyAll_tame vs
  | jump a offset => exact Tame.pure ()
  | test a c => exact c.tally_tame
  | forPrep a init limit step v =>
    exact init.tally_tame.bind fun _ => limit.tally_tame.bind fun _ => step.tally_tame.bind fun _ =>
      Tally.bind_tame v
  | forLoop a counter offset => exact counter.tally_tame
  | tForLoop a vars => exact Tally.bindAll_tame vars

theorem Node.tallyAll_tame (ns : List Node) : Tame (Node.tallyAll ns) := by
  cases ns with
  | nil => exact Tame.pure ()
  | cons n ns => exact n.tally_tame.bind fun _ => Node.tallyAll_tame ns

end

theorem Node.countUses_outcome (n : Node) :
    Outcome (fun _ => True) Unbound n.countUses := by
  have h := n.tally_tame Tally.empty
  unfold Node.countUses
  cases hrun : n.tally Tally.empty with
  | ok r => trivial
  | error e =>
    rw [hrun] at h
    exact h

/-! ## Inlining -/

namespace Scope

theorem set_tame (index : Int) (value : Expr) : Tame (set index value) := fun _ => trivial

theorem keepAll_tame (rs : List Register) : Tame (keepAll rs) := by
  induction rs with
  | nil => exact Tame.pure ()
  | cons r rs ih => exact (set_tame _ _).bind fun _ => ih

theorem keepTargets_tame (es : List Expr) : Tame (keepTargets es) := by
  induction es with
  | nil => exact Tame.pure ()
  | cons e es ih =>
    unfold keepTargets
    split
    · exact Tame.pure ()
    · rename_i h
      cases h
      exact (set_tame _ _).bind fun _ => ih
    · rename_i h
      cases h
      exact ih

theorem read_tame (r : Register) : Tame (read r) := by
  intro s
  unfold read
  cases s.live r.index with
  | none => exact ⟨r, rfl⟩
  | some e => trivial

theorem share_tame (e : Expr) : Tame (share e) := by
  intro s
  cases e <;> trivial

theorem keepIterators_tame (ns : List Node) : Tame (keepIterators ns) := by
  induction ns with
  | nil => exact Tame.pure ()
  | cons n ns ih =>
    unfold keepIterators
    split
    · exact Tame.pure ()
    · rename_i h
      cases h
      exact (keepAll_tame _).bind fun _ => ih
    · rename_i h
      cases h
      exact ih

end Scope

mutual

theorem Expr.swapWith_tame {visit : Nat → Expr → Inlining Expr} (hvisit : ∀ n e, Tame (visit n e))
    (e : Expr) : Tame (e.swapWith visit) := by
  cases e with
  | register r => exact Scope.read_tame r
  | call a f args =>
    exact (f.swapWith_tame hvisit).bind fun _ => (Expr.swapAllWith_tame hvisit args).bind fun _ =>
      Tame.pure _
  | binary a op l r =>
    exact (l.swapWith_tame hvisit).bind fun _ => (r.swapWith_tame hvisit).bind fun _ => Tame.pure _
  | unary a op e => exact (e.swapWith_tame hvisit).bind fun _ => Tame.pure _
  | table a ks vs =>
    exact (Expr.swapAllWith_tame hvisit ks).bind fun _ =>
      (Expr.swapAllWith_tame hvisit vs).bind fun _ => Tame.pure _
  | index a t k =>
    exact (t.swapWith_tame hvisit).bind fun _ => (k.swapWith_tame hvisit).bind fun _ => Tame.pure _
  | shared n e => exact hvisit n e
  | _ => exact Tame.pure _

theorem Expr.swapAllWith_tame {visit : Nat → Expr → Inlining Expr}
    (hvisit : ∀ n e, Tame (visit n e)) (es : List Expr) : Tame (Expr.swapAllWith visit es) := by
  cases es with
  | nil => exact Tame.pure _
  | cons e es =>
    exact (e.swapWith_tame hvisit).bind fun _ => (Expr.swapAllWith_tame hvisit es).bind fun _ =>
      Tame.pure _

end

theorem Expr.visitShared_tame (depth n : Nat) (e : Expr) : Tame (Expr.visitShared depth n e) := by
  induction depth generalizing n e with
  | zero => exact Tame.pure _
  | succ depth ih =>
    have hlatest : Tame (Scope.latest n e) := fun _ => trivial
    have hrecord : ∀ e, Tame (Scope.record n e) := fun _ _ => trivial
    exact hlatest.bind fun e => (e.swapWith_tame ih).bind fun e => (hrecord e).bind fun _ =>
      Tame.pure _

theorem Expr.swap_tame (depth : Nat) (e : Expr) : Tame (e.swap depth) :=
  e.swapWith_tame (Expr.visitShared_tame depth)

theorem Expr.swapAll_tame (depth : Nat) (es : List Expr) : Tame (Expr.swapAll depth es) :=
  Expr.swapAllWith_tame (Expr.visitShared_tame depth) es

theorem Expr.swapTargets_tame (depth : Nat) (es : List Expr) :
    Tame (Expr.swapTargets depth es) := by
  induction es with
  | nil => exact Tame.pure _
  | cons e es ih =>
    unfold Expr.swapTargets
    split
    · exact Tame.pure _
    · rename_i h
      cases h
      exact ih.bind fun _ => Tame.pure _
    · rename_i h
      cases h
      exact (e.swap_tame depth).bind fun _ => ih.bind fun _ => Tame.pure _

namespace Scope

theorem assign_tame (depth : Nat) (a : Int) (targets values : List Expr) (kept : Bool) :
    Tame (assign depth a targets values kept) := by
  refine (Expr.swapAll_tame depth values).bind fun values =>
    (Expr.swapTargets_tame depth targets).bind fun targets => ?_
  cases values with
  | nil => exact (keepTargets_tame targets).bind fun _ => Tame.pure _
  | cons v rest =>
    dsimp only
    split_ifs
    · exact (keepTargets_tame targets).bind fun _ => Tame.pure _
    · cases foldable? targets with
      | none => exact (keepTargets_tame targets).bind fun _ => Tame.pure _
      | some r => exact (share_tame v).bind fun v => (set_tame _ v).bind fun _ => Tame.pure _

theorem bound_tame (depth : Nat) (n : Node) : Tame (bound depth n) := by
  cases n with
  | assign a targets values kept =>
    refine (assign_tame depth a targets values kept).bind fun r => ?_
    obtain ⟨n, value⟩ := r
    cases value <;> exact Tame.pure _
  | expr e => exact (e.swap_tame depth).bind fun _ => Tame.pure _
  | _ => exact Tame.pure _

theorem nested_tame (bound : Nat) (parameters : List Register) {body : Inlining (Node × Bool)}
    (h : Tame body) : Tame (nested bound parameters body) := by
  intro s
  have hbody := (keepAll_tame parameters).bind (fun _ => h) (start bound)
  unfold nested
  cases hrun : (do keepAll parameters; body : Inlining (Node × Bool)) (start bound) with
  | ok r => trivial
  | error e =>
    rw [hrun] at hbody
    exact hbody

end Scope

mutual

theorem Node.inline_tame (bound : Nat) (n : Node) : Tame (n.inline bound) := by
  cases n with
  | chunk a body | block a body =>
    exact (Scope.keepIterators_tame body).bind fun _ => (Node.inlineAll_tame bound body).bind fun _ =>
      Tame.pure _
  | scope a body => exact (body.inline_tame bound).bind fun _ => Tame.pure _
  | function a name params vararg body | localFunction a name params vararg body =>
    exact (Scope.nested_tame bound params (body.inline_tame bound)).bind fun _ => Tame.pure _
  | assign a targets values kept =>
    exact (Scope.assign_tame bound a targets values kept).bind fun _ => Tame.pure _
  | locals a names values =>
    exact (Expr.swapAll_tame bound values).bind fun _ => (Scope.keepTargets_tame names).bind fun _ =>
      Tame.pure _
  | returns a values => exact (Expr.swapAll_tame bound values).bind fun _ => Tame.pure _
  | whileLoop a c body =>
    exact (c.swap_tame bound).bind fun _ => (body.inline_tame bound).bind fun _ => Tame.pure _
  | repeatLoop a body c =>
    exact (body.inline_tame bound).bind fun _ => (c.swap_tame bound).bind fun _ => Tame.pure _
  | branch a c body arms other =>
    exact (c.swap_tame bound).bind fun _ => (body.inline_tame bound).bind fun _ =>
      (Node.inlineArms_tame bound arms).bind fun _ => (other.inline_tame bound).bind fun _ =>
      Tame.pure _
  | numericFor a v init limit step body =>
    exact (Scope.bound_tame bound init).bind fun _ => (Scope.bound_tame bound limit).bind fun _ =>
      (Scope.bound_tame bound step).bind fun _ => (Scope.set_tame _ _).bind fun _ =>
      (body.inline_tame bound).bind fun _ => Tame.pure _
  | genericFor a vars values body =>
    exact (Expr.swapAll_tame bound values).bind fun _ => (Scope.keepTargets_tame vars).bind fun _ =>
      (body.inline_tame bound).bind fun _ => Tame.pure _
  | test a c => exact (c.swap_tame bound).bind fun _ => Tame.pure _
  | forLoop a counter offset => exact (counter.swap_tame bound).bind fun _ => Tame.pure _
  | forPrep a init limit step v =>
    exact (init.swap_tame bound).bind fun _ => (limit.swap_tame bound).bind fun _ =>
      (step.swap_tame bound).bind fun _ => (Scope.set_tame _ _).bind fun _ => Tame.pure _
  | tForLoop a vars => exact (Scope.keepAll_tame vars).bind fun _ => Tame.pure _
  | _ => exact Tame.pure _

theorem Node.inlineAll_tame (bound : Nat) (ns : List Node) : Tame (Node.inlineAll bound ns) := by
  cases ns with
  | nil => exact Tame.pure _
  | cons n ns =>
    exact (n.inline_tame bound).bind fun _ => (Node.inlineAll_tame bound ns).bind fun _ =>
      Tame.pure _

theorem Node.inlineArms_tame (bound : Nat) (ns : List Node) : Tame (Node.inlineArms bound ns) := by
  cases ns with
  | nil => exact Tame.pure _
  | cons n ns =>
    have hrest := Node.inlineArms_tame bound ns
    cases n with
    | arm a c body =>
      exact (c.swap_tame bound).bind fun _ => (body.inline_tame bound).bind fun _ =>
        hrest.bind fun _ => Tame.pure _
    | _ => exact hrest.bind fun _ => Tame.pure _

end

theorem Node.inlined_outcome (n : Node) : Outcome (fun _ => True) Unbound n.inlined := by
  have h := n.inline_tame n.sharedBound (Scope.start n.sharedBound)
  unfold Node.inlined
  cases hrun : n.inline n.sharedBound (Scope.start n.sharedBound) with
  | ok r => trivial
  | error e =>
    rw [hrun] at h
    exact h

/-! ## Functions -/

/-- All functions of a list can be declared. -/
def AllDeclared (o : Options) (ps : List Prototype) : Prop :=
  ∀ q ∈ ps, ∃ d, q.toCode.declaration o = .ok d

/-- The failure is that of the first function of a list that cannot be declared. -/
def FirstFailure (o : Options) (ps : List Prototype) (e : DecompileError) : Prop :=
  ∃ before p after, ps = before ++ p :: after ∧ AllDeclared o before ∧
    p.toCode.declaration o = .error e

theorem FirstFailure.append_left {o : Options} {ps qs : List Prototype} {e : DecompileError}
    (h : FirstFailure o ps e) : FirstFailure o (ps ++ qs) e := by
  obtain ⟨before, p, after, rfl, hbefore, hp⟩ := h
  exact ⟨before, p, after ++ qs, by simp, hbefore, hp⟩

theorem FirstFailure.append_right {o : Options} {ps qs : List Prototype} {e : DecompileError}
    (hps : AllDeclared o ps) (h : FirstFailure o qs e) : FirstFailure o (ps ++ qs) e := by
  obtain ⟨before, p, after, rfl, hbefore, hp⟩ := h
  refine ⟨ps ++ before, p, after, by simp, fun q hq => ?_, hp⟩
  exact (List.mem_append.mp hq).elim (hps q) (hbefore q)

theorem AllDeclared.append {o : Options} {ps qs : List Prototype} (hps : AllDeclared o ps)
    (hqs : AllDeclared o qs) : AllDeclared o (ps ++ qs) :=
  fun q hq => (List.mem_append.mp hq).elim (hps q) (hqs q)

/-- A function alone. -/
theorem declaration_single (o : Options) (p : Prototype) :
    Outcome (fun _ => AllDeclared o [p]) (FirstFailure o [p]) (p.toCode.declaration o) := by
  cases h : p.toCode.declaration o with
  | ok d => exact List.forall_mem_singleton.mpr ⟨d, h⟩
  | error e => exact ⟨[], p, [], rfl, fun _ hq => absurd hq List.not_mem_nil, h⟩

mutual

theorem Prototype.declaration_outcome (o : Options) (p : Prototype) :
    Outcome (fun _ => AllDeclared o p.walk) (FirstFailure o p.walk) (p.declaration o) := by
  obtain ⟨code, closures⟩ := p
  cases closures with
  | none => exact declaration_single o ⟨code, none⟩
  | some ps =>
    refine Outcome.bind ((declaration_single o ⟨code, some ps⟩).mono (fun _ h => h)
      fun e h => h.append_left) fun d hd => ?_
    refine ((Prototype.locals_outcome o 0 ps).mono (fun _ h => h)
      fun e h => FirstFailure.append_right hd h).bind fun locals hlocals => Outcome.pure ?_
    exact hd.append hlocals

theorem Prototype.locals_outcome (o : Options) (i : Nat) (ps : List Prototype) :
    Outcome (fun _ => AllDeclared o (Prototype.walkAll ps))
      (FirstFailure o (Prototype.walkAll ps)) (Prototype.locals o i ps) := by
  cases ps with
  | nil => exact fun _ h => absurd h List.not_mem_nil
  | cons p ps =>
    refine ((Prototype.declaration_outcome o p).mono (fun _ h => h)
      fun e h => h.append_left).bind fun d hd => ?_
    refine ((Prototype.locals_outcome o (i + 1) ps).mono (fun _ h => h)
      fun e h => FirstFailure.append_right hd h).bind fun rest hrest => Outcome.pure ?_
    exact hd.append hrest

end

/-- The failure names an address and one of the causes that a decoded function can have. -/
def DecompileError.Declared (e : DecompileError) : Prop :=
  ∃ address op cause, e = .failed address op cause ∧ cause.Declared

theorem Unbound.declared {e : DecompileError} (h : Unbound e) : e.Declared := by
  obtain ⟨r, rfl⟩ := h
  exact ⟨_, _, _, rfl, trivial⟩

/-- Recovery of the function meets the end of a numeric loop that leads forward past itself. -/
def Code.Overruns (o : Options) (c : Code) : Prop :=
  o.structured ∧ ∃ d, c.lower = .ok d ∧ Loops.Overruns d.body

theorem Prototype.Decoded.settled {p : Prototype} (hp : p.Decoded) {d : Declaration}
    (hd : p.toCode.lower = .ok d) : Loops.Settled d.body := by
  intro n hn
  have hbody := p.toCode.lower_outcome
  rw [hd] at hbody
  obtain ⟨i, hi, op, -, hmade⟩ := hbody n hn
  refine ⟨?_, hmade.grounded (hp i hi)⟩
  rintro rfl
  cases hmade.flat

/-- A decoded function breaks exactly if it overruns. -/
theorem Prototype.Decoded.declaration {p : Prototype} (hp : p.Decoded) {o : Options}
    (ho : o.stages = []) :
    Outcome (fun _ => ¬ p.toCode.Overruns o)
      (fun e => e = .broken ∧ p.toCode.Overruns o ∨ ¬ p.toCode.Overruns o ∧ e.Declared)
      (p.toCode.declaration o) := by
  have hlower := p.toCode.lower_outcome
  unfold Code.declaration
  cases hd : p.toCode.lower with
  | error e =>
    rw [hd] at hlower
    obtain ⟨i, hi, cause, rfl, hcause⟩ := hlower
    refine .inr ⟨?_, _, _, cause, rfl, hcause (hp i hi)⟩
    rintro ⟨-, d, h, -⟩
    rw [hd] at h
    cases h
  | ok d =>
    have hiff : p.toCode.Overruns o ↔ o.structured ∧ Loops.Overruns d.body := by
      unfold Code.Overruns
      rw [hd]
      simp
    rw [hiff]
    have hrecover := Loops.recover_outcome (hp.settled hd)
    simp only [bind, Except.bind, ho, Stage.runAll]
    cases hs : o.structured with
    | false => simp [Outcome, Pure.pure, Except.pure]
    | true =>
      simp only [if_true, true_and]
      cases hbody : Loops.recover d.body with
      | error e =>
        rw [hbody] at hrecover
        rcases hrecover with h | ⟨h, a, cause, rfl, hcause⟩
        · exact .inl h
        · exact .inr ⟨h, a, none, cause, rfl, hcause⟩
      | ok body =>
        rw [hbody] at hrecover
        exact hrecover

/-- A function that fails is not one of those in front of the first that fails. -/
theorem AllDeclared.not_mem {o : Options} {ps : List Prototype} {p : Prototype}
    {e : DecompileError} (hps : AllDeclared o ps) (hp : p.toCode.declaration o = .error e) :
    p ∉ ps := by
  intro hmem
  obtain ⟨d, hd⟩ := hps p hmem
  rw [hp] at hd
  cases hd

theorem AllDeclared.no_failure {o : Options} {ps : List Prototype} {e : DecompileError}
    (hps : AllDeclared o ps) : ¬ FirstFailure o ps e := by
  rintro ⟨before, p, after, rfl, -, hp⟩
  exact hps.not_mem hp (by simp)

theorem FirstFailure.unique {o : Options} {ps : List Prototype} {e e' : DecompileError}
    (h : FirstFailure o ps e) (h' : FirstFailure o ps e') : e = e' := by
  obtain ⟨before, p, after, hps, hbefore, hp⟩ := h
  obtain ⟨before', p', after', rfl, hbefore', hp'⟩ := h'
  have hsame : p' = p := by
    rcases List.append_eq_append_iff.mp hps with ⟨between, rfl, hrest⟩ | ⟨between, rfl, hrest⟩
    · cases between with
      | nil => exact (List.cons.inj hrest).1
      | cons q between =>
        cases (List.cons.inj hrest).1
        exact absurd (by simp) (hbefore.not_mem hp')
    · cases between with
      | nil => exact (List.cons.inj hrest).1.symm
      | cons q between =>
        cases (List.cons.inj hrest).1
        exact absurd (by simp) (hbefore'.not_mem hp)
  rw [hsame, hp] at hp'
  cases hp'
  rfl

/-- A decoded function that overruns breaks. -/
theorem Prototype.Decoded.declaration_overruns {p : Prototype} (hp : p.Decoded) {o : Options}
    (ho : o.stages = []) (h : p.toCode.Overruns o) : p.toCode.declaration o = .error .broken := by
  have hdeclaration := hp.declaration ho
  cases hd : p.toCode.declaration o with
  | ok d =>
    rw [hd] at hdeclaration
    exact absurd h hdeclaration
  | error e =>
    rw [hd] at hdeclaration
    rcases hdeclaration with ⟨rfl, -⟩ | ⟨hnot, -⟩
    · rfl
    · exact absurd h hnot

/-- A decoded function that overruns has an instruction that ends a numeric loop and does not
branch back. -/
theorem Prototype.Decoded.overruns_forward {p : Prototype} (hp : p.Decoded) {o : Options}
    (h : p.toCode.Overruns o) :
    ∃ i ∈ p.instructions.items, Opcode.ofCode? i.op = some .forLoop ∧ 0 ≤ i.argument 1 := by
  obtain ⟨-, d, hd, hbody⟩ := h
  obtain ⟨address, counter, offset, hmem, hoffset⟩ := Loops.overruns_forward hbody (hp.settled hd)
  have hmade := p.toCode.lower_outcome
  rw [hd] at hmade
  obtain ⟨i, hi, op, hop, hn⟩ := hmade _ hmem
  obtain ⟨rfl, rfl⟩ := hn.loop _ _ _ rfl
  exact ⟨i, hi, hop, hoffset⟩

theorem DecompileError.not_declared_broken : ¬ DecompileError.broken.Declared := by
  rintro ⟨_, _, _, h, -⟩
  cases h

/-- Decompiling fails as the first function that cannot be declared does, or it declares all of them
and meets a register that was not written. -/
theorem ChunkFile.decompile_outcome {f : ChunkFile} (hroot : f.root.isSome) (o : Options) :
    Outcome (fun _ => AllDeclared o f.walk)
      (fun e => FirstFailure o f.walk e ∨ AllDeclared o f.walk ∧ Unbound e) (f.decompile o) := by
  obtain ⟨root, hroot⟩ := Option.isSome_iff_exists.mp hroot
  have hwalk : f.walk = root.walk := by rw [ChunkFile.walk, hroot]
  unfold ChunkFile.decompile
  rw [hroot, hwalk]
  refine Outcome.bind ((root.declaration_outcome o).mono (fun _ h => h) fun e h => .inl h)
    fun d hd => ?_
  dsimp only
  by_cases h : o.inlined
  · rw [if_pos h]
    refine Outcome.bind (P := fun _ => True) ?_ fun n _ => ?_
    · exact (Node.countUses_outcome _).mono (fun _ h => h) fun e he => .inr ⟨hd, he⟩
    · exact n.inlined_outcome.mono (fun _ _ => hd) fun e he => .inr ⟨hd, he⟩
  · rw [if_neg h]
    exact hd

/-- Decompiling a decoded file without stages gives a tree, a failure that names its address and
cause, or it breaks. It breaks exactly if the first functions are declared and the next one overruns,
which takes the end of a numeric loop that does not branch back. -/
theorem ChunkFile.decompile_broken_iff {data : Bytes} {f : ChunkFile}
    (hdecode : ChunkFile.decode data = .ok f) (o : Options) (ho : o.stages = []) :
    ((∃ tree, f.decompile o = .ok tree) ∨ (∃ e, f.decompile o = .error e ∧ e.Declared) ∨
      f.decompile o = .error .broken) ∧
    (f.decompile o = .error .broken ↔
      ∃ before p after, f.walk = before ++ p :: after ∧ AllDeclared o before ∧
        p.toCode.Overruns o) ∧
    (f.decompile o = .error .broken →
      ∃ p ∈ f.walk, ∃ i ∈ p.instructions.items,
        Opcode.ofCode? i.op = some .forLoop ∧ 0 ≤ i.argument 1) := by
  obtain ⟨hroot, hwalk⟩ := ChunkFile.decode_gives hdecode
  have houtcome := ChunkFile.decompile_outcome hroot o
  have hfirst : ∀ before p after, f.walk = before ++ p :: after → AllDeclared o before →
      p.toCode.Overruns o → FirstFailure o f.walk .broken := by
    intro before p after hf hbefore hp
    refine ⟨before, p, after, hf, hbefore, ?_⟩
    exact (hwalk p (by simp [hf])).declaration_overruns ho hp
  cases hrun : f.decompile o with
  | ok tree =>
    rw [hrun] at houtcome
    refine ⟨.inl ⟨tree, rfl⟩, ⟨nofun, ?_⟩, nofun⟩
    rintro ⟨before, p, after, hf, hbefore, hp⟩
    exact absurd (hfirst before p after hf hbefore hp) houtcome.no_failure
  | error e =>
    rw [hrun] at houtcome
    have hcases : e = .broken ∧ (∃ before p after, f.walk = before ++ p :: after ∧
        AllDeclared o before ∧ p.toCode.Overruns o) ∨
        e.Declared ∧ ¬ FirstFailure o f.walk .broken := by
      rcases houtcome with h | ⟨hall, hunbound⟩
      · obtain ⟨before, p, after, hf, hbefore, hp⟩ := id h
        have hdeclaration := (hwalk p (by simp [hf])).declaration ho
        rw [hp] at hdeclaration
        rcases hdeclaration with ⟨rfl, hover⟩ | ⟨-, hdeclared⟩
        · exact .inl ⟨rfl, before, p, after, hf, hbefore, hover⟩
        · refine .inr ⟨hdeclared, fun hbroken => ?_⟩
          exact DecompileError.not_declared_broken (h.unique hbroken ▸ hdeclared)
      · exact .inr ⟨hunbound.declared, hall.no_failure⟩
    rcases hcases with ⟨rfl, hbreaks⟩ | ⟨hdeclared, hno⟩
    · refine ⟨.inr (.inr rfl), ⟨fun _ => hbreaks, fun _ => rfl⟩, fun _ => ?_⟩
      obtain ⟨before, p, after, hf, -, hover⟩ := hbreaks
      have hp : p ∈ f.walk := by simp [hf]
      exact ⟨p, hp, (hwalk p hp).overruns_forward hover⟩
    · have hne : e ≠ .broken := by
        rintro rfl
        exact DecompileError.not_declared_broken hdeclared
      refine ⟨.inr (.inl ⟨e, rfl, hdeclared⟩), ⟨?_, ?_⟩, ?_⟩
      · rintro ⟨⟩
        exact absurd rfl hne
      · rintro ⟨before, p, after, hf, hbefore, hp⟩
        exact absurd (hfirst before p after hf hbefore hp) hno
      · rintro ⟨⟩
        exact absurd rfl hne

/-! ## A loop that ends before it starts -/

/-- The end of a numeric loop, which leads to the return behind the start of the loop; the bounds are
loaded in between. -/
def Assembly.forwardLoop : Assembly where
  header := Header.standard
  root := some ⟨⟨0, 0, 0, 4, [Word.ofAsBx 63 0 4, Word.ofABC 13 0 1 0, Word.ofABC 13 1 1 0,
    Word.ofABC 13 2 1 0, Word.ofAsBx 62 0 0, Word.ofABC 9 0 1 0], [], none⟩, []⟩

theorem forwardLoop_breaks : ∃ f, ChunkFile.decode Assembly.forwardLoop.bytes = .ok f ∧
    f.decompile .standard = .error .broken := by
  have hrun : (ChunkFile.decode Assembly.forwardLoop.bytes).toOption.bind (fun f =>
      match f.decompile .standard with
      | .ok _ => none
      | .error e => some e) = some .broken := by
    decide +kernel
  cases hdecode : ChunkFile.decode Assembly.forwardLoop.bytes with
  | error e =>
    rw [hdecode] at hrun
    cases hrun
  | ok f =>
    refine ⟨f, rfl, ?_⟩
    rw [hdecode] at hrun
    cases hdecompile : f.decompile .standard with
    | ok tree => simp [Except.toOption, hdecompile] at hrun
    | error e =>
      simp only [Except.toOption, Option.bind_some, hdecompile, Option.some.injEq] at hrun
      rw [hrun]

theorem decompile_broken_iff_forwardLoop :
    ∃ f, ChunkFile.decode Assembly.forwardLoop.bytes = .ok f ∧ Options.standard.stages = [] ∧
      f.decompile .standard = .error .broken ∧
      (∃ before p after, f.walk = before ++ p :: after ∧ AllDeclared .standard before ∧
        p.toCode.Overruns .standard) ∧
      ∃ p ∈ f.walk, ∃ i ∈ p.instructions.items,
        Opcode.ofCode? i.op = some .forLoop ∧ 0 ≤ i.argument 1 := by
  obtain ⟨f, hdecode, hbroken⟩ := forwardLoop_breaks
  obtain ⟨-, hiff, hforward⟩ := ChunkFile.decompile_broken_iff hdecode .standard rfl
  exact ⟨f, hdecode, rfl, hbroken, hiff.mp hbroken, hforward hbroken⟩

/-- Not every decoded file gives a tree or a failure that names its address and cause. -/
theorem decompile_forwardLoop_undeclared :
    ∃ f, ChunkFile.decode Assembly.forwardLoop.bytes = .ok f ∧ Options.standard.stages = [] ∧
      ¬ ((∃ tree, f.decompile .standard = .ok tree) ∨
        ∃ e, f.decompile .standard = .error e ∧ e.Declared) := by
  obtain ⟨f, hdecode, hbroken⟩ := forwardLoop_breaks
  refine ⟨f, hdecode, rfl, ?_⟩
  rw [hbroken]
  rintro (⟨tree, h⟩ | ⟨e, h, hdeclared⟩)
  · cases h
  · cases h
    exact DecompileError.not_declared_broken hdeclared

end HavokScript
