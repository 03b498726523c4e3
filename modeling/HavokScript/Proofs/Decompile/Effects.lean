import HavokScript.Proofs.Decompile.Substitution
import HavokScript.Tree.Outline

/-!
# Inlining keeps effects in place

All that a tree does besides giving values to registers is its calls, the assignments to anything that
is no register, and the statements that return or branch. `Node.effects` lists them in the order of a
walk. Inlining leaves out assignments and moves their values, but no value that stands for a register
has a call in it, so the list stays the same (`Turns.effects`), and every call stays in the statement
that it was in (`Node.Filled`).
-/

namespace HavokScript

/-! ## Effects -/

/-- Whether a node of a walk does more than to give values to registers. An assignment that a call
stands in does; the call itself comes behind it. -/
def Node.effectful : Node → Bool
  | .expr (.call ..) => true
  | .expr _ | .missing => false
  | .assign _ ts vs _ => ts.any (fun t => t.register?.isNone) || vs.any Expr.isCall
  | _ => true

namespace Outline

/-- The effects of a walk over outlines, by kind and address. -/
def effects (os : List Outline) : List (String × Int) :=
  ((visitedAll (fun _ => true) os).filter Node.effectful).map fun n => (n.kind, n.address)

@[simp] theorem effects_append (os ps : List Outline) :
    effects (os ++ ps) = effects os ++ effects ps := by
  rw [effects, visitedAll_append, List.filter_append, List.map_append, effects, effects]

theorem effects_of_effectful {n : Node} (h : n.effectful) (cs : List Outline) :
    effects [.node n cs] = (n.kind, n.address) :: effects cs := by
  simp [effects, visitedAll, visited, h]

theorem effects_of_quiet {n : Node} (h : n.effectful = false) (cs : List Outline) :
    effects [.node n cs] = effects cs := by
  simp [effects, visitedAll, visited, h]

theorem effects_map_ofRegister (rs : List Register) : effects (rs.map ofRegister) = [] := by
  induction rs with
  | nil => rfl
  | cons r rs ih => exact ih

end Outline

/-- The calls in an expression. -/
def Expr.effects (e : Expr) : List (String × Int) := Outline.effects e.outline

/-- The calls in expressions. -/
def Expr.effectsAll (es : List Expr) : List (String × Int) := Outline.effects (Expr.outlines es)

/-- The effects of a tree, in the order of a walk. -/
def Node.effects (n : Node) : List (String × Int) := Outline.effects n.outline

/-- The effects of statements. -/
def Node.effectsAll (ns : List Node) : List (String × Int) := Outline.effects (Node.outlines ns)

namespace Expr

@[simp] theorem effectsAll_nil : effectsAll [] = [] := rfl

@[simp] theorem effectsAll_cons (e : Expr) (es : List Expr) :
    effectsAll (e :: es) = e.effects ++ effectsAll es :=
  Outline.effects_append _ _

theorem effects_call (a : Int) (f : Expr) (args : List Expr) :
    (call a f args).effects = ("Call", a) :: (f.effects ++ effectsAll args) := by
  rw [effects, outline, Outline.effects_of_effectful rfl, Outline.effects_append]
  rfl

theorem effects_binary (a : Int) (op : Bytes) (l r : Expr) :
    (binary a op l r).effects = l.effects ++ r.effects := by
  rw [effects, outline, Outline.effects_of_quiet rfl, Outline.effects_append]
  rfl

theorem effects_unary (a : Int) (op : Bytes) (e : Expr) : (unary a op e).effects = e.effects :=
  Outline.effects_of_quiet rfl _

theorem effects_table (a : Int) (ks vs : List Expr) :
    (table a ks vs).effects = effectsAll ks ++ effectsAll vs := by
  rw [effects, outline, Outline.effects_of_quiet rfl, Outline.effects_append]
  rfl

theorem effects_index (a : Int) (t k : Expr) : (index a t k).effects = t.effects ++ k.effects := by
  rw [effects, outline, Outline.effects_of_quiet rfl, Outline.effects_append]
  rfl

theorem effects_register (r : Register) : (register r).effects = [] := rfl

mutual

theorem effects_of_plain {e : Expr} (h : e.plain) : e.effects = [] := by
  cases e with
  | call a f args => cases h
  | shared n e => cases h
  | binary a op l r =>
    rw [plain, Bool.and_eq_true] at h
    rw [effects_binary, effects_of_plain h.1, effects_of_plain h.2, List.append_nil]
  | unary a op e =>
    rw [plain] at h
    rw [effects_unary, effects_of_plain h]
  | table a ks vs =>
    rw [plain, Bool.and_eq_true] at h
    rw [effects_table, effectsAll_of_plain h.1, effectsAll_of_plain h.2, List.append_nil]
  | index a t k =>
    rw [plain, Bool.and_eq_true] at h
    rw [effects_index, effects_of_plain h.1, effects_of_plain h.2, List.append_nil]
  | _ => rfl

theorem effectsAll_of_plain {es : List Expr} (h : plainAll es) : effectsAll es = [] := by
  cases es with
  | nil => rfl
  | cons e es =>
    rw [plainAll, Bool.and_eq_true] at h
    rw [effectsAll_cons, effects_of_plain h.1, effectsAll_of_plain h.2, List.append_nil]

end

/-- An expression without calls in it is none. -/
theorem isCall_of_effects : (e : Expr) → e.effects = [] → e.isCall = false
  | .shared _ e, h => isCall_of_effects e h
  | .call a f args, h => by
    rw [effects_call] at h
    cases h
  | .missing, _ | .register _, _ | .closure .., _ | .identifier .., _ | .nil _, _ | .bool .., _
  | .number .., _ | .string .., _ | .vararg _, _ | .binary .., _ | .unary .., _ | .table .., _
  | .index .., _ => rfl

end Expr

/-! ## Substitution keeps effects -/

/-- Nothing that stands for a register has a call in it. -/
def Slots.Calm (live : Slots Expr) : Prop := live.Forall fun x => x.effects = []

section

variable {live : Slots Expr}

mutual

theorem Expr.effects_fill (h : live.Calm) (e : Expr) : (e.fill live).effects = e.effects := by
  cases e with
  | register r =>
    rw [Expr.fill]
    cases hx : live r.index with
    | none => rfl
    | some x => exact h _ x hx
  | call a f args =>
    rw [Expr.fill, effects_call, f.effects_fill h, Expr.effectsAll_fillAll h args, effects_call]
  | binary a op l r =>
    rw [Expr.fill, effects_binary, l.effects_fill h, r.effects_fill h, effects_binary]
  | unary a op e => rw [Expr.fill, effects_unary, e.effects_fill h, effects_unary]
  | table a ks vs =>
    rw [Expr.fill, effects_table, Expr.effectsAll_fillAll h ks, Expr.effectsAll_fillAll h vs,
      effects_table]
  | index a t k => rw [Expr.fill, effects_index, t.effects_fill h, k.effects_fill h, effects_index]
  | _ => rfl

theorem Expr.effectsAll_fillAll (h : live.Calm) (es : List Expr) :
    Expr.effectsAll (Expr.fillAll live es) = Expr.effectsAll es := by
  cases es with
  | nil => rfl
  | cons e es =>
    rw [Expr.fillAll, effectsAll_cons, e.effects_fill h, Expr.effectsAll_fillAll h es,
      effectsAll_cons]

end

theorem Expr.effectsAll_fillTargets (h : live.Calm) (ts : List Expr) :
    Expr.effectsAll (ts.map (Expr.fillTarget live)) = Expr.effectsAll ts := by
  induction ts with
  | nil => rfl
  | cons t ts ih =>
    have ht : (t.fillTarget live).effects = t.effects := by
      cases t with
      | register r => rfl
      | _ => exact Expr.effects_fill h _
    rw [List.map_cons, effectsAll_cons, ht, ih, effectsAll_cons]

theorem Slots.Calm.isCall (h : live.Calm) : live.Forall fun x => x.isCall = false :=
  fun q x hx => x.isCall_of_effects (h q x hx)

namespace Node

theorem effects_assign (a : Int) (ts vs : List Expr) (kept : Bool) :
    (assign a ts vs kept).effects =
      (if ts.any (fun t => t.register?.isNone) || vs.any Expr.isCall then [("Assign", a)] else []) ++
        (Expr.effectsAll ts ++ Expr.effectsAll vs) := by
  have heffectful : (assign a ts vs kept).effectful =
      (ts.any (fun t => t.register?.isNone) || vs.any Expr.isCall) := rfl
  rw [effects, outline]
  cases h : ts.any (fun t => t.register?.isNone) || vs.any Expr.isCall with
  | true =>
    rw [Outline.effects_of_effectful (heffectful.trans h), Outline.effects_append]
    rfl
  | false =>
    rw [Outline.effects_of_quiet (heffectful.trans h), Outline.effects_append]
    rfl

theorem effects_returns (a : Int) (vs : List Expr) :
    (returns a vs).effects = ("Return", a) :: Expr.effectsAll vs :=
  Outline.effects_of_effectful rfl _

theorem effects_test (a : Int) (c : Expr) : (test a c).effects = ("Test", a) :: c.effects :=
  Outline.effects_of_effectful rfl _

theorem effects_forPrep (a : Int) (x y z : Expr) (v : Register) :
    (forPrep a x y z v).effects = ("ForPrep", a) :: (x.effects ++ y.effects ++ z.effects) := by
  rw [effects, outline, Outline.effects_of_effectful rfl]
  simp only [Outline.effects_append]
  exact congrArg _ (List.append_nil _)

theorem effects_forLoop (a : Int) (c : Expr) (offset : Int) :
    (forLoop a c offset).effects = ("ForLoop", a) :: c.effects :=
  Outline.effects_of_effectful rfl _

/-- Filling in what is free of calls keeps the effects of a flat statement. -/
theorem effects_fill {n : Node} (h : live.Calm) (hflat : n.Flat) :
    (n.fill live).effects = n.effects := by
  cases n with
  | assign a ts vs kept =>
    have hts : (ts.map (Expr.fillTarget live)).any (fun t => t.register?.isNone) =
        ts.any fun t => t.register?.isNone := by
      simp only [List.any_map, Function.comp_def, Expr.register?_fillTarget]
    have hvs : (Expr.fillAll live vs).any Expr.isCall = vs.any Expr.isCall := by
      simp only [Expr.fillAll_eq_map, List.any_map, Function.comp_def, Expr.isCall_fill h.isCall]
    rw [fill, effects_assign, hts, hvs, Expr.effectsAll_fillTargets h, Expr.effectsAll_fillAll h,
      effects_assign]
  | returns a vs => rw [fill, effects_returns, Expr.effectsAll_fillAll h, effects_returns]
  | jump a offset => rfl
  | test a c => rw [fill, effects_test, c.effects_fill h, effects_test]
  | forPrep a x y z v =>
    rw [fill, effects_forPrep, x.effects_fill h, y.effects_fill h, z.effects_fill h,
      effects_forPrep]
  | forLoop a c offset => rw [fill, effects_forLoop, c.effects_fill h, effects_forLoop]
  | tForLoop a vars => rfl
  | _ => cases hflat

@[simp] theorem effectsAll_nil : effectsAll [] = [] := rfl

@[simp] theorem effectsAll_cons (n : Node) (ns : List Node) :
    effectsAll (n :: ns) = n.effects ++ effectsAll ns :=
  Outline.effects_append _ _

theorem effects_block (a : Int) (body : List Node) :
    (block a body).effects = ("Block", a) :: effectsAll body :=
  Outline.effects_of_effectful rfl _

theorem effects_numericFor (a : Int) (v : Register) (init limit step body : Node) :
    (numericFor a v init limit step body).effects =
      ("NumericFor", a) :: (init.effects ++ limit.effects ++ step.effects ++ body.effects) := by
  rw [effects, outline, Outline.effects_of_effectful rfl]
  congr 1
  change Outline.effects (init.outline ++ limit.outline ++ step.outline ++ body.outline) = _
  simp only [Outline.effects_append]
  rfl

theorem effects_ofExpr (e : Expr) : (ofExpr e).effects = e.effects := by
  cases e <;> rfl

/-- An assignment that is folded has no effects. -/
theorem Folded.effects {s : Scope} {r : Register} {v : Expr} (h : Folded s r v) (a : Int) :
    (assign a [.register r] [v] false).effects = [] := by
  have hcall : v.isCall = false := isCall_of_plain h.plain
  rw [effects_assign, Expr.effectsAll_cons, Expr.effectsAll_cons, Expr.effects_of_plain h.plain]
  simp [hcall, Expr.register?, Expr.effects_register]

end Node

end

/-! ## Runs keep effects -/

theorem Scope.effects_standIn (s : Scope) (v : Expr) : (s.standIn v).effects = v.effects := by
  cases v <;> rfl

theorem Scope.Calm.keeping {s : Scope} (h : s.live.Calm) (rs : List Register) :
    (s.keeping rs).live.Calm := Scope.forall_keeping h fun r _ => Expr.effects_register r

theorem Node.Folded.fill_effects {s : Scope} {r : Register} {v : Expr} (h : Node.Folded s r v)
    (hs : s.live.Calm) : (v.fill s.live).effects = [] :=
  (v.effects_fill hs).trans (Expr.effects_of_plain h.plain)

theorem Node.Folded.calm {s : Scope} {r : Register} {v : Expr} (h : Node.Folded s r v)
    (hs : s.live.Calm) : (s.folding r (v.fill s.live)).live.Calm :=
  Scope.forall_folding hs ((s.effects_standIn _).trans (h.fill_effects hs))

theorem Loads.effects {s s' : Scope} {n n' : Node} (h : Loads s n n' s') (hs : s.live.Calm) :
    s'.live.Calm ∧ n'.effects = n.effects := by
  cases h with
  | @folded a r v hfolded =>
    refine ⟨hfolded.calm hs, ?_⟩
    rw [Node.effects_ofExpr, Scope.effects_standIn, hfolded.fill_effects hs, hfolded.effects]
  | kept hkept _ => exact ⟨Scope.Calm.keeping hs _, Node.effects_fill hs hkept.flat⟩
  | alone _ => exact ⟨hs, rfl⟩

theorem Turns.effects {s s' : Scope} {ns ns' : List Node} (h : Turns s ns ns' s')
    (hs : s.live.Calm) : s'.live.Calm ∧ Node.effectsAll ns' = Node.effectsAll ns := by
  induction h with
  | nil => exact ⟨hs, rfl⟩
  | folded hfolded _ ih =>
    obtain ⟨hcalm, hrest⟩ := ih (hfolded.calm hs)
    rw [Node.effectsAll_cons, hfolded.effects, List.nil_append]
    exact ⟨hcalm, hrest⟩
  | kept hkept _ ih =>
    obtain ⟨hcalm, hrest⟩ := ih (Scope.Calm.keeping hs _)
    rw [Node.effectsAll_cons, Node.effects_fill hs hkept.flat, hrest, Node.effectsAll_cons]
    exact ⟨hcalm, rfl⟩
  | block _ _ ihinner ihrest =>
    obtain ⟨hcalm, hinner⟩ := ihinner (Scope.Calm.keeping hs _)
    obtain ⟨hcalm, hrest⟩ := ihrest hcalm
    rw [Node.effectsAll_cons, Node.effects_block, hinner, hrest, Node.effectsAll_cons,
      Node.effects_block]
    exact ⟨hcalm, rfl⟩
  | numeric hinit hlimit hstep _ _ ihinner ihrest =>
    obtain ⟨hcalm, hinit⟩ := hinit.effects hs
    obtain ⟨hcalm, hlimit⟩ := hlimit.effects hcalm
    obtain ⟨hcalm, hstep⟩ := hstep.effects hcalm
    obtain ⟨hcalm, hinner⟩ := ihinner (Scope.Calm.keeping hcalm _)
    obtain ⟨hcalm, hrest⟩ := ihrest hcalm
    rw [Node.effectsAll_cons, Node.effects_numericFor, Node.effects_block, hinit, hlimit, hstep,
      hinner, hrest, Node.effectsAll_cons, Node.effects_numericFor, Node.effects_block]
    exact ⟨hcalm, rfl⟩

/-! ## Calls stay in their statements -/

namespace Node

/-- What is left of a bound of a numeric loop: the value of an assignment, or the statement with
expressions free of calls in the place of the registers it reads, or the statement. -/
inductive FilledBound : Node → Node → Prop
  | value {a : Int} {r : Register} {v x : Expr} {live : Slots Expr} (calm : live.Calm)
      (noCall : v.effects = []) (value : x = v.fill live ∨ ∃ k, x = .shared k (v.fill live)) :
      FilledBound (.assign a [.register r] [v] false) (.ofExpr x)
  | kept {n : Node} {live : Slots Expr} (calm : live.Calm) (flat : n.Flat) :
      FilledBound n (n.fill live)
  | alone {n : Node} : FilledBound n n

/-- What is left of statements: assignments of values without calls to registers may be left out, and
the others follow each other with expressions free of calls in the place of the registers they read. -/
inductive Filled : List Node → List Node → Prop
  | nil : Filled [] []
  | deleted {a : Int} {r : Register} {v : Expr} {ns ns' : List Node} (noCall : v.effects = [])
      (rest : Filled ns ns') : Filled (.assign a [.register r] [v] false :: ns) ns'
  | kept {n : Node} {live : Slots Expr} {ns ns' : List Node} (calm : live.Calm) (flat : n.Flat)
      (rest : Filled ns ns') : Filled (n :: ns) (n.fill live :: ns')
  | block {a : Int} {body body' ns ns' : List Node} (inner : Filled body body')
      (rest : Filled ns ns') : Filled (.block a body :: ns) (.block a body' :: ns')
  | numeric {a b : Int} {v : Register} {init init' limit limit' step step' : Node}
      {body body' ns ns' : List Node} (hinit : FilledBound init init')
      (hlimit : FilledBound limit limit') (hstep : FilledBound step step')
      (inner : Filled body body') (rest : Filled ns ns') :
      Filled (.numericFor a v init limit step (.block b body) :: ns)
        (.numericFor a v init' limit' step' (.block b body') :: ns')

end Node

theorem Loads.filled {s s' : Scope} {n n' : Node} (h : Loads s n n' s') (hs : s.live.Calm) :
    Node.FilledBound n n' := by
  cases h with
  | @folded a r v hfolded =>
    refine .value hs (Expr.effects_of_plain hfolded.plain) ?_
    generalize v.fill s.live = x
    cases x <;> first | exact .inl rfl | exact .inr ⟨_, rfl⟩
  | kept hkept _ => exact .kept hs hkept.flat
  | alone _ => exact .alone

theorem Turns.filled {s s' : Scope} {ns ns' : List Node} (h : Turns s ns ns' s')
    (hs : s.live.Calm) : Node.Filled ns ns' := by
  induction h with
  | nil => exact .nil
  | folded hfolded _ ih =>
    exact .deleted (Expr.effects_of_plain hfolded.plain) (ih (hfolded.calm hs))
  | kept hkept _ ih => exact .kept hs hkept.flat (ih (Scope.Calm.keeping hs _))
  | block hinner _ ihinner ihrest =>
    have hcalm := Scope.Calm.keeping hs
    exact .block (ihinner (hcalm _)) (ihrest (hinner.effects (hcalm _)).1)
  | numeric hinit hlimit hstep hinner _ ihinner ihrest =>
    have hcalm := (hinit.effects hs).1
    have hcalm' := (hlimit.effects hcalm).1
    have hkeeping := Scope.Calm.keeping (hstep.effects hcalm').1
    exact .numeric (hinit.filled hs) (hlimit.filled hcalm) (hstep.filled hcalm')
      (ihinner (hkeeping _)) (ihrest (hinner.effects (hkeeping _)).1)

/-- **Inlining keeps every effect in place.** The calls, the assignments to anything that is no register
and the statements that return or branch are the same in the same order before and after inlining a
function, whether its loops were recovered or not; only assignments of values without calls are left
out, and what is put in the place of a register has no call in it. -/
theorem Code.inlined_effects {c : Code} {d : Declaration} {out : List Node} {counted tree : Node}
    (hlower : c.lower = .ok d) (hout : out = d.body ∨ Loops.recover d.body = .ok out)
    (hcount : ({ d with body := out } : Declaration).toNode.countUses = .ok counted)
    (hinline : counted.inlined = .ok tree) :
    tree.effects = counted.effects ∧ ∃ (e : Declaration) (body : List Node),
      counted = e.toNode ∧ tree = ({ e with body } : Declaration).toNode ∧
        Node.Filled e.body body := by
  obtain ⟨-, t, body, s, -, rfl, hturns, rfl⟩ := Code.inlined_turns hlower hout hcount hinline
  have hcalm : (({ d with body := out } : Declaration).addReads t.reads).scope.live.Calm :=
    Scope.Calm.keeping (nofun : Slots.Calm (Scope.start 0).live) _
  refine ⟨?_, _, body, rfl, rfl, hturns.filled hcalm⟩
  have hfunction : ∀ e : Declaration, e.toNode.effects =
      ("Function", e.address) :: ("Block", e.address) :: Node.effectsAll e.body := by
    intro e
    rw [Declaration.toNode, Node.effects, Node.outline, Outline.effects_of_effectful rfl,
      Outline.effects_append, Outline.effects_append, Outline.effects_map_ofRegister]
    exact congrArg _ (Node.effects_block _ _)
  rw [hfunction, hfunction, (hturns.effects hcalm).2]
  rfl

/-- A loop in which a call takes values that were folded, and its result is stored. -/
theorem Code.inlined_effects_loop :
    ∃ (c : Code) (d : Declaration) (out : List Node) (counted tree : Node), c.lower = .ok d ∧
      Loops.recover d.body = .ok out ∧
      ({ d with body := out } : Declaration).toNode.countUses = .ok counted ∧
      counted.inlined = .ok tree ∧
      tree.effects = [("Function", 0), ("Block", 0), ("NumericFor", 0), ("Block", 0), ("Assign", 24),
        ("Call", 24), ("Assign", 28), ("Return", 36)] ∧
      tree.effects = counted.effects ∧ ∃ (e : Declaration) (body : List Node),
        counted = e.toNode ∧ tree = ({ e with body } : Declaration).toNode ∧
          Node.Filled e.body body := by
  obtain ⟨d', counted, tree, hd, hcount, hinline, hrun⟩ := bothPasses_any
    (x := (Code.ofWords 1 [Word.ofABC 7 1 0 0, Word.ofABC 7 2 0 0, Word.ofABC 7 3 0 0,
      Word.ofAsBx 62 1 4, Word.ofABC 7 5 0 0, Word.ofABC 7 6 4 0, Word.ofABC 30 5 2 2,
      Word.ofABC 39 5 0 0, Word.ofAsBx 63 1 (-5), Word.ofABC 9 0 1 0]).withLoops)
    (P := fun _ _ tree => tree.effects == [("Function", 0), ("Block", 0), ("NumericFor", 0),
      ("Block", 0), ("Assign", 24), ("Call", 24), ("Assign", 28), ("Return", 36)])
    (by decide +kernel)
  obtain ⟨d, out, hlower, hrecover, rfl⟩ := Code.withLoops_ok hd
  exact ⟨_, d, out, counted, tree, hlower, hrecover, hcount, hinline, eq_of_beq hrun,
    Code.inlined_effects hlower (.inr hrecover) hcount hinline⟩

end HavokScript
