import HavokScript.Proofs.Decompile.Bindings
import HavokScript.Proofs.Decompile.UseCounts

/-!
# Inlining as substitution

In a tree without shared expressions inlining replaces each read of a register with what stands for
it (`Expr.fill`), and only assignments and loop variables change what stands for a register. So a whole
run is told by the scopes in front of its statements: `Turns` says what becomes of a list of statements,
one case for each kind, and `Recovered.turns` that inlining into a recovered list is such a run. What is
proved of inlining is proved by induction on it.
-/

namespace HavokScript

/-! ## Expressions -/

mutual

/-- The expression with what stands for each register in the place of its reads. -/
def Expr.fill (live : Slots Expr) : Expr → Expr
  | .register r => (live r.index).getD (.register r)
  | .call a f args => .call a (f.fill live) (Expr.fillAll live args)
  | .binary a op l r => .binary a op (l.fill live) (r.fill live)
  | .unary a op e => .unary a op (e.fill live)
  | .table a ks vs => .table a (Expr.fillAll live ks) (Expr.fillAll live vs)
  | .index a t k => .index a (t.fill live) (k.fill live)
  | e => e

/-- The same for expressions. -/
def Expr.fillAll (live : Slots Expr) : List Expr → List Expr
  | [] => []
  | e :: es => e.fill live :: Expr.fillAll live es

end

/-- The target with its reads replaced: a register is written and not read. -/
def Expr.fillTarget (live : Slots Expr) : Expr → Expr
  | .register r => .register r
  | e => e.fill live

/-- Something stands for each of the registers. -/
def Slots.Binds (live : Slots Expr) (rs : List Register) : Prop :=
  ∀ r ∈ rs, (live r.index).isSome

/-- All that stands for a register has the property. -/
def Slots.Forall (live : Slots Expr) (P : Expr → Prop) : Prop := ∀ q x, live q = some x → P x

theorem Slots.Binds.nil {live : Slots Expr} : live.Binds [] := List.forall_mem_nil _

theorem Slots.Binds.append {live : Slots Expr} {rs ss : List Register} :
    live.Binds (rs ++ ss) ↔ live.Binds rs ∧ live.Binds ss := List.forall_mem_append

theorem Expr.inputsAll_append (es fs : List Expr) :
    Expr.inputsAll (es ++ fs) = Expr.inputsAll es ++ Expr.inputsAll fs := by
  induction es with
  | nil => rfl
  | cons e es ih => rw [List.cons_append, inputsAll_cons, ih, inputsAll_cons, List.append_assoc]

theorem Expr.fillAll_eq_map (live : Slots Expr) (es : List Expr) :
    Expr.fillAll live es = es.map (Expr.fill live) := by
  induction es with
  | nil => rfl
  | cons e es ih => rw [Expr.fillAll, ih, List.map_cons]

theorem Expr.fillTarget_of_read {e : Expr} (h : e.register? = none) (live : Slots Expr) :
    e.fillTarget live = e.fill live := by
  cases e <;> first | rfl | cases h

/-- Only what stands for a register can become another register. -/
theorem Expr.register?_fillTarget (live : Slots Expr) (e : Expr) :
    (e.fillTarget live).register? = e.register? := by
  cases e <;> rfl

theorem Expr.registers_fillTarget (live : Slots Expr) (ts : List Expr) :
    Expr.registers (ts.map (Expr.fillTarget live)) = Expr.registers ts := by
  refine registers_of_map ?_
  rw [List.map_map]
  exact List.map_congr_left fun e _ => e.register?_fillTarget live

section

variable {visit : Nat → Expr → Inlining Expr}

mutual

theorem swapWith_fill {e e' : Expr} {s s' : Scope} (he : e.sharedBound = 0)
    (h : e.swapWith visit s = .ok (e', s')) :
    e' = e.fill s.live ∧ s' = s ∧ s.live.Binds e.inputs := by
  cases e with
  | register r =>
    obtain ⟨x, hx, rfl, rfl⟩ := read_ok h
    refine ⟨by rw [Expr.fill, hx]; rfl, rfl, ?_⟩
    exact List.forall_mem_singleton.mpr (by rw [hx]; rfl)
  | call a f args =>
    rw [Expr.sharedBound, Nat.max_eq_zero_iff] at he
    obtain ⟨f', t, hf, h⟩ := ok_of_bind h
    obtain ⟨args', u, hargs, h⟩ := ok_of_bind h
    obtain ⟨rfl, rfl, hfbinds⟩ := swapWith_fill he.1 hf
    obtain ⟨rfl, rfl, hbinds⟩ := swapAllWith_fill he.2 hargs
    obtain ⟨rfl, rfl⟩ := ok_of_pure h
    rw [Expr.inputs_call, Slots.Binds.append]
    exact ⟨rfl, rfl, hfbinds, hbinds⟩
  | binary a op l r =>
    rw [Expr.sharedBound, Nat.max_eq_zero_iff] at he
    obtain ⟨l', t, hl, h⟩ := ok_of_bind h
    obtain ⟨r', u, hr, h⟩ := ok_of_bind h
    obtain ⟨rfl, rfl, hlbinds⟩ := swapWith_fill he.1 hl
    obtain ⟨rfl, rfl, hrbinds⟩ := swapWith_fill he.2 hr
    obtain ⟨rfl, rfl⟩ := ok_of_pure h
    rw [Expr.inputs_binary, Slots.Binds.append]
    exact ⟨rfl, rfl, hlbinds, hrbinds⟩
  | unary a op e =>
    rw [Expr.sharedBound] at he
    obtain ⟨e', t, he', h⟩ := ok_of_bind h
    obtain ⟨rfl, rfl, hbinds⟩ := swapWith_fill he he'
    obtain ⟨rfl, rfl⟩ := ok_of_pure h
    rw [Expr.inputs_unary]
    exact ⟨rfl, rfl, hbinds⟩
  | table a ks vs =>
    rw [Expr.sharedBound, Nat.max_eq_zero_iff] at he
    obtain ⟨ks', t, hks, h⟩ := ok_of_bind h
    obtain ⟨vs', u, hvs, h⟩ := ok_of_bind h
    obtain ⟨rfl, rfl, hkbinds⟩ := swapAllWith_fill he.1 hks
    obtain ⟨rfl, rfl, hvbinds⟩ := swapAllWith_fill he.2 hvs
    obtain ⟨rfl, rfl⟩ := ok_of_pure h
    rw [Expr.inputs_table, Slots.Binds.append]
    exact ⟨rfl, rfl, hkbinds, hvbinds⟩
  | index a t k =>
    rw [Expr.sharedBound, Nat.max_eq_zero_iff] at he
    obtain ⟨t', u, ht, h⟩ := ok_of_bind h
    obtain ⟨k', w, hk, h⟩ := ok_of_bind h
    obtain ⟨rfl, rfl, htbinds⟩ := swapWith_fill he.1 ht
    obtain ⟨rfl, rfl, hkbinds⟩ := swapWith_fill he.2 hk
    obtain ⟨rfl, rfl⟩ := ok_of_pure h
    rw [Expr.inputs_index, Slots.Binds.append]
    exact ⟨rfl, rfl, htbinds, hkbinds⟩
  | shared n e =>
    rw [Expr.sharedBound] at he
    omega
  | _ =>
    obtain ⟨rfl, rfl⟩ := ok_of_pure h
    exact ⟨rfl, rfl, .nil⟩

theorem swapAllWith_fill {es es' : List Expr} {s s' : Scope} (hes : Expr.sharedBoundAll es = 0)
    (h : Expr.swapAllWith visit es s = .ok (es', s')) :
    es' = Expr.fillAll s.live es ∧ s' = s ∧ s.live.Binds (Expr.inputsAll es) := by
  cases es with
  | nil =>
    obtain ⟨rfl, rfl⟩ := ok_of_pure h
    exact ⟨rfl, rfl, .nil⟩
  | cons e es =>
    rw [Expr.sharedBoundAll, Nat.max_eq_zero_iff] at hes
    obtain ⟨e', t, he, h⟩ := ok_of_bind h
    obtain ⟨es', u, hes', h⟩ := ok_of_bind h
    obtain ⟨rfl, rfl, hbinds⟩ := swapWith_fill hes.1 he
    obtain ⟨rfl, rfl, hallbinds⟩ := swapAllWith_fill hes.2 hes'
    obtain ⟨rfl, rfl⟩ := ok_of_pure h
    rw [Expr.inputsAll_cons, Slots.Binds.append]
    exact ⟨rfl, rfl, hbinds, hallbinds⟩

end

/-- The targets that are no registers. -/
def Expr.places (ts : List Expr) : List Expr := ts.filter fun t => t.register?.isNone

theorem Expr.places_fillTarget (live : Slots Expr) (ts : List Expr) :
    Expr.places (ts.map (Expr.fillTarget live)) = (Expr.places ts).map (Expr.fill live) := by
  have hsame : (fun t : Expr => t.register?.isNone) ∘ Expr.fillTarget live =
      fun t => t.register?.isNone :=
    funext fun t => congrArg Option.isNone (t.register?_fillTarget live)
  rw [places, List.filter_map, hsame, places]
  refine List.map_congr_left fun t ht => Expr.fillTarget_of_read ?_ live
  simpa using List.of_mem_filter ht

theorem Expr.sharedBoundAll_eq_zero {es : List Expr} :
    Expr.sharedBoundAll es = 0 ↔ ∀ e ∈ es, e.sharedBound = 0 := by
  induction es with
  | nil => simp [Expr.sharedBoundAll]
  | cons e es ih => simp [Expr.sharedBoundAll, ih]

theorem swapTargets_fill {depth : Nat} {ts ts' : List Expr} {s s' : Scope}
    (hts : Expr.sharedBoundAll ts = 0) (h : Expr.swapTargets depth ts s = .ok (ts', s')) :
    ts' = ts.map (Expr.fillTarget s.live) ∧ s' = s ∧
      s.live.Binds (Expr.inputsAll (Expr.places ts)) := by
  induction ts generalizing ts' s' with
  | nil =>
    obtain ⟨rfl, rfl⟩ := ok_of_pure h
    exact ⟨rfl, rfl, .nil⟩
  | cons e ts ih =>
    rw [Expr.sharedBoundAll, Nat.max_eq_zero_iff] at hts
    cases hr : e.register? with
    | some r =>
      cases e with
      | register r =>
        obtain ⟨ts', t, hts', h⟩ := ok_of_bind h
        obtain ⟨rfl, rfl⟩ := ok_of_pure h
        obtain ⟨rfl, rfl, hbinds⟩ := ih hts.2 hts'
        exact ⟨rfl, rfl, hbinds⟩
      | _ => cases hr
    | none =>
      rw [swapTargets_cons depth hr] at h
      obtain ⟨e', t, he, h⟩ := ok_of_bind h
      obtain ⟨ts', u, hts', h⟩ := ok_of_bind h
      obtain ⟨rfl, rfl⟩ := ok_of_pure h
      obtain ⟨rfl, rfl, hbinds⟩ := swapWith_fill hts.1 he
      obtain ⟨rfl, rfl, hallbinds⟩ := ih hts.2 hts'
      refine ⟨by rw [List.map_cons, Expr.fillTarget_of_read hr], rfl, ?_⟩
      rw [Expr.places, List.filter_cons_of_pos (by rw [hr]; rfl), Expr.inputsAll_cons,
        Slots.Binds.append]
      exact ⟨hbinds, hallbinds⟩

end

/-! ## Scopes -/

namespace Scope

variable {s : Scope}

/-- The scope after registers were written that stay as they are. -/
def keeping (s : Scope) : List Register → Scope
  | [] => s
  | r :: rs => keeping { s with live := s.live.set r.index (.register r) } rs

/-- What stands for a register of which a value is folded: an expression with parts gets the next
number. -/
def standIn (s : Scope) : Expr → Expr
  | .call a f args => .shared s.next (.call a f args)
  | .binary a op l r => .shared s.next (.binary a op l r)
  | .unary a op e => .shared s.next (.unary a op e)
  | .table a ks vs => .shared s.next (.table a ks vs)
  | .index a t k => .shared s.next (.index a t k)
  | e => e

/-- The next number after a value was folded. -/
def numberAfter (s : Scope) : Expr → Nat
  | .call .. | .binary .. | .unary .. | .table .. | .index .. => s.next + 1
  | _ => s.next

/-- The scope after a value was folded. -/
def folding (s : Scope) (r : Register) (v : Expr) : Scope :=
  ⟨s.live.set r.index (s.standIn v), s.versions, s.numberAfter v⟩

theorem share_eq (v : Expr) : share v s = .ok (s.standIn v, { s with next := s.numberAfter v }) := by
  cases v <;> rfl

theorem keepAll_eq (rs : List Register) : keepAll rs s = .ok ((), s.keeping rs) := by
  induction rs generalizing s with
  | nil => rfl
  | cons r rs ih => exact ih

theorem keepTargets_eq (ts : List Expr) :
    keepTargets ts s = .ok ((), s.keeping (Expr.registers ts)) := by
  induction ts generalizing s with
  | nil => rfl
  | cons t ts ih => cases t <;> exact ih

theorem keeping_append (rs ss : List Register) :
    s.keeping (rs ++ ss) = (s.keeping rs).keeping ss := by
  induction rs generalizing s with
  | nil => rfl
  | cons r rs ih => exact ih

theorem keepIterators_eq (ns : List Node) :
    keepIterators ns s = .ok ((), s.keeping (Node.iterators ns)) := by
  induction ns generalizing s with
  | nil => rfl
  | cons n ns ih =>
    cases n with
    | tForLoop a vars =>
      change ((do keepAll vars; keepIterators ns : Inlining Unit) s) =
        .ok ((), s.keeping (vars ++ Node.iterators ns))
      rw [keeping_append, ← ih]
      exact congrArg (· >>= fun r : Unit × Scope => keepIterators ns r.2) (keepAll_eq vars)
    | _ => exact ih

@[simp] theorem next_keeping (rs : List Register) : (s.keeping rs).next = s.next := by
  induction rs generalizing s with
  | nil => rfl
  | cons r rs ih => exact ih

/-- What stands for registers that stay as they are is a register that was written. -/
theorem forall_keeping {P : Expr → Prop} {rs : List Register} (hs : s.live.Forall P)
    (hrs : ∀ r ∈ rs, P (.register r)) : (s.keeping rs).live.Forall P := by
  induction rs generalizing s with
  | nil => exact hs
  | cons r rs ih =>
    rw [List.forall_mem_cons] at hrs
    refine ih (fun q x hx => ?_) hrs.2
    simp only [Slots.set] at hx
    split at hx
    · cases hx
      exact hrs.1
    · exact hs q x hx

theorem forall_folding {P : Expr → Prop} {r : Register} {v : Expr} (hs : s.live.Forall P)
    (hv : P (s.standIn v)) : (s.folding r v).live.Forall P := by
  intro q x hx
  simp only [folding, Slots.set] at hx
  split at hx
  · cases hx
    exact hv
  · exact hs q x hx

end Scope

/-! ## Flat statements -/

namespace Node

/-- The expressions that a flat statement reads. -/
def operands : Node → List Expr
  | .assign _ ts vs _ => vs ++ Expr.places ts
  | .returns _ vs => vs
  | .test _ c | .forLoop _ c _ => [c]
  | .forPrep _ x y z _ => [x, y, z]
  | _ => []

/-- The flat statement with what stands for each register in the place of its reads. A call that stands
alone is marked if its result has one target. -/
def fill (live : Slots Expr) : Node → Node
  | .assign a ts vs kept =>
    .assign a (ts.map (Expr.fillTarget live)) (Expr.fillAll live vs)
      (kept || (Expr.loneCall vs && ts.length = 1))
  | .returns a vs => .returns a (Expr.fillAll live vs)
  | .test a c => .test a (c.fill live)
  | .forPrep a x y z v => .forPrep a (x.fill live) (y.fill live) (z.fill live) v
  | .forLoop a c offset => .forLoop a (c.fill live) offset
  | n => n

theorem written_fill (live : Slots Expr) (n : Node) : (n.fill live).written = n.written := by
  cases n with
  | assign a ts vs kept => exact Expr.registers_fillTarget live ts
  | _ => rfl

/-- What a flat statement reads after it was filled. -/
theorem Flat.operands_fill {n : Node} (h : n.Flat) (live : Slots Expr) :
    (n.fill live).operands = Expr.fillAll live n.operands := by
  cases n with
  | assign a ts vs kept =>
    rw [fill, operands, Expr.places_fillTarget, operands, Expr.fillAll_eq_map, Expr.fillAll_eq_map,
      List.map_append]
  | forPrep | test | returns | forLoop | jump | tForLoop => rfl
  | _ => cases h

theorem Flat.sharedBound_operands {n : Node} (h : n.Flat) : Expr.sharedBoundAll n.operands = 0 := by
  have hbound := h.sharedBound
  rw [Expr.sharedBoundAll_eq_zero]
  cases n with
  | assign a ts vs kept =>
    rw [Node.sharedBound, Nat.max_eq_zero_iff, Expr.sharedBoundAll_eq_zero,
      Expr.sharedBoundAll_eq_zero] at hbound
    exact List.forall_mem_append.mpr ⟨hbound.2, fun t ht => hbound.1 t (List.mem_of_mem_filter ht)⟩
  | forPrep a x y z v =>
    simp only [Node.sharedBound, Nat.max_eq_zero_iff] at hbound
    simp [operands, hbound]
  | test | forLoop => exact List.forall_mem_singleton.mpr hbound
  | returns => exact Expr.sharedBoundAll_eq_zero.mp hbound
  | jump | tForLoop => exact List.forall_mem_nil _
  | _ => cases h

/-- Inlining into a flat statement that is not folded. -/
structure Kept (s : Scope) (n : Node) : Prop where
  flat : n.Flat
  folds : n.folds = false
  binds : s.live.Binds (Expr.inputsAll n.operands)

/-- Inlining into an assignment of a value to a register, which is folded. -/
structure Folded (s : Scope) (r : Register) (v : Expr) : Prop where
  plain : v.plain
  uses : r.uses ≤ 1
  binds : s.live.Binds v.inputs

end Node

/-! ## Runs -/

/-- What becomes of a bound of a numeric loop. The assignment of a value that is folded leaves the value;
a statement that is no assignment is left alone. -/
inductive Loads (s : Scope) : Node → Node → Scope → Prop
  | folded {a : Int} {r : Register} {v : Expr} (h : Node.Folded s r v) :
      Loads s (.assign a [.register r] [v] false) (.ofExpr (s.standIn (v.fill s.live)))
        (s.folding r (v.fill s.live))
  | kept {n : Node} (h : n.Kept s) (assign : n.isAssign) :
      Loads s n (n.fill s.live) (s.keeping n.written)
  | alone {n : Node} (h : n.isAssign = false) : Loads s n n s

/-- What becomes of a list of statements in a scope, and the scope behind them. -/
inductive Turns : Scope → List Node → List Node → Scope → Prop
  | nil {s : Scope} : Turns s [] [] s
  | folded {s s' : Scope} {a : Int} {r : Register} {v : Expr} {ns ns' : List Node}
      (h : Node.Folded s r v) (rest : Turns (s.folding r (v.fill s.live)) ns ns' s') :
      Turns s (.assign a [.register r] [v] false :: ns) ns' s'
  | kept {s s' : Scope} {n : Node} {ns ns' : List Node} (h : n.Kept s)
      (rest : Turns (s.keeping n.written) ns ns' s') : Turns s (n :: ns) (n.fill s.live :: ns') s'
  | block {s t s' : Scope} {a : Int} {body body' ns ns' : List Node}
      (inner : Turns (s.keeping (Node.iterators body)) body body' t) (rest : Turns t ns ns' s') :
      Turns s (.block a body :: ns) (.block a body' :: ns') s'
  | numeric {s t u w x s' : Scope} {a b : Int} {v : Register} {init init' limit limit' step step' : Node}
      {body body' ns ns' : List Node} (hinit : Loads s init init' t) (hlimit : Loads t limit limit' u)
      (hstep : Loads u step step' w)
      (inner : Turns (w.keeping (v :: Node.iterators body)) body body' x) (rest : Turns x ns ns' s') :
      Turns s (.numericFor a v init limit step (.block b body) :: ns)
        (.numericFor a v init' limit' step' (.block b body') :: ns') s'

/-! ## Inlining is a run -/

theorem Expr.isCall_fill {live : Slots Expr} (h : live.Forall fun x => x.isCall = false) (e : Expr) :
    (e.fill live).isCall = e.isCall := by
  cases e with
  | register r =>
    rw [Expr.fill]
    cases hx : live r.index with
    | none => rfl
    | some x => exact h _ x hx
  | _ => rfl

theorem Expr.loneCall_fillAll {live : Slots Expr} (h : live.Forall fun x => x.isCall = false)
    (vs : List Expr) : Expr.loneCall (Expr.fillAll live vs) = Expr.loneCall vs := by
  match vs with
  | [] => rfl
  | [v] => exact v.isCall_fill h
  | _ :: _ :: _ => rfl

namespace Scope.Quiet

variable {s : Scope}

theorem keeping (hs : s.Quiet) (rs : List Register) : (s.keeping rs).Quiet := by
  induction rs generalizing s with
  | nil => exact hs
  | cons r rs ih => exact ih (hs.keep (r := r) rfl)

theorem folding (hs : s.Quiet) {r : Register} {v : Expr} (hv : v.isCall = false) :
    (s.folding r v).Quiet := by
  refine ⟨hs.versions, forall_folding hs.live ?_⟩
  cases v with
  | call a f args => cases hv
  | _ => exact hv

end Scope.Quiet

namespace Node

variable {s s' : Scope}

theorem Folded.quiet {r : Register} {v : Expr} (h : Folded s r v) (hs : s.Quiet) :
    (s.folding r (v.fill s.live)).Quiet :=
  hs.folding ((v.isCall_fill hs.live).trans (isCall_of_plain h.plain))

/-- An assignment is folded, or it is kept. -/
theorem Flat.assign_fill {depth : Nat} {a : Int} {ts vs : List Expr} {kept : Bool} {n : Node}
    {value : Option Expr} (hflat : (Node.assign a ts vs kept).Flat) (hs : s.Quiet)
    (h : Scope.assign depth a ts vs kept s = .ok ((n, value), s')) :
    (∃ r v, Node.assign a ts vs kept = .assign a [.register r] [v] false ∧ Folded s r v ∧
      value = some (s.standIn (v.fill s.live)) ∧ s' = s.folding r (v.fill s.live)) ∨
    ((Node.assign a ts vs kept).Kept s ∧ value = none ∧
      n = (Node.assign a ts vs kept).fill s.live ∧
      s' = s.keeping (Node.assign a ts vs kept).written) := by
  have hbound := hflat.sharedBound
  rw [Node.sharedBound, Nat.max_eq_zero_iff] at hbound
  obtain ⟨vs', ts', t, u, hvs, hts, hcases⟩ := assign_cases h
  have hplainTargets := swapTargets_plain hflat.targets hts
  obtain ⟨rfl, rfl, hvbinds⟩ := swapAllWith_fill hbound.2 hvs
  obtain ⟨rfl, rfl, htbinds⟩ := swapTargets_fill hbound.1 hts
  cases hflat.sameFold hs hvs hplainTargets.2 with
  | kept hbefore hafter =>
    rw [hafter, Scope.keepTargets_eq, Expr.registers_fillTarget, Expr.loneCall_fillAll hs.live,
      List.length_map] at hcases
    obtain ⟨rfl, rfl, hkeep⟩ := hcases
    refine .inr ⟨⟨hflat, by rw [folds, hbefore]; rfl, ?_⟩, rfl, rfl, ?_⟩
    · rw [operands, Expr.inputsAll_append, Slots.Binds.append]
      exact ⟨hvbinds, htbinds⟩
    · cases hkeep
      rfl
  | @folded r v v' hbefore hafter hplain hswap hcall =>
    obtain ⟨rfl, rfl⟩ := hflat.folded hbefore
    have huses := (folded?_some hbefore).2.1
    have hkept : kept = false := by cases hflat <;> rfl
    obtain ⟨rfl, -, hbinds⟩ := swapWith_fill (Expr.sharedBound_of_plain hplain) hswap
    rw [hafter] at hcases
    obtain ⟨x, w, hshare, -, rfl, rfl⟩ := hcases
    rw [Scope.share_eq] at hshare
    cases hshare
    exact .inl ⟨r, v, by rw [hkept], ⟨hplain, huses, hbinds⟩, rfl, rfl⟩

/-- A flat statement is folded, or it is kept. -/
theorem Flat.inline_fill {bound : Nat} {n n' : Node} {delete : Bool} (hflat : n.Flat) (hs : s.Quiet)
    (h : n.inline bound s = .ok ((n', delete), s')) :
    (∃ a r v, n = .assign a [.register r] [v] false ∧ Folded s r v ∧ delete = true ∧
      s' = s.folding r (v.fill s.live)) ∨
    (n.Kept s ∧ delete = false ∧ n' = n.fill s.live ∧ s' = s.keeping n.written) := by
  have hbound := hflat.sharedBound
  cases n with
  | assign a ts vs kept =>
    obtain ⟨⟨n, value⟩, t, ht, h⟩ := ok_of_bind h
    obtain ⟨hn, rfl⟩ := ok_of_pure h
    cases hn
    rcases hflat.assign_fill hs ht with ⟨r, v, hn, hfolded, rfl, rfl⟩ | ⟨hkept, rfl, rfl, rfl⟩
    · exact .inl ⟨a, r, v, hn, hfolded, rfl, rfl⟩
    · exact .inr ⟨hkept, rfl, rfl, rfl⟩
  | returns a vs =>
    obtain ⟨vs', t, hvs, h⟩ := ok_of_bind h
    obtain ⟨hn, rfl⟩ := ok_of_pure h
    cases hn
    obtain ⟨rfl, rfl, hbinds⟩ := swapAllWith_fill hbound hvs
    exact .inr ⟨⟨hflat, rfl, hbinds⟩, rfl, rfl, rfl⟩
  | jump a offset =>
    obtain ⟨hn, rfl⟩ := ok_of_pure h
    cases hn
    exact .inr ⟨⟨hflat, rfl, .nil⟩, rfl, rfl, rfl⟩
  | test a c =>
    obtain ⟨c', t, hc, h⟩ := ok_of_bind h
    obtain ⟨hn, rfl⟩ := ok_of_pure h
    cases hn
    obtain ⟨rfl, rfl, hbinds⟩ := swapWith_fill hbound hc
    exact .inr ⟨⟨hflat, rfl, by simpa [operands] using hbinds⟩, rfl, rfl, rfl⟩
  | forPrep a x y z v =>
    simp only [Node.sharedBound, Nat.max_eq_zero_iff] at hbound
    obtain ⟨x', t, hx, h⟩ := ok_of_bind h
    obtain ⟨y', u, hy, h⟩ := ok_of_bind h
    obtain ⟨z', w, hz, h⟩ := ok_of_bind h
    obtain ⟨_, y, hkeep, h⟩ := ok_of_bind h
    obtain ⟨hn, rfl⟩ := ok_of_pure h
    cases hn
    obtain ⟨rfl, rfl, hxbinds⟩ := swapWith_fill hbound.1.1 hx
    obtain ⟨rfl, rfl, hybinds⟩ := swapWith_fill hbound.1.2 hy
    obtain ⟨rfl, rfl, hzbinds⟩ := swapWith_fill hbound.2 hz
    cases hkeep
    refine .inr ⟨⟨hflat, rfl, ?_⟩, rfl, rfl, rfl⟩
    simp only [operands, Expr.inputsAll_cons, Slots.Binds.append]
    exact ⟨hxbinds, hybinds, hzbinds, .nil⟩
  | forLoop a c offset =>
    obtain ⟨c', t, hc, h⟩ := ok_of_bind h
    obtain ⟨hn, rfl⟩ := ok_of_pure h
    cases hn
    obtain ⟨rfl, rfl, hbinds⟩ := swapWith_fill hbound hc
    exact .inr ⟨⟨hflat, rfl, by simpa [operands] using hbinds⟩, rfl, rfl, rfl⟩
  | tForLoop a vars =>
    obtain ⟨_, t, ht, h⟩ := ok_of_bind h
    obtain ⟨hn, rfl⟩ := ok_of_pure h
    cases hn
    rw [Scope.keepAll_eq] at ht
    cases ht
    exact .inr ⟨⟨hflat, rfl, .nil⟩, rfl, rfl, rfl⟩
  | _ => cases hflat

theorem Kept.quiet {n : Node} (_ : n.Kept s) (hs : s.Quiet) : (s.keeping n.written).Quiet :=
  hs.keeping _

/-- Inlining into a bound of a recovered loop. -/
theorem Flat.loads {depth : Nat} {n n' : Node} (hflat : n.Flat) (hs : s.Quiet)
    (h : Scope.bound depth n s = .ok (n', s')) : s'.Quiet ∧ Loads s n n' s' := by
  cases n with
  | assign a ts vs kept =>
    obtain ⟨⟨m, value⟩, t, hassign, h⟩ := ok_of_bind h
    rcases hflat.assign_fill hs hassign with ⟨r, v, hassigns, hfolded, rfl, rfl⟩ | ⟨hkept, rfl, rfl, rfl⟩
    · obtain ⟨rfl, rfl⟩ := ok_of_pure h
      rw [hassigns]
      exact ⟨hfolded.quiet hs, .folded hfolded⟩
    · obtain ⟨rfl, rfl⟩ := ok_of_pure h
      exact ⟨hs.keeping _, .kept hkept rfl⟩
  | expr e => cases hflat
  | _ =>
    obtain ⟨rfl, rfl⟩ := ok_of_pure h
    exact ⟨hs, .alone rfl⟩

/-- What inlining makes of a statement, in front of what it makes of others. -/
def Steps (n : Node) : Prop :=
  ∀ ⦃bound : Nat⦄ ⦃s s' : Scope⦄ ⦃n' : Node⦄ ⦃delete : Bool⦄, s.Quiet →
    n.inline bound s = .ok ((n', delete), s') →
    s'.Quiet ∧ ∀ ⦃ns ns' t⦄, Turns s' ns ns' t →
      Turns s (n :: ns) (if delete then ns' else n' :: ns') t

theorem Steps.inlineAll {bound : Nat} {ns ns' : List Node} (hns : ∀ n ∈ ns, n.Steps)
    (hs : s.Quiet) (h : Node.inlineAll bound ns s = .ok (ns', s')) :
    s'.Quiet ∧ Turns s ns ns' s' := by
  induction ns generalizing ns' s with
  | nil =>
    obtain ⟨rfl, rfl⟩ := ok_of_pure h
    exact ⟨hs, .nil⟩
  | cons n ns ih =>
    rw [List.forall_mem_cons] at hns
    obtain ⟨⟨n', delete⟩, t, hn, h⟩ := ok_of_bind h
    obtain ⟨rest, u, hrest, h⟩ := ok_of_bind h
    obtain ⟨rfl, rfl⟩ := ok_of_pure h
    obtain ⟨hquiet, hturns⟩ := hns.1 hs hn
    obtain ⟨hquiet, hrest⟩ := ih hns.2 hquiet hrest
    exact ⟨hquiet, hturns hrest⟩

/-- Inlining into the statements of a block, behind what is written in front of them. -/
theorem Steps.block {bound : Nat} {a : Int} {ns : List Node} {n' : Node} {delete : Bool}
    (hns : ∀ n ∈ ns, n.Steps) (hs : s.Quiet)
    (h : (Node.block a ns).inline bound s = .ok ((n', delete), s')) :
    s'.Quiet ∧ delete = false ∧ ∃ ns', n' = .block a ns' ∧
      Turns (s.keeping (iterators ns)) ns ns' s' := by
  obtain ⟨_, t, hkeep, h⟩ := ok_of_bind h
  obtain ⟨ns', u, hns', h⟩ := ok_of_bind h
  obtain ⟨hn, rfl⟩ := ok_of_pure h
  cases hn
  rw [Scope.keepIterators_eq] at hkeep
  cases hkeep
  obtain ⟨hquiet, hturns⟩ := Steps.inlineAll hns (hs.keeping _) hns'
  exact ⟨hquiet, rfl, ns', rfl, hturns⟩

theorem Flat.steps {n : Node} (hflat : n.Flat) : n.Steps := by
  intro bound s s' n' delete hs h
  rcases hflat.inline_fill hs h with ⟨a, r, v, rfl, hfolded, rfl, rfl⟩ | ⟨hkept, rfl, rfl, rfl⟩
  · exact ⟨hfolded.quiet hs, fun ns ns' t hrest => .folded hfolded hrest⟩
  · exact ⟨hs.keeping _, fun ns ns' t hrest => .kept hkept hrest⟩

theorem Recovered.steps {n : Node} (hn : n.Recovered) : n.Steps := by
  induction hn with
  | flat hflat => exact hflat.steps
  | @region a b offset inner _ _ _ ih =>
    intro bound s s' n' delete hs h
    have hall : ∀ n ∈ inner ++ [.jump b offset], n.Steps :=
      List.forall_mem_append.mpr ⟨ih, List.forall_mem_singleton.mpr (Flat.jump b offset).steps⟩
    obtain ⟨hquiet, rfl, body', rfl, hbody⟩ := Steps.block hall hs h
    exact ⟨hquiet, fun ns ns' t hrest => .block hbody hrest⟩
  | @numeric a b v init limit step body hinit hlimit hstep _ _ ih =>
    intro bound s s' n' delete hs h
    obtain ⟨init', t, hinit', h⟩ := ok_of_bind h
    obtain ⟨limit', u, hlimit', h⟩ := ok_of_bind h
    obtain ⟨step', w, hstep', h⟩ := ok_of_bind h
    obtain ⟨_, x, hkeep, h⟩ := ok_of_bind h
    obtain ⟨⟨block', delete'⟩, y, hblock, h⟩ := ok_of_bind h
    obtain ⟨hn, rfl⟩ := ok_of_pure h
    cases hn
    cases hkeep
    obtain ⟨hquiet, hinit⟩ := hinit.loads hs hinit'
    obtain ⟨hquiet, hlimit⟩ := hlimit.loads hquiet hlimit'
    obtain ⟨hquiet, hstep⟩ := hstep.loads hquiet hstep'
    obtain ⟨hquiet, rfl, body', rfl, hbody⟩ := Steps.block ih (hquiet.keep rfl) hblock
    exact ⟨hquiet, fun ns ns' t hrest => .numeric hinit hlimit hstep hbody hrest⟩

end Node

/-- The scope in front of the statements of a function: its parameters and the variables of its iterator
calls stay as they are. -/
def Declaration.scope (d : Declaration) : Scope :=
  (Scope.start 0).keeping (d.parameters ++ Node.iterators d.body)

/-- Inlining into a recovered function is a run over its statements. -/
theorem Declaration.inlined_turns {d : Declaration} {tree : Node} (h : ∀ n ∈ d.body, n.Recovered)
    (hinline : d.toNode.inlined = .ok tree) :
    ∃ body s, Turns d.scope d.body body s ∧ tree = ({ d with body } : Declaration).toNode := by
  have hbound : d.toNode.sharedBound = 0 := by
    change max 0 (Node.sharedBoundAll d.body) = 0
    rw [Declaration.unshared_of_recovered h, Nat.max_self]
  obtain ⟨body', delete, s, t, hs, hbody, rfl⟩ := inlined_function_at hbound hinline
  rw [Scope.keepAll_eq] at hs
  cases hs
  obtain ⟨hquiet, rfl, body, rfl, hturns⟩ :=
    Node.Steps.block (fun n hn => (h n hn).steps) ((Scope.Quiet.start 0).keeping _) hbody
  rw [← Scope.keeping_append] at hturns
  refine ⟨body, t, hturns, ?_⟩
  rw [hquiet.settle, mapScope_id]
  rfl

/-- The statements of a lowered function, and also when its loops were recovered and have assignments for
their bounds, are walked over in the order of evaluation. -/
theorem Code.aligned {c : Code} {d : Declaration} {out : List Node} (hlower : c.lower = .ok d)
    (hout : out = d.body ∨
      Loops.recover d.body = .ok out ∧ ∀ n ∈ Node.numericLoops out, n.boundsAssigned) :
    ∀ n ∈ out, n.Aligned := by
  intro n hn
  have hflat := c.lower_flat hlower
  rcases hout with rfl | ⟨hrecover, hbounds⟩
  · obtain ⟨i, -, op, -, hshaped⟩ := Code.lower_shaped hlower n hn
    exact .flat (hflat n hn) hshaped.apart
  · have hrecovered := (Loops.recover_recovered hflat hrecover).1
    refine (hrecovered n hn).aligned (fun m hm => ?_) fun m hm => ?_
    · exact Code.recovered_apart hlower hrecover m (Node.mem_simplesAll.mpr ⟨n, hn, hm⟩)
    · exact hbounds m (Node.mem_numericLoops.mpr ⟨n, hn, hm⟩)

/-- The statements of a lowered function, and also when its loops were recovered. -/
theorem Code.recovered {c : Code} {d : Declaration} {out : List Node} (hlower : c.lower = .ok d)
    (hout : out = d.body ∨ Loops.recover d.body = .ok out) : ∀ n ∈ out, n.Recovered := by
  have hflat := c.lower_flat hlower
  rcases hout with rfl | hrecover
  · exact fun n hn => .flat (hflat n hn)
  · exact (Loops.recover_recovered hflat hrecover).1

/-- Counting and inlining a function, lowered and perhaps with its loops recovered: what its accesses
read is added, and then the inlining is a run. -/
theorem Code.inlined_turns {c : Code} {d : Declaration} {out : List Node} {counted tree : Node}
    (hlower : c.lower = .ok d) (hout : out = d.body ∨ Loops.recover d.body = .ok out)
    (hcount : ({ d with body := out } : Declaration).toNode.countUses = .ok counted)
    (hinline : counted.inlined = .ok tree) :
    (∀ n ∈ out, n.Recovered) ∧ ∃ t body s,
      Tally.performAll ({ d with body := out } : Declaration).accesses Tally.empty = .ok ((), t) ∧
      counted = (({ d with body := out } : Declaration).addReads t.reads).toNode ∧
      Turns (({ d with body := out } : Declaration).addReads t.reads).scope
        (Node.addReadsAll t.reads out) body s ∧
      tree = { ({ d with body := out } : Declaration).addReads t.reads with body }.toNode := by
  have hrecovered := Code.recovered hlower hout
  obtain ⟨t, hrun, rfl⟩ := Declaration.countUses_ok hrecovered hcount
  obtain ⟨body, s, hturns, rfl⟩ := Declaration.inlined_turns
    (forall_addReadsAll fun n hn => (hrecovered n hn).addReads t.reads) hinline
  exact ⟨hrecovered, t, body, s, hrun, rfl, hturns, rfl⟩

end HavokScript
