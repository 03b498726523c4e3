import HavokScript.Decompile.Inline
import HavokScript.Decompile.Uses
import HavokScript.Proofs.Decompile.Recovery

/-!
# What inlining does to flat statements

Plain expressions have no shared ones in them, so inlining into them only looks up what stands for
their registers: the scope is unchanged (`swapWith_plain`), and nothing is left to settle at its end.
An assignment is folded or kept (`assign_cases`), and which of the two can be told before anything is
inlined (`Node.Flat.assigns`), since no call ever stands for a register.
-/

namespace HavokScript

/-! ## Expressions -/

theorem read_ok {r : Register} {e : Expr} {s s' : Scope} (h : Scope.read r s = .ok (e, s')) :
    ∃ x, s.live r.index = some x ∧ e = x ∧ s' = s := by
  unfold Scope.read at h
  cases hx : s.live r.index with
  | none =>
    rw [hx] at h
    cases h
  | some x =>
    rw [hx] at h
    cases h
    exact ⟨e, rfl, rfl, rfl⟩

mutual

theorem swapWith_plain {visit : Nat → Expr → Inlining Expr} {e e' : Expr} {s s' : Scope}
    (he : e.plain) (h : e.swapWith visit s = .ok (e', s')) : s' = s := by
  cases e with
  | register r =>
    obtain ⟨x, -, -, hs⟩ := read_ok h
    exact hs
  | call a f args => cases he
  | shared n e => cases he
  | binary a op l r =>
    rw [Expr.plain, Bool.and_eq_true] at he
    obtain ⟨l', t, hl, h⟩ := ok_of_bind h
    obtain ⟨r', u, hr, h⟩ := ok_of_bind h
    rw [(ok_of_pure h).2, swapWith_plain he.2 hr, swapWith_plain he.1 hl]
  | unary a op e =>
    obtain ⟨e', t, ht, h⟩ := ok_of_bind h
    rw [Expr.plain] at he
    rw [(ok_of_pure h).2, swapWith_plain he ht]
  | table a ks vs =>
    rw [Expr.plain, Bool.and_eq_true] at he
    obtain ⟨ks', t, hks, h⟩ := ok_of_bind h
    obtain ⟨vs', u, hvs, h⟩ := ok_of_bind h
    rw [(ok_of_pure h).2, swapAllWith_plain he.2 hvs, swapAllWith_plain he.1 hks]
  | index a t k =>
    rw [Expr.plain, Bool.and_eq_true] at he
    obtain ⟨t', u, ht, h⟩ := ok_of_bind h
    obtain ⟨k', v, hk, h⟩ := ok_of_bind h
    rw [(ok_of_pure h).2, swapWith_plain he.2 hk, swapWith_plain he.1 ht]
  | _ => exact (ok_of_pure h).2

theorem swapAllWith_plain {visit : Nat → Expr → Inlining Expr} {es es' : List Expr}
    {s s' : Scope} (hes : Expr.plainAll es) (h : Expr.swapAllWith visit es s = .ok (es', s')) :
    s' = s := by
  cases es with
  | nil => exact (ok_of_pure h).2
  | cons e es =>
    rw [Expr.plainAll, Bool.and_eq_true] at hes
    obtain ⟨e', t, he, h⟩ := ok_of_bind h
    obtain ⟨es', u, hes', h⟩ := ok_of_bind h
    rw [(ok_of_pure h).2, swapAllWith_plain hes.2 hes', swapWith_plain hes.1 he]

end

theorem length_swapAllWith {visit : Nat → Expr → Inlining Expr} {es es' : List Expr}
    {s s' : Scope} (h : Expr.swapAllWith visit es s = .ok (es', s')) : es'.length = es.length := by
  induction es generalizing es' s s' with
  | nil => rw [(ok_of_pure h).1]
  | cons e es ih =>
    obtain ⟨e', t, he, h⟩ := ok_of_bind h
    obtain ⟨es', u, hes', h⟩ := ok_of_bind h
    rw [(ok_of_pure h).1, List.length_cons, ih hes', List.length_cons]

/-- What stands for the registers is no call, and no shared expression was visited. -/
structure Scope.Quiet (s : Scope) : Prop where
  versions : s.versions = []
  live : ∀ q x, s.live q = some x → x.isCall = false

/-- Only a register can become a call or a register. -/
theorem swapWith_head {visit : Nat → Expr → Inlining Expr} {e e' : Expr} {s s' : Scope}
    (he : e.plain) (hr : e.register? = none) (h : e.swapWith visit s = .ok (e', s')) :
    e'.isCall = false ∧ e'.register? = none := by
  cases e with
  | register r => cases hr
  | call a f args => cases he
  | shared n e => cases he
  | binary a op l r =>
    obtain ⟨l', t, hl, h⟩ := ok_of_bind h
    obtain ⟨r', u, hr, h⟩ := ok_of_bind h
    rw [(ok_of_pure h).1]
    exact ⟨rfl, rfl⟩
  | unary a op e =>
    obtain ⟨e', t, ht, h⟩ := ok_of_bind h
    rw [(ok_of_pure h).1]
    exact ⟨rfl, rfl⟩
  | table a ks vs =>
    obtain ⟨ks', t, hks, h⟩ := ok_of_bind h
    obtain ⟨vs', u, hvs, h⟩ := ok_of_bind h
    rw [(ok_of_pure h).1]
    exact ⟨rfl, rfl⟩
  | index a t k =>
    obtain ⟨t', u, ht, h⟩ := ok_of_bind h
    obtain ⟨k', v, hk, h⟩ := ok_of_bind h
    rw [(ok_of_pure h).1]
    exact ⟨rfl, rfl⟩
  | _ =>
    rw [(ok_of_pure h).1]
    exact ⟨rfl, rfl⟩

theorem swapWith_isCall {visit : Nat → Expr → Inlining Expr} {e e' : Expr} {s s' : Scope}
    (he : e.plain) (hs : s.Quiet) (h : e.swapWith visit s = .ok (e', s')) : e'.isCall = false := by
  cases hr : e.register? with
  | none => exact (swapWith_head he hr h).1
  | some r =>
    cases e with
    | register r =>
      obtain ⟨x, hx, hread⟩ := read_ok h
      rw [hread.1]
      exact hs.live r.index x hx
    | _ => cases hr

/-! ## Targets -/

/-- The registers among some targets. -/
def Expr.registers (ts : List Expr) : List Register := ts.filterMap Expr.register?

theorem swapTargets_cons (depth : Nat) {e : Expr} (hr : e.register? = none) (ts : List Expr) :
    Expr.swapTargets depth (e :: ts) = (do
      let e ← e.swap depth
      let ts ← Expr.swapTargets depth ts
      return e :: ts) := by
  rw [Expr.swapTargets]
  rintro r rfl
  cases hr

theorem swapTargets_plain {depth : Nat} {ts ts' : List Expr} {s s' : Scope}
    (hts : Expr.plainAll ts) (h : Expr.swapTargets depth ts s = .ok (ts', s')) :
    s' = s ∧ ts'.map Expr.register? = ts.map Expr.register? := by
  induction ts generalizing ts' s s' with
  | nil =>
    obtain ⟨rfl, rfl⟩ := ok_of_pure h
    exact ⟨rfl, rfl⟩
  | cons e ts ih =>
    rw [Expr.plainAll, Bool.and_eq_true] at hts
    cases hr : e.register? with
    | some r =>
      cases e with
      | register r =>
        obtain ⟨ts', t, hts', h⟩ := ok_of_bind h
        obtain ⟨rfl, rfl⟩ := ok_of_pure h
        obtain ⟨rfl, hmap⟩ := ih hts.2 hts'
        exact ⟨rfl, by rw [List.map_cons, List.map_cons, hmap]⟩
      | _ => cases hr
    | none =>
      rw [swapTargets_cons depth hr] at h
      obtain ⟨e', t, he, h⟩ := ok_of_bind h
      obtain ⟨ts', u, hts', h⟩ := ok_of_bind h
      obtain ⟨rfl, rfl⟩ := ok_of_pure h
      obtain rfl := swapWith_plain hts.1 he
      obtain ⟨rfl, hmap⟩ := ih hts.2 hts'
      refine ⟨rfl, ?_⟩
      rw [List.map_cons, List.map_cons, hmap, hr, (swapWith_head hts.1 hr he).2]

theorem length_of_map_register? {ts ts' : List Expr}
    (h : ts'.map Expr.register? = ts.map Expr.register?) : ts'.length = ts.length := by
  rw [← List.length_map Expr.register?, h, List.length_map]

theorem registers_of_map {ts ts' : List Expr}
    (h : ts'.map Expr.register? = ts.map Expr.register?) :
    Expr.registers ts' = Expr.registers ts := by
  have hid : ∀ es : List Expr, Expr.registers es = (es.map Expr.register?).filterMap id := by
    intro es
    rw [Expr.registers, List.filterMap_map]
    rfl
  rw [hid, hid, h]

theorem foldable?_eq (ts : List Expr) : Scope.foldable? ts =
    match ts.map Expr.register? with
    | [some r] => if r.uses ≤ 1 then some r else none
    | _ => none := by
  match ts with
  | [] => rfl
  | [e] => cases e <;> rfl
  | e :: e' :: es =>
    cases e <;> rfl

theorem foldable?_some {ts : List Expr} {r : Register} (h : Scope.foldable? ts = some r) :
    ts = [.register r] ∧ r.uses ≤ 1 := by
  unfold Scope.foldable? at h
  split at h
  · split at h
    · cases h
      exact ⟨rfl, ‹_›⟩
    · cases h
  · cases h

/-- What is known after targets are kept. -/
theorem keepTargets_ok {ts : List Expr} {s s' : Scope} {u : Unit}
    (h : Scope.keepTargets ts s = .ok (u, s')) :
    s'.versions = s.versions ∧
      ∀ q, (∃ r ∈ Expr.registers ts, r.index = q ∧ s'.live q = some (.register r)) ∨
        (∀ r ∈ Expr.registers ts, r.index ≠ q) ∧ s'.live q = s.live q := by
  induction ts generalizing s s' with
  | nil =>
    obtain ⟨-, rfl⟩ := ok_of_pure h
    exact ⟨rfl, fun q => .inr ⟨by simp [Expr.registers], rfl⟩⟩
  | cons e ts ih =>
    cases hr : e.register? with
    | none =>
      have hcons : Scope.keepTargets (e :: ts) = Scope.keepTargets ts := by
        rw [Scope.keepTargets]
        rintro r rfl
        cases hr
      have hregisters : Expr.registers (e :: ts) = Expr.registers ts := by
        rw [Expr.registers, List.filterMap_cons_none hr]
        rfl
      rw [hcons] at h
      rw [hregisters]
      exact ih h
    | some r =>
      cases e with
      | register r =>
        obtain ⟨_, t, ht, h⟩ := ok_of_bind h
        cases ht
        obtain ⟨hversions, hlive⟩ := ih h
        refine ⟨hversions, fun q => ?_⟩
        have hregisters : Expr.registers (.register r :: ts) = r :: Expr.registers ts := rfl
        rw [hregisters]
        rcases hlive q with ⟨r', hr', hq, hlive⟩ | ⟨hnone, hlive⟩
        · exact .inl ⟨r', by simp [hr'], hq, hlive⟩
        · by_cases hq : r.index = q
          · refine .inl ⟨r, by simp, hq, ?_⟩
            rw [hlive]
            simp [Slots.set, hq]
          · refine .inr ⟨by simpa [hq] using hnone, ?_⟩
            rw [hlive]
            simp [Slots.set, Ne.symm hq]
      | _ => cases hr

theorem share_ok {e x : Expr} {s s' : Scope} (h : Scope.share e s = .ok (x, s')) :
    s'.live = s.live ∧ s'.versions = s.versions ∧ (x = e ∨ ∃ n, x = .shared n e) := by
  cases e <;> cases h <;> simp

/-! ## Assignments -/

/-- The register and the value of an assignment that is folded: one that has a lone register as its
target, which is read at most once, and is no lone call. -/
def Scope.folded? (targets values : List Expr) : Option (Register × Expr) :=
  match values with
  | [] => none
  | v :: rest =>
    if rest.isEmpty ∧ v.isCall then none
    else (Scope.foldable? targets).map fun r => (r, v)

/-- Whether the values are a call that stands alone. -/
def Expr.loneCall : List Expr → Bool
  | [e] => e.isCall
  | _ => false

theorem Expr.loneCall_cons (e : Expr) (es : List Expr) :
    Expr.loneCall (e :: es) = (es.isEmpty && e.isCall) := by
  cases es <;> rfl

/-- An assignment is folded, and its value stands for its register from then on, or it is kept, and
so are its targets. -/
theorem assign_cases {depth : Nat} {a : Int} {ts vs : List Expr} {kept : Bool} {s s' : Scope}
    {n : Node} {value : Option Expr}
    (h : Scope.assign depth a ts vs kept s = .ok ((n, value), s')) :
    ∃ vs' ts' t u, Expr.swapAll depth vs s = .ok (vs', t) ∧
      Expr.swapTargets depth ts t = .ok (ts', u) ∧
      match Scope.folded? ts' vs' with
      | some (r, v) => ∃ x w, Scope.share v u = .ok (x, w) ∧ n = .assign a ts' vs' kept ∧
          value = some x ∧ s' = { w with live := w.live.set r.index x }
      | none => n = .assign a ts' vs' (kept || (Expr.loneCall vs' && ts'.length = 1)) ∧
          value = none ∧ Scope.keepTargets ts' u = .ok ((), s') := by
  obtain ⟨vs', t, hvs, h⟩ := ok_of_bind h
  obtain ⟨ts', u, hts, h⟩ := ok_of_bind h
  refine ⟨vs', ts', t, u, hvs, hts, ?_⟩
  cases vs' with
  | nil =>
    obtain ⟨_, w, hw, h⟩ := ok_of_bind h
    obtain ⟨hn, rfl⟩ := ok_of_pure h
    cases hn
    exact ⟨by simp [Expr.loneCall], rfl, hw⟩
  | cons v rest =>
    dsimp only [Scope.folded?] at h ⊢
    by_cases hcall : rest.isEmpty ∧ v.isCall
    · rw [if_pos hcall] at h ⊢
      obtain ⟨_, w, hw, h⟩ := ok_of_bind h
      obtain ⟨hn, rfl⟩ := ok_of_pure h
      cases hn
      exact ⟨by simp [Expr.loneCall_cons, hcall.1, hcall.2], rfl, hw⟩
    · rw [if_neg hcall] at h ⊢
      have hlone : Expr.loneCall (v :: rest) = false := by
        rw [Expr.loneCall_cons, ← Bool.not_eq_true, Bool.and_eq_true]
        exact hcall
      cases hr : Scope.foldable? ts' with
      | none =>
        rw [hr] at h
        obtain ⟨_, w, hw, h⟩ := ok_of_bind h
        obtain ⟨hn, rfl⟩ := ok_of_pure h
        cases hn
        exact ⟨by simp [hlone], rfl, hw⟩
      | some r =>
        rw [hr] at h
        obtain ⟨x, w, hw, h⟩ := ok_of_bind h
        obtain ⟨_, y, hy, h⟩ := ok_of_bind h
        obtain ⟨hn, rfl⟩ := ok_of_pure h
        cases hn
        cases hy
        exact ⟨x, w, hw, rfl, rfl, rfl⟩

/-- A call that stands alone stays one. -/
theorem swapAll_call {a : Int} {f : Expr} {args es : List Expr} {depth : Nat} {s t : Scope}
    (hf : f.plain) (hargs : Expr.plainAll args)
    (h : Expr.swapAll depth [.call a f args] s = .ok (es, t)) :
    t = s ∧ ∃ f' args', es = [.call a f' args'] ∧ f.swap depth s = .ok (f', s) ∧
      Expr.swapAll depth args s = .ok (args', s) := by
  obtain ⟨e', u, he, h⟩ := ok_of_bind h
  obtain ⟨f', w, hf', he⟩ := ok_of_bind he
  obtain ⟨args', y, hargs', he⟩ := ok_of_bind he
  obtain ⟨rest, z, hrest, h⟩ := ok_of_bind h
  have hw := swapWith_plain hf hf'
  have hy := swapAllWith_plain hargs hargs'
  obtain ⟨rfl, rfl⟩ := ok_of_pure h
  obtain ⟨rfl, rfl⟩ := ok_of_pure hrest
  obtain ⟨rfl, rfl⟩ := ok_of_pure he
  subst hy
  subst hw
  exact ⟨rfl, f', args', rfl, hf', hargs'⟩

theorem Node.Flat.swapAll {a : Int} {ts vs vs' : List Expr} {kept : Bool} {depth : Nat} {s t : Scope}
    (hflat : (Node.assign a ts vs kept).Flat) (h : Expr.swapAll depth vs s = .ok (vs', t)) :
    t = s := by
  cases hflat with
  | assign hts hvs hne hlen => exact swapAllWith_plain hvs h
  | vararg hts => exact swapAllWith_plain rfl h
  | call hts hf hargs => exact (swapAll_call hf hargs h).1

theorem Node.Flat.targets {a : Int} {ts vs : List Expr} {kept : Bool}
    (hflat : (Node.assign a ts vs kept).Flat) : Expr.plainAll ts := by
  cases hflat <;> assumption

theorem isCall_of_plain {e : Expr} (he : e.plain) : e.isCall = false := by
  cases e with
  | call a f args => cases he
  | shared n e => cases he
  | _ => rfl

theorem folded?_cons (ts rest : List Expr) {v : Expr} (hv : v.isCall = false) :
    Scope.folded? ts (v :: rest) = (Scope.foldable? ts).map fun r => (r, v) := by
  dsimp only [Scope.folded?]
  rw [if_neg]
  rintro ⟨-, hcall⟩
  rw [hv] at hcall
  cases hcall

/-- An assignment is kept before its expressions are inlined into and after, or it is folded into
the same register both times. -/
inductive SameFold (depth : Nat) (s : Scope) (ts vs ts' vs' : List Expr) : Prop
  | kept (before : Scope.folded? ts vs = none) (after : Scope.folded? ts' vs' = none) :
      SameFold depth s ts vs ts' vs'
  | folded {r : Register} {v v' : Expr} (before : Scope.folded? ts vs = some (r, v))
      (after : Scope.folded? ts' vs' = some (r, v')) (plain : v.plain)
      (swap : v.swap depth s = .ok (v', s)) (isCall : v'.isCall = false) :
      SameFold depth s ts vs ts' vs'

theorem Node.Flat.sameFold {a : Int} {ts ts' vs vs' : List Expr} {kept : Bool} {depth : Nat}
    {s : Scope} (hflat : (Node.assign a ts vs kept).Flat) (hs : s.Quiet)
    (hvs : Expr.swapAll depth vs s = .ok (vs', s))
    (hts : ts'.map Expr.register? = ts.map Expr.register?) : SameFold depth s ts vs ts' vs' := by
  have hfoldable : Scope.foldable? ts' = Scope.foldable? ts := by
    rw [foldable?_eq, foldable?_eq, hts]
  have hplain : Expr.plainAll vs → vs ≠ [] → SameFold depth s ts vs ts' vs' := by
    intro hplain hne
    obtain ⟨v, rest, rfl⟩ := List.exists_cons_of_ne_nil hne
    rw [Expr.plainAll, Bool.and_eq_true] at hplain
    obtain ⟨v', t, hv, h⟩ := ok_of_bind hvs
    obtain ⟨rest', u, hrest, h⟩ := ok_of_bind h
    obtain rfl := swapWith_plain hplain.1 hv
    have hcall := swapWith_isCall hplain.1 hs hv
    have hbefore := folded?_cons ts rest (isCall_of_plain hplain.1)
    have hafter := folded?_cons ts' rest' hcall
    rw [(ok_of_pure h).1]
    cases hr : Scope.foldable? ts with
    | none =>
      rw [hr] at hbefore
      rw [hfoldable, hr] at hafter
      exact .kept hbefore hafter
    | some r =>
      rw [hr] at hbefore
      rw [hfoldable, hr] at hafter
      exact .folded hbefore hafter hplain.1 hv hcall
  cases hflat with
  | assign _ hvs hne _ => exact hplain hvs hne
  | vararg _ => exact hplain rfl (by simp)
  | call _ hf hargs =>
    obtain ⟨-, f', args', rfl, -, -⟩ := swapAll_call hf hargs hvs
    exact .kept rfl rfl

theorem folded?_some {ts vs : List Expr} {r : Register} {v : Expr}
    (h : Scope.folded? ts vs = some (r, v)) :
    ts = [.register r] ∧ r.uses ≤ 1 ∧ ∃ rest, vs = v :: rest ∧ (rest = [] → v.isCall = false) := by
  cases vs with
  | nil => cases h
  | cons w rest =>
    dsimp only [Scope.folded?] at h
    split at h
    · cases h
    next hcall =>
      obtain ⟨r', hr', hpair⟩ := Option.map_eq_some_iff.mp h
      cases hpair
      obtain ⟨hts, huses⟩ := foldable?_some hr'
      refine ⟨hts, huses, rest, rfl, ?_⟩
      rintro rfl
      simpa using hcall

theorem Node.Flat.folded {a : Int} {ts vs : List Expr} {kept : Bool} {r : Register} {v : Expr}
    (hflat : (Node.assign a ts vs kept).Flat) (h : Scope.folded? ts vs = some (r, v)) :
    ts = [.register r] ∧ vs = [v] := by
  obtain ⟨rfl, -, rest, rfl, -⟩ := folded?_some h
  cases hflat with
  | assign _ _ _ hlen =>
    rw [List.length_singleton, List.length_cons] at hlen
    have hrest : rest = [] := List.eq_nil_of_length_eq_zero (by omega)
    exact ⟨rfl, by rw [hrest]⟩
  | vararg _ => exact ⟨rfl, rfl⟩
  | call _ _ _ => exact ⟨rfl, rfl⟩

/-- All that inlining into a flat assignment can do. -/
inductive Assigns (depth : Nat) (a : Int) (ts vs ts' vs' : List Expr) (s s' : Scope) :
    Node → Option Expr → Prop
  | folded {r : Register} {v v' x : Expr} {kept : Bool}
      (hfold : Scope.folded? ts vs = some (r, v)) (hplain : v.plain)
      (hswap : v.swap depth s = .ok (v', s)) (hshare : x = v' ∨ ∃ n, x = .shared n v')
      (hlive : s'.live = s.live.set r.index x) :
      Assigns depth a ts vs ts' vs' s s' (.assign a ts' vs' kept) (some x)
  | kept {kept : Bool} (hfold : Scope.folded? ts vs = none)
      (hlive : ∀ q, (∃ r ∈ Expr.registers ts, r.index = q ∧ s'.live q = some (.register r)) ∨
        (∀ r ∈ Expr.registers ts, r.index ≠ q) ∧ s'.live q = s.live q) :
      Assigns depth a ts vs ts' vs' s s' (.assign a ts' vs' kept) none

theorem isCall_of_shared {x e : Expr} (he : e.isCall = false) (h : x = e ∨ ∃ n, x = .shared n e) :
    x.isCall = false := by
  rcases h with rfl | ⟨n, rfl⟩
  · exact he
  · exact he

theorem Node.Flat.assigns {depth : Nat} {a : Int} {ts vs : List Expr} {kept : Bool}
    {s s' : Scope} {n : Node} {value : Option Expr} (hflat : (Node.assign a ts vs kept).Flat)
    (hs : s.Quiet) (h : Scope.assign depth a ts vs kept s = .ok ((n, value), s')) :
    ∃ vs' ts', Expr.swapAll depth vs s = .ok (vs', s) ∧
      Expr.swapTargets depth ts s = .ok (ts', s) ∧ s'.Quiet ∧
      Assigns depth a ts vs ts' vs' s s' n value := by
  obtain ⟨vs', ts', t, u, hvs, hts, hcases⟩ := assign_cases h
  obtain rfl := hflat.swapAll hvs
  obtain ⟨rfl, hmap⟩ := swapTargets_plain hflat.targets hts
  refine ⟨vs', ts', hvs, hts, ?_⟩
  cases hflat.sameFold hs hvs hmap with
  | kept hbefore hafter =>
    rw [hafter] at hcases
    obtain ⟨rfl, rfl, hkeep⟩ := hcases
    obtain ⟨hversions, hlive⟩ := keepTargets_ok hkeep
    rw [registers_of_map hmap] at hlive
    refine ⟨⟨hversions.trans hs.versions, fun q x hx => ?_⟩, .kept hbefore hlive⟩
    rcases hlive q with ⟨r, -, -, hq⟩ | ⟨-, hq⟩
    · rw [hq] at hx
      cases hx
      rfl
    · rw [hq] at hx
      exact hs.live q x hx
  | @folded r v v' hbefore hafter hplain hswap hcall =>
    rw [hafter] at hcases
    obtain ⟨x, w, hw, rfl, rfl, rfl⟩ := hcases
    obtain ⟨hlive, hversions, hshare⟩ := share_ok hw
    refine ⟨⟨hversions.trans hs.versions, fun q y hy => ?_⟩,
      .folded hbefore hplain hswap hshare (by rw [hlive])⟩
    simp only [Slots.set, hlive] at hy
    split at hy
    · cases hy
      exact isCall_of_shared hcall hshare
    · exact hs.live q y hy

/-! ## Statements -/

/-- Whether the statement is an assignment that is folded. -/
def Node.folds : Node → Bool
  | .assign _ ts vs _ => (Scope.folded? ts vs).isSome
  | _ => false

/-- The registers that an assignment writes. -/
def Node.assigned? : Node → Option (List Register)
  | .assign _ ts _ _ => some (Expr.registers ts)
  | _ => none

theorem Scope.Quiet.keep {s s' : Scope} (hs : s.Quiet) {r : Register} {u : Unit}
    (h : Scope.keep r s = .ok (u, s')) : s'.Quiet := by
  cases h
  refine ⟨hs.versions, fun q x hx => ?_⟩
  simp only [Slots.set] at hx
  split at hx
  · cases hx
    rfl
  · exact hs.live q x hx

theorem Scope.Quiet.keepAll {s s' : Scope} (hs : s.Quiet) {rs : List Register} {u : Unit}
    (h : Scope.keepAll rs s = .ok (u, s')) : s'.Quiet := by
  induction rs generalizing s with
  | nil =>
    obtain ⟨-, rfl⟩ := ok_of_pure h
    exact hs
  | cons r rs ih =>
    obtain ⟨_, t, ht, h⟩ := ok_of_bind h
    exact ih (hs.keep ht) h

/-- A statement and what it is after inlining: it stands at the same address, assigns the same
registers, and jumps back if it did. -/
structure Node.Becomes (n n' : Node) : Prop where
  address : n'.address = n.address
  assigned : n'.assigned? = n.assigned?
  jumpsBack : n'.jumpsBack = n.jumpsBack

theorem Node.Flat.inline_assign {bound : Nat} {a : Int} {ts vs : List Expr} {kept delete : Bool}
    {n' : Node} {s s' : Scope} (hflat : (Node.assign a ts vs kept).Flat) (hs : s.Quiet)
    (h : (Node.assign a ts vs kept).inline bound s = .ok ((n', delete), s')) :
    s'.Quiet ∧ delete = (Node.assign a ts vs kept).folds ∧ (Node.assign a ts vs kept).Becomes n' ∧
      n'.loops = [] := by
  obtain ⟨⟨n, value⟩, t, ht, h⟩ := ok_of_bind h
  obtain ⟨hn, rfl⟩ := ok_of_pure h
  cases hn
  obtain ⟨vs', ts', hvs, hts, hquiet, hassigns⟩ := hflat.assigns hs ht
  have hregisters := registers_of_map (swapTargets_plain hflat.targets hts).2
  cases hassigns with
  | folded hfold _ _ _ _ =>
    refine ⟨hquiet, ?_, ⟨rfl, congrArg some hregisters, rfl⟩, rfl⟩
    rw [Node.folds, hfold]
    rfl
  | kept hfold _ =>
    refine ⟨hquiet, ?_, ⟨rfl, congrArg some hregisters, rfl⟩, rfl⟩
    rw [Node.folds, hfold]
    rfl

/-- Inlining into a flat statement deletes it exactly if it folds. -/
theorem Node.Flat.inline {bound : Nat} {n n' : Node} {delete : Bool} {s s' : Scope}
    (hflat : n.Flat) (hs : s.Quiet) (h : n.inline bound s = .ok ((n', delete), s')) :
    s'.Quiet ∧ delete = n.folds ∧ n.Becomes n' ∧ n'.loops = [] := by
  cases id hflat with
  | assign _ _ _ _ => exact hflat.inline_assign hs h
  | vararg _ => exact hflat.inline_assign hs h
  | call _ _ _ => exact hflat.inline_assign hs h
  | returns hvs =>
    obtain ⟨vs', t, hvs', h⟩ := ok_of_bind h
    obtain ⟨hn, rfl⟩ := ok_of_pure h
    cases hn
    exact ⟨swapAllWith_plain hvs hvs' ▸ hs, rfl, ⟨rfl, rfl, rfl⟩, rfl⟩
  | tailCall hf hargs =>
    obtain ⟨vs', t, hvs', h⟩ := ok_of_bind h
    obtain ⟨hn, rfl⟩ := ok_of_pure h
    cases hn
    exact ⟨(swapAll_call hf hargs hvs').1 ▸ hs, rfl, ⟨rfl, rfl, rfl⟩, rfl⟩
  | jump a offset =>
    obtain ⟨hn, rfl⟩ := ok_of_pure h
    cases hn
    exact ⟨hs, rfl, ⟨rfl, rfl, rfl⟩, rfl⟩
  | test hc =>
    obtain ⟨c', t, hc', h⟩ := ok_of_bind h
    obtain ⟨hn, rfl⟩ := ok_of_pure h
    cases hn
    exact ⟨swapWith_plain hc hc' ▸ hs, rfl, ⟨rfl, rfl, rfl⟩, rfl⟩
  | forPrep hx hy hz =>
    obtain ⟨x', t, hx', h⟩ := ok_of_bind h
    obtain ⟨y', u, hy', h⟩ := ok_of_bind h
    obtain ⟨z', v, hz', h⟩ := ok_of_bind h
    obtain ⟨_, w, hw, h⟩ := ok_of_bind h
    obtain ⟨hn, rfl⟩ := ok_of_pure h
    cases hn
    rw [swapWith_plain hz hz', swapWith_plain hy hy', swapWith_plain hx hx'] at hw
    exact ⟨hs.keep hw, rfl, ⟨rfl, rfl, rfl⟩, rfl⟩
  | forLoop hc =>
    obtain ⟨c', t, hc', h⟩ := ok_of_bind h
    obtain ⟨hn, rfl⟩ := ok_of_pure h
    cases hn
    exact ⟨swapWith_plain hc hc' ▸ hs, rfl, ⟨rfl, rfl, rfl⟩, rfl⟩
  | tForLoop a vars =>
    obtain ⟨_, t, ht, h⟩ := ok_of_bind h
    obtain ⟨hn, rfl⟩ := ok_of_pure h
    cases hn
    exact ⟨hs.keepAll ht, rfl, ⟨rfl, rfl, rfl⟩, rfl⟩

theorem inlineAll_quiet {bound : Nat} {ns ns' : List Node} {s s' : Scope}
    (hflat : ∀ n ∈ ns, n.Flat) (hs : s.Quiet) (h : Node.inlineAll bound ns s = .ok (ns', s')) :
    s'.Quiet := by
  induction ns generalizing ns' s with
  | nil =>
    obtain ⟨-, rfl⟩ := ok_of_pure h
    exact hs
  | cons n ns ih =>
    rw [List.forall_mem_cons] at hflat
    obtain ⟨⟨n', delete⟩, t, hn, h⟩ := ok_of_bind h
    obtain ⟨rest, u, hrest, h⟩ := ok_of_bind h
    obtain ⟨-, rfl⟩ := ok_of_pure h
    exact ih hflat.2 (hflat.1.inline hs hn).1 hrest

/-! ## The end of a scope -/

mutual

theorem mapScope_id (n : Node) : n.mapScope (fun e => e) = n := by
  cases n with
  | chunk a body | block a body => simp only [Node.mapScope, mapScopeAll_id body]
  | scope a body => simp only [Node.mapScope, mapScope_id body]
  | whileLoop a c body | repeatLoop a body c | arm a c body =>
    simp only [Node.mapScope, mapScope_id body]
  | branch a c body arms other =>
    simp only [Node.mapScope, mapScope_id body, mapScopeAll_id arms, mapScope_id other]
  | numericFor a v init limit step body =>
    simp only [Node.mapScope, mapScope_id init, mapScope_id limit, mapScope_id step,
      mapScope_id body]
  | genericFor a vars es body => simp only [Node.mapScope, List.map_id_fun', id, mapScope_id body]
  | locals a ts vs | assign a ts vs kept => simp only [Node.mapScope, List.map_id_fun', id]
  | returns a vs => simp only [Node.mapScope, List.map_id_fun', id]
  | _ => rfl

theorem mapScopeAll_id (ns : List Node) : Node.mapScopeAll (fun e => e) ns = ns := by
  cases ns with
  | nil => rfl
  | cons n ns => simp only [Node.mapScopeAll, mapScope_id n, mapScopeAll_id ns]

end

theorem Scope.Quiet.settle {s : Scope} (hs : s.Quiet) : s.settle = fun e => e := by
  funext e
  simp [Scope.settle, hs.versions]

theorem Scope.Quiet.start (bound : Nat) : (Scope.start bound).Quiet := ⟨rfl, nofun⟩

/-- Parameters stand for themselves. -/
theorem keepAll_ok {rs : List Register} {s s' : Scope} {u : Unit}
    (h : Scope.keepAll rs s = .ok (u, s')) {q : Int} {x : Expr} (hx : s'.live q = some x) :
    (∃ r, r.index = q ∧ x = .register r) ∨ s.live q = some x := by
  induction rs generalizing s with
  | nil =>
    obtain ⟨-, rfl⟩ := ok_of_pure h
    exact .inr hx
  | cons r rs ih =>
    obtain ⟨_, t, ht, h⟩ := ok_of_bind h
    cases ht
    rcases ih h with hr | hlive
    · exact .inl hr
    · simp only [Slots.set] at hlive
      split at hlive
      · rename_i hq
        cases hlive
        exact .inl ⟨r, hq.symm, rfl⟩
      · exact .inr hlive

/-- A function is inlined into on its own. -/
theorem inlined_function_at {a : Int} {name : Expr} {params : List Register} {vararg : Bool}
    {body tree : Node} {bound : Nat}
    (hbound : (Node.function a name params vararg body).sharedBound = bound)
    (h : (Node.function a name params vararg body).inlined = .ok tree) :
    ∃ body' delete s t, Scope.keepAll params (Scope.start bound) = .ok ((), s) ∧
      body.inline bound s = .ok ((body', delete), t) ∧
      tree = .function a name params vararg (body'.mapScope t.settle) := by
  unfold Node.inlined at h
  rw [hbound] at h
  cases hrun : (Node.function a name params vararg body).inline bound (Scope.start bound) with
  | error e =>
    rw [hrun] at h
    cases h
  | ok r =>
    rw [hrun] at h
    cases h
    obtain ⟨⟨n, delete⟩, s⟩ := r
    obtain ⟨body', t, hnested, hrun⟩ := ok_of_bind hrun
    obtain ⟨hn, rfl⟩ := ok_of_pure hrun
    cases hn
    unfold Scope.nested at hnested
    cases hinner : (do Scope.keepAll params; body.inline bound : Inlining (Node × Bool))
        (Scope.start bound) with
    | error e =>
      rw [hinner] at hnested
      cases hnested
    | ok r =>
      rw [hinner] at hnested
      cases hnested
      obtain ⟨⟨⟩, s, hs, hbody⟩ := ok_of_bind hinner
      exact ⟨r.1.1, r.1.2, s, r.2, hs, hbody, rfl⟩

theorem inlined_function {a : Int} {name : Expr} {params : List Register} {vararg : Bool}
    {body tree : Node} (h : (Node.function a name params vararg body).inlined = .ok tree) :
    ∃ bound body' delete s t, Scope.keepAll params (Scope.start bound) = .ok ((), s) ∧
      body.inline bound s = .ok ((body', delete), t) ∧
      tree = .function a name params vararg (body'.mapScope t.settle) :=
  ⟨_, inlined_function_at rfl h⟩

/-! ## Use counts -/

mutual

theorem plain_addReads (reads : List Nat) (e : Expr) : (e.addReads reads).plain = e.plain := by
  cases e with
  | binary a op l r =>
    simp only [Expr.addReads, Expr.plain, plain_addReads reads l, plain_addReads reads r]
  | unary a op e => simp only [Expr.addReads, Expr.plain, plain_addReads reads e]
  | table a ks vs =>
    simp only [Expr.addReads, Expr.plain, plainAll_addReadsAll reads ks,
      plainAll_addReadsAll reads vs]
  | index a t k =>
    simp only [Expr.addReads, Expr.plain, plain_addReads reads t, plain_addReads reads k]
  | _ => rfl

theorem plainAll_addReadsAll (reads : List Nat) (es : List Expr) :
    Expr.plainAll (Expr.addReadsAll reads es) = Expr.plainAll es := by
  cases es with
  | nil => rfl
  | cons e es =>
    simp only [Expr.addReadsAll, Expr.plainAll, plain_addReads reads e,
      plainAll_addReadsAll reads es]

end

theorem length_addReadsAll (reads : List Nat) (es : List Expr) :
    (Expr.addReadsAll reads es).length = es.length := by
  induction es with
  | nil => rfl
  | cons e es ih => simp only [Expr.addReadsAll, List.length_cons, ih]

theorem forall_addReadsAll {P : Node → Prop} {reads : List Nat} {ns : List Node}
    (h : ∀ n ∈ ns, P (n.addReads reads)) : ∀ n ∈ Node.addReadsAll reads ns, P n := by
  induction ns with
  | nil => exact fun n hn => absurd hn List.not_mem_nil
  | cons n ns ih =>
    rw [List.forall_mem_cons] at h
    exact List.forall_mem_cons.mpr ⟨h.1, ih h.2⟩

theorem flat_addReads {n : Node} (h : n.Flat) (reads : List Nat) : (n.addReads reads).Flat := by
  cases h with
  | @assign a ts vs hts hvs hne hlen =>
    refine .assign ((plainAll_addReadsAll reads ts).trans hts)
      ((plainAll_addReadsAll reads vs).trans hvs) ?_ ?_
    · rw [ne_eq, ← List.length_eq_zero_iff, length_addReadsAll, List.length_eq_zero_iff]
      exact hne
    · rw [length_addReadsAll, length_addReadsAll, hlen]
  | vararg hts => exact .vararg ((plainAll_addReadsAll reads _).trans hts)
  | call hts hf hargs =>
    exact .call ((plainAll_addReadsAll reads _).trans hts) ((plain_addReads reads _).trans hf)
      ((plainAll_addReadsAll reads _).trans hargs)
  | returns hvs => exact .returns ((plainAll_addReadsAll reads _).trans hvs)
  | tailCall hf hargs =>
    exact .tailCall ((plain_addReads reads _).trans hf) ((plainAll_addReadsAll reads _).trans hargs)
  | jump a offset => exact .jump a offset
  | test hc => exact .test ((plain_addReads reads _).trans hc)
  | forPrep hx hy hz =>
    exact .forPrep ((plain_addReads reads _).trans hx) ((plain_addReads reads _).trans hy)
      ((plain_addReads reads _).trans hz)
  | forLoop hc => exact .forLoop ((plain_addReads reads _).trans hc)
  | tForLoop a vars => exact .tForLoop a _

/-- The counts of a function are those of its own scope. -/
theorem countUses_function {a : Int} {name : Expr} {params : List Register} {vararg : Bool}
    {body counted : Node}
    (h : (Node.function a name params vararg body).countUses = .ok counted) :
    ∃ reads params', counted = .function a name params' vararg (body.addReads reads) := by
  unfold Node.countUses at h
  cases hrun : (Node.function a name params vararg body).tally Tally.empty with
  | error e =>
    rw [hrun] at h
    cases h
  | ok r =>
    rw [hrun] at h
    cases h
    exact ⟨_, _, rfl⟩

/-! ## Both passes -/

/-- A function, the same with its uses counted, and the same inlined. -/
def bothPasses (x : Except DecompileError Declaration) : Option (Declaration × Node × Node) := do
  let d ← x.toOption
  let counted ← d.toNode.countUses.toOption
  let tree ← counted.inlined.toOption
  return (d, counted, tree)

theorem bothPasses_any {x : Except DecompileError Declaration} {P : Declaration → Node → Node → Bool}
    (h : (bothPasses x).any fun (d, counted, tree) => P d counted tree) :
    ∃ d counted tree, x = .ok d ∧ d.toNode.countUses = .ok counted ∧ counted.inlined = .ok tree ∧
      P d counted tree := by
  cases x with
  | error e => cases h
  | ok d =>
    cases hcount : d.toNode.countUses with
    | error e => simp [bothPasses, Except.toOption, hcount] at h
    | ok counted =>
      cases hinline : counted.inlined with
      | error e => simp [bothPasses, Except.toOption, hcount, hinline] at h
      | ok tree =>
        refine ⟨d, counted, tree, rfl, hcount, hinline, ?_⟩
        simpa [bothPasses, Except.toOption, hcount, hinline] using h

end HavokScript
