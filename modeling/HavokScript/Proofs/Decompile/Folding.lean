import HavokScript.Proofs.Decompile.Meaning

/-!
# Folding keeps the meaning of undisturbed code

A folded value is evaluated where its register is read instead of where it was assigned. In between,
an assignment that is kept may write a register that the value is made of, and then another value is
read. `Node.undisturbed` says that no kept assignment does this to a value that is still read. The
invariant is that what stands for a register that is still read has, in the slots of the folded code,
the value of the register in the slots of the original code (`Stands`); each statement preserves it,
so both runs show the same (`run_inlineAll`).
-/

namespace HavokScript

/-! ## Slots -/

mutual

/-- The slots that an expression reads. -/
def Expr.slots : Expr → List Int
  | .register r => [r.index]
  | .call _ f args => f.slots ++ Expr.slotsAll args
  | .binary _ _ l r => l.slots ++ r.slots
  | .unary _ _ e => e.slots
  | .table _ ks vs => Expr.slotsAll ks ++ Expr.slotsAll vs
  | .index _ t k => t.slots ++ k.slots
  | .shared _ e => e.slots
  | _ => []

/-- The slots that expressions read. -/
def Expr.slotsAll : List Expr → List Int
  | [] => []
  | e :: es => e.slots ++ Expr.slotsAll es

end

/-- The slots that are read to find where the targets of an assignment are. -/
def Expr.targetSlots : List Expr → List Int
  | [] => []
  | .register _ :: es => Expr.targetSlots es
  | e :: es => e.slots ++ Expr.targetSlots es

/-- The slots that an assignment writes. -/
def Expr.written (targets : List Expr) : List Int := (Expr.registers targets).map (·.index)

/-- The slots that are read before they are written, up to the first return. -/
def Node.exposed : List Node → List Int
  | [] => []
  | .assign _ ts vs _ :: ns =>
    Expr.slotsAll vs ++ Expr.targetSlots ts ++
      (Node.exposed ns).filter fun q => !(Expr.written ts).contains q
  | .returns _ vs :: _ => Expr.slotsAll vs
  | _ :: ns => Node.exposed ns

/-- Whether no assignment that is kept writes a slot which the value of another slot is made of that
is still read; `parts` are the slots that the value of each slot is made of. -/
def Node.undisturbedFrom (parts : Int → List Int) : List Node → Bool
  | [] => true
  | .assign _ ts vs _ :: ns =>
    match Scope.folded? ts vs with
    | some (r, v) =>
      Node.undisturbedFrom (fun q => if q = r.index then v.slots.flatMap parts else parts q) ns
    | none =>
      let written := Expr.written ts
      (Node.exposed ns).all (fun q => written.contains q || (parts q).all (!written.contains ·)) &&
        Node.undisturbedFrom (fun q => if written.contains q then [q] else parts q) ns
  | .returns .. :: _ => true
  | _ :: ns => Node.undisturbedFrom parts ns

/-- Whether no assignment of the function that is kept disturbs a folded value that is still read. -/
def Node.undisturbed : Node → Bool
  | .function _ _ _ _ (.block _ body) => Node.undisturbedFrom (fun q => [q]) body
  | _ => true

theorem targetSlots_cons {e : Expr} (hr : e.register? = none) (ts : List Expr) :
    Expr.targetSlots (e :: ts) = e.slots ++ Expr.targetSlots ts := by
  rw [Expr.targetSlots]
  rintro r rfl
  cases hr

/-! ## Expressions -/

namespace Interp

variable {V : Type}

mutual

theorem eval_congr (I : Interp V) {σ τ : Int → V} (e : Expr) (h : ∀ q ∈ e.slots, σ q = τ q) :
    I.eval σ e = I.eval τ e := by
  cases e with
  | register r => simp only [eval, h r.index (by simp [Expr.slots])]
  | call a f args =>
    rw [Expr.slots, List.forall_mem_append] at h
    simp only [eval, eval_congr I f h.1, evalAll_congr I args h.2]
  | binary a op l r =>
    rw [Expr.slots, List.forall_mem_append] at h
    simp only [eval, eval_congr I l h.1, eval_congr I r h.2]
  | unary a op e => simp only [eval, eval_congr I e h]
  | table a ks vs =>
    rw [Expr.slots, List.forall_mem_append] at h
    simp only [eval, evalAll_congr I ks h.1, evalAll_congr I vs h.2]
  | index a t k =>
    rw [Expr.slots, List.forall_mem_append] at h
    simp only [eval, eval_congr I t h.1, eval_congr I k h.2]
  | shared n e => simp only [eval, eval_congr I e h]
  | _ => rfl

theorem evalAll_congr (I : Interp V) {σ τ : Int → V} (es : List Expr)
    (h : ∀ q ∈ Expr.slotsAll es, σ q = τ q) : I.evalAll σ es = I.evalAll τ es := by
  cases es with
  | nil => rfl
  | cons e es =>
    rw [Expr.slotsAll, List.forall_mem_append] at h
    simp only [evalAll, eval_congr I e h.1, evalAll_congr I es h.2]

end

/-- What stands for a slot has its value, and is made of these parts. -/
def Stands (I : Interp V) (σ τ : Int → V) (live : Slots Expr) (parts : Int → List Int) (q : Int) :
    Prop :=
  ∀ x, live q = some x → I.eval τ x = pure (σ q) ∧ x.slots ⊆ parts q

theorem append_subset {xs ys xs' ys' : List Int} (hx : xs ⊆ xs') (hy : ys ⊆ ys') :
    xs ++ ys ⊆ xs' ++ ys' := by
  intro q hq
  rcases List.mem_append.mp hq with hq | hq
  · exact List.mem_append.mpr (.inl (hx hq))
  · exact List.mem_append.mpr (.inr (hy hq))

section

variable {I : Interp V} {σ τ : Int → V} {parts : Int → List Int}
  {visit : Nat → Expr → Inlining Expr} {s : Scope}

mutual

theorem eval_swapWith {e e' : Expr} {s' : Scope} (he : e.plain) (h : e.swapWith visit s = .ok (e', s'))
    (hs : ∀ q ∈ e.slots, I.Stands σ τ s.live parts q) :
    I.eval τ e' = I.eval σ e ∧ e'.slots ⊆ e.slots.flatMap parts := by
  cases e with
  | register r =>
    obtain ⟨x, hx, rfl, -⟩ := read_ok h
    obtain ⟨hvalue, hparts⟩ := hs r.index (by simp [Expr.slots]) _ hx
    refine ⟨hvalue, ?_⟩
    simpa [Expr.slots] using hparts
  | call a f args => cases he
  | shared n e => cases he
  | binary a op l r =>
    rw [Expr.plain, Bool.and_eq_true] at he
    rw [Expr.slots, List.forall_mem_append] at hs
    obtain ⟨l', t, hl, h⟩ := ok_of_bind h
    obtain ⟨r', u, hr, h⟩ := ok_of_bind h
    rw [swapWith_plain he.1 hl] at hr
    obtain ⟨hlvalue, hlparts⟩ := eval_swapWith he.1 hl hs.1
    obtain ⟨hrvalue, hrparts⟩ := eval_swapWith he.2 hr hs.2
    rw [(ok_of_pure h).1, Expr.slots, Expr.slots, List.flatMap_append]
    exact ⟨by simp only [eval, hlvalue, hrvalue], append_subset hlparts hrparts⟩
  | unary a op e =>
    rw [Expr.plain] at he
    rw [Expr.slots] at hs
    obtain ⟨e', t, he', h⟩ := ok_of_bind h
    obtain ⟨hvalue, hparts⟩ := eval_swapWith he he' hs
    rw [(ok_of_pure h).1]
    exact ⟨by simp only [eval, hvalue], hparts⟩
  | table a ks vs =>
    rw [Expr.plain, Bool.and_eq_true] at he
    rw [Expr.slots, List.forall_mem_append] at hs
    obtain ⟨ks', t, hks, h⟩ := ok_of_bind h
    obtain ⟨vs', u, hvs, h⟩ := ok_of_bind h
    rw [swapAllWith_plain he.1 hks] at hvs
    obtain ⟨hkvalue, hkparts⟩ := evalAll_swapAllWith he.1 hks hs.1
    obtain ⟨hvvalue, hvparts⟩ := evalAll_swapAllWith he.2 hvs hs.2
    rw [(ok_of_pure h).1, Expr.slots, Expr.slots, List.flatMap_append]
    exact ⟨by simp only [eval, hkvalue, hvvalue], append_subset hkparts hvparts⟩
  | index a t k =>
    rw [Expr.plain, Bool.and_eq_true] at he
    rw [Expr.slots, List.forall_mem_append] at hs
    obtain ⟨t', u, ht, h⟩ := ok_of_bind h
    obtain ⟨k', w, hk, h⟩ := ok_of_bind h
    rw [swapWith_plain he.1 ht] at hk
    obtain ⟨htvalue, htparts⟩ := eval_swapWith he.1 ht hs.1
    obtain ⟨hkvalue, hkparts⟩ := eval_swapWith he.2 hk hs.2
    rw [(ok_of_pure h).1, Expr.slots, Expr.slots, List.flatMap_append]
    exact ⟨by simp only [eval, htvalue, hkvalue], append_subset htparts hkparts⟩
  | _ =>
    rw [(ok_of_pure h).1]
    exact ⟨rfl, List.nil_subset _⟩

theorem evalAll_swapAllWith {es es' : List Expr} {s' : Scope} (hes : Expr.plainAll es)
    (h : Expr.swapAllWith visit es s = .ok (es', s'))
    (hs : ∀ q ∈ Expr.slotsAll es, I.Stands σ τ s.live parts q) :
    I.evalAll τ es' = I.evalAll σ es ∧ Expr.slotsAll es' ⊆ (Expr.slotsAll es).flatMap parts := by
  cases es with
  | nil =>
    rw [(ok_of_pure h).1]
    exact ⟨rfl, List.nil_subset _⟩
  | cons e es =>
    rw [Expr.plainAll, Bool.and_eq_true] at hes
    rw [Expr.slotsAll, List.forall_mem_append] at hs
    obtain ⟨e', t, he, h⟩ := ok_of_bind h
    obtain ⟨es', u, hes', h⟩ := ok_of_bind h
    rw [swapWith_plain hes.1 he] at hes'
    obtain ⟨hvalue, hparts⟩ := eval_swapWith hes.1 he hs.1
    obtain ⟨hvalues, hallparts⟩ := evalAll_swapAllWith hes.2 hes' hs.2
    rw [(ok_of_pure h).1, Expr.slotsAll, Expr.slotsAll, List.flatMap_append]
    exact ⟨by simp only [evalAll, hvalue, hvalues], append_subset hparts hallparts⟩

end

theorem place_swap {depth : Nat} {e e' : Expr} {s' : Scope} (he : e.plain)
    (hr : e.register? = none) (h : e.swap depth s = .ok (e', s'))
    (hs : ∀ q ∈ e.slots, I.Stands σ τ s.live parts q) : I.place τ e' = I.place σ e := by
  cases e with
  | register r => cases hr
  | call a f args => cases he
  | shared n e => cases he
  | index a t k =>
    rw [Expr.plain, Bool.and_eq_true] at he
    rw [Expr.slots, List.forall_mem_append] at hs
    obtain ⟨t', u, ht, h⟩ := ok_of_bind h
    obtain ⟨k', w, hk, h⟩ := ok_of_bind h
    rw [swapWith_plain he.1 ht] at hk
    rw [(ok_of_pure h).1]
    simp only [place, (eval_swapWith he.1 ht hs.1).1, (eval_swapWith he.2 hk hs.2).1]
  | binary a op l r =>
    obtain ⟨l', t, hl, h⟩ := ok_of_bind h
    obtain ⟨r', u, hr, h⟩ := ok_of_bind h
    rw [(ok_of_pure h).1]
    rfl
  | unary a op e =>
    obtain ⟨e', t, ht, h⟩ := ok_of_bind h
    rw [(ok_of_pure h).1]
    rfl
  | table a ks vs =>
    obtain ⟨ks', t, hks, h⟩ := ok_of_bind h
    obtain ⟨vs', u, hvs, h⟩ := ok_of_bind h
    rw [(ok_of_pure h).1]
    rfl
  | _ =>
    rw [(ok_of_pure h).1]
    rfl

theorem placeAll_swapTargets {depth : Nat} {ts ts' : List Expr} {s' : Scope}
    (hts : Expr.plainAll ts) (h : Expr.swapTargets depth ts s = .ok (ts', s'))
    (hs : ∀ q ∈ Expr.targetSlots ts, I.Stands σ τ s.live parts q) :
    I.placeAll τ ts' = I.placeAll σ ts := by
  induction ts generalizing ts' s' with
  | nil =>
    rw [(ok_of_pure h).1]
    rfl
  | cons e ts ih =>
    rw [Expr.plainAll, Bool.and_eq_true] at hts
    cases hr : e.register? with
    | some r =>
      cases e with
      | register r =>
        obtain ⟨ts', t, hts', h⟩ := ok_of_bind h
        rw [(ok_of_pure h).1]
        simp only [placeAll, ih hts.2 hts' hs]
        rfl
      | _ => cases hr
    | none =>
      rw [swapTargets_cons depth hr] at h
      rw [targetSlots_cons hr, List.forall_mem_append] at hs
      obtain ⟨e', t, he, h⟩ := ok_of_bind h
      obtain ⟨ts', u, hts', h⟩ := ok_of_bind h
      rw [swapWith_plain hts.1 he] at hts'
      rw [(ok_of_pure h).1]
      simp only [placeAll, place_swap hts.1 hr he hs.1, ih hts.2 hts' hs.2]

/-- The first of all values of an expression is its value. -/
theorem results_first (I : Interp V) (slots : Int → V) (e : Expr) :
    (do let r ← I.results slots e; return r 0) = I.eval slots e := by
  cases e with
  | call a f args => simp only [results, eval, bind_assoc]
  | vararg a => rfl
  | shared n e => exact results_first I slots e
  | _ => simp [results]

theorem valuesFor_one (I : Interp V) (slots : Int → V) (e : Expr) :
    I.valuesFor slots 1 [e] = (do let v ← I.eval slots e; return [v]) := by
  rw [← results_first, bind_assoc]
  simp only [pure_bind]
  rfl

theorem valuesFor_swapAll {a : Int} {ts vs vs' : List Expr} {kept : Bool} {depth : Nat}
    (hflat : (Node.assign a ts vs kept).Flat) (h : Expr.swapAll depth vs s = .ok (vs', s))
    (hs : ∀ q ∈ Expr.slotsAll vs, I.Stands σ τ s.live parts q) :
    I.valuesFor τ ts.length vs' = I.valuesFor σ ts.length vs := by
  cases hflat with
  | assign _ hvs hne hlen =>
    have hvalues := (evalAll_swapAllWith hvs h hs).1
    have hlength := length_swapAllWith h
    match vs, vs' with
    | [v], [v'] =>
      rw [hlen, List.length_singleton, valuesFor_one, valuesFor_one]
      simpa only [evalAll, pure_bind] using hvalues
    | v :: w :: rest, v' :: w' :: rest' =>
      simp only [valuesFor, resultsAll, hvalues]
  | vararg _ =>
    obtain ⟨e', t, he, h⟩ := ok_of_bind h
    obtain ⟨rest, u, hrest, h⟩ := ok_of_bind h
    rw [(ok_of_pure h).1, (ok_of_pure hrest).1, (ok_of_pure he).1]
    rfl
  | call _ hf hargs =>
    obtain ⟨-, f', args', rfl, hf', hargs'⟩ := swapAll_call hf hargs h
    simp only [Expr.slotsAll, Expr.slots, List.append_nil, List.forall_mem_append] at hs
    simp only [valuesFor, resultsAll, results, (eval_swapWith hf hf' hs.1).1,
      (evalAll_swapAllWith hargs hargs' hs.2).1]

theorem evalAll_returns {a : Int} {vs vs' : List Expr} {depth : Nat} {s' : Scope}
    (hflat : (Node.returns a vs).Flat) (h : Expr.swapAll depth vs s = .ok (vs', s'))
    (hs : ∀ q ∈ Expr.slotsAll vs, I.Stands σ τ s.live parts q) :
    I.evalAll τ vs' = I.evalAll σ vs := by
  cases hflat with
  | returns hvs => exact (evalAll_swapAllWith hvs h hs).1
  | tailCall hf hargs =>
    obtain ⟨-, f', args', rfl, hf', hargs'⟩ := swapAll_call hf hargs h
    simp only [Expr.slotsAll, Expr.slots, List.append_nil, List.forall_mem_append] at hs
    simp only [evalAll, eval, (eval_swapWith hf hf' hs.1).1,
      (evalAll_swapAllWith hargs hargs' hs.2).1]

end

/-! ## Plain expressions show nothing -/

mutual

theorem eval_plain (I : Interp V) (slots : Int → V) {e : Expr} (he : e.plain) :
    ∃ v, I.eval slots e = pure v := by
  cases e with
  | call a f args => cases he
  | shared n e => cases he
  | binary a op l r =>
    rw [Expr.plain, Bool.and_eq_true] at he
    obtain ⟨v, hv⟩ := eval_plain I slots he.1
    obtain ⟨w, hw⟩ := eval_plain I slots he.2
    exact ⟨I.binary op v w, by simp only [eval, hv, hw, pure_bind]⟩
  | unary a op e =>
    rw [Expr.plain] at he
    obtain ⟨v, hv⟩ := eval_plain I slots he
    exact ⟨I.unary op v, by simp only [eval, hv, pure_bind]⟩
  | table a ks vs =>
    rw [Expr.plain, Bool.and_eq_true] at he
    obtain ⟨v, hv⟩ := evalAll_plain I slots he.1
    obtain ⟨w, hw⟩ := evalAll_plain I slots he.2
    exact ⟨I.table v w, by simp only [eval, hv, hw, pure_bind]⟩
  | index a t k =>
    rw [Expr.plain, Bool.and_eq_true] at he
    obtain ⟨v, hv⟩ := eval_plain I slots he.1
    obtain ⟨w, hw⟩ := eval_plain I slots he.2
    exact ⟨I.index v w, by simp only [eval, hv, hw, pure_bind]⟩
  | _ => exact ⟨_, rfl⟩

theorem evalAll_plain (I : Interp V) (slots : Int → V) {es : List Expr} (hes : Expr.plainAll es) :
    ∃ vs, I.evalAll slots es = pure vs := by
  cases es with
  | nil => exact ⟨[], rfl⟩
  | cons e es =>
    rw [Expr.plainAll, Bool.and_eq_true] at hes
    obtain ⟨v, hv⟩ := eval_plain I slots hes.1
    obtain ⟨vs, hvs⟩ := evalAll_plain I slots hes.2
    exact ⟨v :: vs, by simp only [evalAll, hv, hvs, pure_bind]⟩

end

end Interp

/-! ## Stores -/

namespace Place

variable {V : Type}

/-- The slot that a place is, if it is one. -/
def slot? : Place V → Option Int
  | slot i => some i
  | _ => none

theorem write_of_not_mem {σ : Int → V} {stores : List (Place V × V)} {q : Int}
    (h : some q ∉ stores.map (·.1.slot?)) : write σ stores q = σ q := by
  induction stores generalizing σ with
  | nil => rfl
  | cons store stores ih =>
    rw [List.map_cons, List.mem_cons, not_or] at h
    obtain ⟨p, v⟩ := store
    cases p with
    | slot i =>
      have hq : q ≠ i := fun hq => h.1 (congrArg some hq)
      rw [write, ih h.2, if_neg hq]
    | _ => exact ih h.2

/-- A slot that is written has the same value afterwards, whatever the slots were. -/
theorem write_of_mem {σ τ : Int → V} {stores : List (Place V × V)} {q : Int}
    (h : some q ∈ stores.map (·.1.slot?)) : write σ stores q = write τ stores q := by
  induction stores generalizing σ τ with
  | nil => exact absurd h List.not_mem_nil
  | cons store stores ih =>
    by_cases hrest : some q ∈ stores.map (·.1.slot?)
    · obtain ⟨p, v⟩ := store
      cases p with
      | slot i => exact ih hrest
      | _ => exact ih hrest
    · rw [List.map_cons, List.mem_cons] at h
      have hp := h.resolve_right hrest
      obtain ⟨p, v⟩ := store
      cases p with
      | slot i =>
        cases hp
        rw [write, write, write_of_not_mem hrest, write_of_not_mem hrest, if_pos rfl, if_pos rfl]
      | _ => cases hp

end Place

theorem mem_written {ts : List Expr} {q : Int} :
    q ∈ Expr.written ts ↔ some q ∈ ts.map fun e => e.register?.map (·.index) := by
  simp only [Expr.written, Expr.registers, List.mem_map, List.mem_filterMap, Option.map_eq_some_iff]
  constructor
  · rintro ⟨r, ⟨e, he, hr⟩, hq⟩
    exact ⟨e, he, r, hr, hq⟩
  · rintro ⟨e, he, r, hr, hq⟩
    exact ⟨r, ⟨e, he, hr⟩, hq⟩

namespace Interp

variable {V : Type}

theorem placeAll_plain (I : Interp V) (slots : Int → V) {ts : List Expr}
    (hts : Expr.plainAll ts) : ∃ places, I.placeAll slots ts = pure places ∧
      places.map Place.slot? = ts.map fun e => e.register?.map (·.index) := by
  induction ts with
  | nil => exact ⟨[], rfl, rfl⟩
  | cons e ts ih =>
    rw [Expr.plainAll, Bool.and_eq_true] at hts
    obtain ⟨places, hplaces, hslots⟩ := ih hts.2
    have hplace : ∃ p, I.place slots e = pure p ∧ p.slot? = e.register?.map (·.index) := by
      cases e with
      | index a t k =>
        have he := hts.1
        rw [Expr.plain, Bool.and_eq_true] at he
        obtain ⟨v, hv⟩ := eval_plain I slots he.1
        obtain ⟨w, hw⟩ := eval_plain I slots he.2
        exact ⟨.entry v w, by simp only [place, hv, hw, pure_bind], rfl⟩
      | _ => exact ⟨_, rfl, rfl⟩
    obtain ⟨p, hp, hslot⟩ := hplace
    refine ⟨p :: places, by simp only [placeAll, hp, hplaces, pure_bind], ?_⟩
    rw [List.map_cons, List.map_cons, hslot, hslots]

/-! ## Runs -/

/-- Both runs put the same values to the same places. -/
theorem run_kept {I : Interp V} {σ τ : Int → V} {a : Int} {ts ts' vs vs' : List Expr}
    {kept kept' : Bool} {ns ns' : List Node} (hts : Expr.plainAll ts)
    (hlength : ts'.length = ts.length)
    (hvalues : I.valuesFor τ ts.length vs' = I.valuesFor σ ts.length vs)
    (hplaces : I.placeAll τ ts' = I.placeAll σ ts)
    (hrest : ∀ stores : List (Place V × V),
      stores.map (·.1.slot?) = ts.map (fun e => e.register?.map (·.index)) →
      I.run ns' (Place.write τ stores) = I.run ns (Place.write σ stores)) :
    I.run (.assign a ts' vs' kept' :: ns') τ = I.run (.assign a ts vs kept :: ns) σ := by
  obtain ⟨places, hpure, hslots⟩ := I.placeAll_plain σ hts
  have hcount : places.length = ts.length := by
    rw [← List.length_map Place.slot?, hslots, List.length_map]
  simp only [run, hlength, hvalues, hplaces, hpure, pure_bind]
  simp only [valuesFor, bind_assoc, pure_bind]
  refine bind_congr fun results => bind_congr fun _ => ?_
  apply hrest
  have hfst : (places.zip ((List.range ts.length).map results)).map (·.1) = places := by
    apply List.map_fst_zip
    simp [hcount]
  have hcomp := congrArg (List.map Place.slot?) hfst
  rw [List.map_map, hslots] at hcomp
  exact hcomp

/-- The assignment of a plain value to a register shows nothing. -/
theorem run_fold {I : Interp V} {σ : Int → V} {a : Int} {r : Register} {v : Expr} {kept : Bool}
    {ns : List Node} {w : V} (hv : I.eval σ v = pure w) :
    I.run (.assign a [.register r] [v] kept :: ns) σ =
      I.run ns (fun q => if q = r.index then w else σ q) := by
  have hvalues : I.valuesFor σ [Expr.register r].length [v] = pure [w] := by
    rw [List.length_singleton, valuesFor_one, hv, pure_bind]
  simp only [run, hvalues, placeAll, place, pure_bind]
  rfl

/-- A folded value stands for its register, and nothing else changes. -/
theorem Stands.fold {I : Interp V} {σ τ : Int → V} {parts : Int → List Int} {s s' : Scope}
    {r : Register} {v v' x : Expr} {w : V} {depth : Nat} (hplain : v.plain)
    (hswap : v.swap depth s = .ok (v', s)) (hshare : x = v' ∨ ∃ n, x = .shared n v')
    (hlive : s'.live = s.live.set r.index x) (hw : I.eval σ v = pure w)
    (hv : ∀ q ∈ v.slots, I.Stands σ τ s.live parts q) {q : Int}
    (hq : q ≠ r.index → I.Stands σ τ s.live parts q) :
    I.Stands (fun q => if q = r.index then w else σ q) τ s'.live
      (fun q => if q = r.index then v.slots.flatMap parts else parts q) q := by
  obtain ⟨hvalue, hparts⟩ := eval_swapWith hplain hswap hv
  intro y hy
  rw [hlive, Slots.set] at hy
  by_cases hr : q = r.index
  · rw [if_pos hr] at hy
    cases hy
    simp only [if_pos hr]
    rcases hshare with rfl | ⟨n, rfl⟩
    · exact ⟨hvalue.trans hw, hparts⟩
    · exact ⟨hvalue.trans hw, hparts⟩
  · rw [if_neg hr] at hy
    simp only [if_neg hr]
    exact hq hr y hy

/-- A kept assignment changes the slots it writes in both runs alike. What stands for another slot
keeps its value if it is not made of these. -/
theorem Stands.keep {I : Interp V} {σ τ : Int → V} {parts : Int → List Int} {s s' : Scope}
    {ts : List Expr} {stores : List (Place V × V)} {q : Int}
    (hlive : (∃ r ∈ Expr.registers ts, r.index = q ∧ s'.live q = some (.register r)) ∨
      (∀ r ∈ Expr.registers ts, r.index ≠ q) ∧ s'.live q = s.live q)
    (hstores : stores.map (·.1.slot?) = ts.map (fun e => e.register?.map (·.index)))
    (hundisturbed : q ∈ Expr.written ts ∨ ∀ p ∈ parts q, p ∉ Expr.written ts)
    (hq : q ∉ Expr.written ts → I.Stands σ τ s.live parts q) :
    I.Stands (Place.write σ stores) (Place.write τ stores) s'.live
      (fun q => if (Expr.written ts).contains q then [q] else parts q) q := by
  have hmem : ∀ p, p ∈ Expr.written ts ↔ some p ∈ stores.map (·.1.slot?) := by
    intro p
    rw [hstores, mem_written]
  intro x hx
  rcases hlive with ⟨r, hr, rfl, hlive⟩ | ⟨hnone, hlive⟩
  · have hwritten : r.index ∈ Expr.written ts := List.mem_map_of_mem hr
    rw [hlive] at hx
    cases hx
    refine ⟨?_, ?_⟩
    · exact congrArg pure (Place.write_of_mem ((hmem _).mp hwritten))
    · simp [Expr.slots, hwritten]
  · have hwritten : q ∉ Expr.written ts := by
      intro h
      obtain ⟨r, hr, hq⟩ := List.mem_map.mp h
      exact hnone r hr hq
    have hparts := hundisturbed.resolve_left hwritten
    rw [hlive] at hx
    obtain ⟨hvalue, hslots⟩ := hq hwritten x hx
    have hsame : ∀ p ∈ x.slots, Place.write τ stores p = τ p := fun p hp =>
      Place.write_of_not_mem (fun h => hparts p (hslots hp) ((hmem p).mpr h))
    refine ⟨?_, ?_⟩
    · rw [I.eval_congr x hsame, hvalue, Place.write_of_not_mem (fun h => hwritten ((hmem q).mpr h))]
    · simpa [hwritten] using hslots

end Interp

/-- Whether the statement is an assignment or a return. -/
def Node.isStraight : Node → Bool
  | .assign .. | .returns .. => true
  | _ => false

namespace Interp

variable {V : Type}

/-- Straight-line code that is undisturbed shows the same after inlining. -/
theorem run_inlineAll {I : Interp V} {σ τ : Int → V} {parts : Int → List Int} {bound : Nat}
    {ns ns' : List Node} {s s' : Scope} (hflat : ∀ n ∈ ns, n.Flat)
    (hstraight : ∀ n ∈ ns, n.isStraight) (hs : s.Quiet)
    (h : Node.inlineAll bound ns s = .ok (ns', s')) (hundisturbed : Node.undisturbedFrom parts ns)
    (hstands : ∀ q ∈ Node.exposed ns, I.Stands σ τ s.live parts q) :
    I.run ns' τ = I.run ns σ := by
  -- The two runs have slots of their own: a folded assignment writes those of the original code only.
  induction ns generalizing ns' s s' σ τ parts with
  | nil =>
    rw [(ok_of_pure h).1]
    rfl
  | cons n ns ih =>
    rw [List.forall_mem_cons] at hflat hstraight
    obtain ⟨⟨n', delete⟩, t, hn, h⟩ := ok_of_bind h
    obtain ⟨rest, u, hrest, h⟩ := ok_of_bind h
    obtain ⟨hquiet, hdelete, -⟩ := hflat.1.inline hs hn
    rw [(ok_of_pure h).1]
    cases n with
    | assign a ts vs kept =>
      obtain ⟨⟨m, value⟩, w, hassign, hn⟩ := ok_of_bind hn
      obtain ⟨hm, rfl⟩ := ok_of_pure hn
      cases hm
      obtain ⟨vs', ts', hvs, hts, -, hassigns⟩ := hflat.1.assigns hs hassign
      rw [Node.exposed, List.forall_mem_append, List.forall_mem_append] at hstands
      obtain ⟨⟨hvalues, htargets⟩, hothers⟩ := hstands
      cases hassigns with
      | @folded r v v' x kept' hfold hplain hswap hshare hlive =>
        obtain ⟨rfl, rfl⟩ := hflat.1.folded hfold
        obtain ⟨value, hvalue⟩ := I.eval_plain σ hplain
        simp only [Node.undisturbedFrom, hfold] at hundisturbed
        rw [run_fold hvalue]
        refine ih hflat.2 hstraight.2 hquiet hrest hundisturbed fun q hq => ?_
        refine Stands.fold hplain hswap hshare hlive hvalue ?_ fun hr => ?_
        · simpa [Expr.slotsAll] using hvalues
        · have hwritten : Expr.written [.register r] = [r.index] := rfl
          refine hothers q (List.mem_filter.mpr ⟨hq, ?_⟩)
          simpa [hwritten] using hr
      | @kept kept' hfold hlive =>
        simp only [Node.undisturbedFrom, hfold, Bool.and_eq_true, List.all_eq_true] at hundisturbed
        have hmap := (swapTargets_plain hflat.1.targets hts).2
        refine run_kept hflat.1.targets (length_of_map_register? hmap)
          (valuesFor_swapAll hflat.1 hvs hvalues)
          (placeAll_swapTargets hflat.1.targets hts htargets) fun stores hstores => ?_
        refine ih hflat.2 hstraight.2 hquiet hrest hundisturbed.2 fun q hq => ?_
        refine Stands.keep (hlive q) hstores ?_ fun hwritten => ?_
        · simpa using hundisturbed.1 q hq
        · exact hothers q (List.mem_filter.mpr ⟨hq, by simpa using hwritten⟩)
    | returns a vs =>
      obtain ⟨vs', w, hvs, hn⟩ := ok_of_bind hn
      obtain ⟨hm, rfl⟩ := ok_of_pure hn
      cases hm
      have hvalues := evalAll_returns hflat.1 hvs hstands
      simp only [Bool.false_eq_true, if_false, run, hvalues]
    | _ => cases hstraight.1

theorem isStraight_addReads (reads : List Nat) (n : Node) :
    (n.addReads reads).isStraight = n.isStraight := by
  cases n <;> rfl

theorem keepIterators_straight {ns : List Node} (h : ∀ n ∈ ns, n.isStraight) :
    Scope.keepIterators ns = pure () := by
  induction ns with
  | nil => rfl
  | cons n ns ih =>
    rw [List.forall_mem_cons] at h
    cases n with
    | assign a ts vs kept => exact ih h.2
    | returns a vs => exact ih h.2
    | _ => cases h.1

/-- Counting uses and inlining keep what a function shows if it has only assignments and returns and
no kept assignment disturbs a folded value that is still read. -/
theorem observe_inlined (I : Interp V) (slots : Int → V) {c : Code} {d : Declaration}
    {counted tree : Node} (hlower : c.lower = .ok d) (hstraight : ∀ n ∈ d.body, n.isStraight)
    (hcount : d.toNode.countUses = .ok counted) (hinline : counted.inlined = .ok tree)
    (hundisturbed : counted.undisturbed) : I.observe slots tree = I.observe slots d.toNode := by
  obtain ⟨reads, params, rfl⟩ := countUses_function hcount
  obtain ⟨bound, body, delete, s, t, hs, hbody, rfl⟩ := inlined_function hinline
  have hflat : ∀ n ∈ Node.addReadsAll reads d.body, n.Flat :=
    forall_addReadsAll fun n hn => flat_addReads (Code.lower_flat hlower n hn) reads
  have hstraight : ∀ n ∈ Node.addReadsAll reads d.body, n.isStraight :=
    forall_addReadsAll fun n hn => (isStraight_addReads reads n).trans (hstraight n hn)
  obtain ⟨_, u, hkeep, hlist⟩ := ok_of_bind hbody
  rw [keepIterators_straight hstraight] at hkeep
  obtain ⟨-, rfl⟩ := ok_of_pure hkeep
  obtain ⟨ns, v, hns, hblock⟩ := ok_of_bind hlist
  obtain ⟨hn, rfl⟩ := ok_of_pure hblock
  cases hn
  have hquiet := (Scope.Quiet.start bound).keepAll hs
  rw [(inlineAll_quiet hflat hquiet hns).settle, mapScope_id]
  have hstands : ∀ q ∈ Node.exposed (Node.addReadsAll reads d.body),
      I.Stands slots slots u.live (fun q => [q]) q := by
    intro q _ x hx
    rcases keepAll_ok hs hx with ⟨r, rfl, rfl⟩ | hnone
    · exact ⟨rfl, List.Subset.refl _⟩
    · cases hnone
  have hrun := run_inlineAll hflat hstraight hquiet hns hundisturbed hstands
  rw [run_addReads] at hrun
  simp only [observe, Declaration.toNode, hrun]

/-- The sum of two parameters is folded into the return, over a call. -/
theorem observe_inlined_sum :
    ∃ d counted tree, (Code.ofWords 3 [Word.ofABC 40 3 0 1, Word.ofABC 7 4 2 0,
        Word.ofABC 30 4 1 2, Word.ofABC 9 3 3 0]).lower = .ok d ∧
      (∀ n ∈ d.body, n.isStraight) ∧ d.toNode.countUses = .ok counted ∧
      counted.inlined = .ok tree ∧ counted.undisturbed ∧
      ∀ (V : Type) (I : Interp V) (slots : Int → V),
        I.observe slots tree = I.observe slots d.toNode := by
  obtain ⟨d, counted, tree, hlower, hcount, hinline, hrun⟩ := bothPasses_any
    (x := (Code.ofWords 3 [Word.ofABC 40 3 0 1, Word.ofABC 7 4 2 0, Word.ofABC 30 4 1 2,
      Word.ofABC 9 3 3 0]).lower)
    (P := fun d counted _ => d.body.all Node.isStraight && counted.undisturbed) (by decide +kernel)
  rw [Bool.and_eq_true, List.all_eq_true] at hrun
  exact ⟨d, counted, tree, hlower, hrun.1, hcount, hinline, hrun.2, fun V I slots =>
    observe_inlined I slots hlower hrun.1 hcount hinline hrun.2⟩

/-- An interpretation in numbers. -/
def numeric : Interp Nat where
  nil := 0
  bool b := if b then 1 else 0
  number _ := 0
  string s := s.length
  identifier n := n.length
  closure i := i.toNat
  vararg k := k
  binary _ x y := x + y
  unary _ x := x
  table _ vs := vs.length
  index t k := t + k
  call n f args k := 100 + n + f + args.length + k

/-- A copy of a parameter is folded into the return, over a call that overwrites the parameter. -/
theorem observe_overwritten :
    ∃ (c : Code) (d : Declaration) (counted tree : Node),
      (∀ i ∈ c.instructions.items, i.Decoded) ∧ c.lower = .ok d ∧
      (∀ n ∈ d.body, n.isStraight) ∧ d.toNode.countUses = .ok counted ∧
      counted.inlined = .ok tree ∧
      ∃ slots, numeric.observe slots tree ≠ numeric.observe slots d.toNode := by
  obtain ⟨d, counted, tree, hlower, hcount, hinline, hrun⟩ := bothPasses_any
    (x := (Code.ofWords 1 [Word.ofABC 7 1 0 0, Word.ofABC 30 0 1 2, Word.ofABC 9 0 3 0]).lower)
    (P := fun d _ tree => d.body.all Node.isStraight &&
      numeric.observe (fun _ => 7) tree != numeric.observe (fun _ => 7) d.toNode)
    (by decide +kernel)
  rw [Bool.and_eq_true, List.all_eq_true, bne_iff_ne] at hrun
  exact ⟨_, d, counted, tree, Code.ofWords_decoded _ _, hlower, hrun.1, hcount, hinline, _, hrun.2⟩

end Interp

end HavokScript
