/-!
# What a computation gives

`Outcome P E x` says that `x` is a value with `P` or a failure with `E`, and `Gives P E m` that a
step with a state does so from every state. `Yields P x` says the same of a value that may be
missing. `Agree R E x y` compares two: both give values that `R` relates, or both fail with failures
that `E` relates. `Succeeds m s Q` says that a step gives a value from a state, and `Q` of the value
and the state behind it. All are closed under sequencing, so that what a reader, a walk or a pass can
give is read off its definition. Where it does not matter which failure there is, `Except.toOption` is
taken.
-/

namespace HavokScript

variable {σ ε α β : Type} {P P' : α → Prop} {Q : β → Prop} {E E' : ε → Prop}

/-- The value has `P`, or the failure has `E`. -/
def Outcome (P : α → Prop) (E : ε → Prop) : Except ε α → Prop
  | .ok a => P a
  | .error e => E e

namespace Outcome

theorem pure {a : α} (h : P a) : Outcome P E (pure a) := h

theorem bind {x : Except ε α} {f : α → Except ε β} (hx : Outcome P E x)
    (hf : ∀ a, P a → Outcome Q E (f a)) : Outcome Q E (x >>= f) := by
  cases x with
  | ok a => exact hf a hx
  | error e => exact hx

theorem mono {x : Except ε α} (hx : Outcome P E x) (hP : ∀ a, P a → P' a)
    (hE : ∀ e, E e → E' e) : Outcome P' E' x := by
  cases x with
  | ok a => exact hP a hx
  | error e => exact hE e hx

end Outcome

/-- The failure, if there is one. -/
def failure? : Except ε α → Option ε
  | .ok _ => none
  | .error e => some e

/-- What comes first fails first, if what comes then fails alike after every value. -/
theorem failure?_bind {x : Except ε α} {f : α → Except ε β} {y : Option ε}
    (hf : ∀ a, failure? (f a) = y) : failure? (x >>= f) = (failure? x).or y := by
  cases x with
  | ok a => exact hf a
  | error e => rfl

theorem failure?_map (x : Except ε α) (f : α → β) :
    failure? (do let a ← x; return f a) = failure? x := by
  cases x <;> rfl

theorem failure?_eq_some {x : Except ε α} {e : ε} : failure? x = some e ↔ x = .error e := by
  cases x <;> simp [failure?]

theorem outcome_any (x : Except ε α) : Outcome (fun _ => True) (fun _ => True) x := by
  cases x <;> trivial

/-- From every state the step gives a value with `P` or a failure with `E`. -/
def Gives (P : α → Prop) (E : ε → Prop) (m : StateT σ (Except ε) α) : Prop :=
  ∀ s, Outcome (fun r => P r.1) E (m s)

namespace Gives

theorem pure {a : α} (h : P a) :
    Gives P E (Pure.pure a : StateT σ (Except ε) α) := fun _ => h

theorem bind {m : StateT σ (Except ε) α} {f : α → StateT σ (Except ε) β} (hm : Gives P E m)
    (hf : ∀ a, P a → Gives Q E (f a)) : Gives Q E (m >>= f) :=
  fun s => (hm s).bind fun r hr => hf r.1 hr r.2

theorem mono {m : StateT σ (Except ε) α} (hm : Gives P E m) (hP : ∀ a, P a → P' a)
    (hE : ∀ e, E e → E' e) : Gives P' E' m :=
  fun s => (hm s).mono (fun r => hP r.1) hE

theorem of_ok {m : StateT σ (Except ε) α} (hm : Gives P E m) {s s' : σ} {a : α}
    (h : m s = .ok (a, s')) : P a := by
  have := hm s
  rwa [h] at this

end Gives

theorem gives_any (m : StateT σ (Except ε) α) : Gives (fun _ => True) (fun _ => True) m :=
  fun s => outcome_any (m s)

/-- The value, if there is one, has `P`. -/
def Yields (P : α → Prop) (x : Option α) : Prop := ∀ a, x = some a → P a

theorem yields_any (x : Option α) : Yields (fun _ => True) x := fun _ _ => trivial

namespace Yields

theorem pure {a : α} (h : P a) : Yields P (Pure.pure a) := by
  intro b hb
  cases hb
  exact h

theorem bind {x : Option α} {f : α → Option β} (hx : Yields P x)
    (hf : ∀ a, P a → Yields Q (f a)) : Yields Q (x >>= f) := by
  intro b hb
  obtain ⟨a, ha, hb⟩ := Option.bind_eq_some_iff.mp hb
  exact hf a (hx a ha) b hb

end Yields

/-- Steps one after the other that give a value. -/
theorem ok_of_bind {m : StateT σ (Except ε) α} {f : α → StateT σ (Except ε) β} {s s' : σ} {b : β}
    (h : (m >>= f) s = .ok (b, s')) :
    ∃ a t, m s = .ok (a, t) ∧ f a t = .ok (b, s') := by
  change Except.bind (m s) (fun r => f r.1 r.2) = .ok (b, s') at h
  cases hm : m s with
  | error e =>
    rw [hm] at h
    cases h
  | ok r =>
    rw [hm] at h
    exact ⟨r.1, r.2, rfl, h⟩

theorem ok_of_pure {s s' : σ} {a b : α}
    (h : (pure a : StateT σ (Except ε) α) s = .ok (b, s')) : b = a ∧ s' = s := by
  cases h
  exact ⟨rfl, rfl⟩

/-- From the state the step gives a value, and the value and the state behind it have the property. -/
def Succeeds (m : StateT σ (Except ε) α) (s : σ) (Q : α → σ → Prop) : Prop :=
  ∃ a t, m s = .ok (a, t) ∧ Q a t

namespace Succeeds

variable {m : StateT σ (Except ε) α} {s : σ} {P : α → σ → Prop} {Q : β → σ → Prop}

theorem pure {a : α} (h : P a s) : Succeeds (Pure.pure a : StateT σ (Except ε) α) s P :=
  ⟨a, s, rfl, h⟩

theorem bind {f : α → StateT σ (Except ε) β}
    (h : Succeeds m s fun a t => Succeeds (f a) t Q) : Succeeds (m >>= f) s Q := by
  obtain ⟨a, t, hm, b, u, hf, hQ⟩ := h
  refine ⟨b, u, ?_, hQ⟩
  change Except.bind (m s) (fun r => f r.1 r.2) = .ok (b, u)
  rw [hm]
  exact hf

theorem mono {P' : α → σ → Prop} (h : Succeeds m s P) (hP : ∀ a t, P a t → P' a t) :
    Succeeds m s P' := by
  obtain ⟨a, t, hm, ha⟩ := h
  exact ⟨a, t, hm, hP a t ha⟩

end Succeeds

/-! ## Two computations -/

/-- Both give values that `R` relates, or both fail with failures that `E` relates. -/
inductive Agree {ε δ α β : Type} (R : α → β → Prop) (E : ε → δ → Prop) :
    Except ε α → Except δ β → Prop
  | ok {a : α} {b : β} (h : R a b) : Agree R E (.ok a) (.ok b)
  | error {e : ε} {d : δ} (h : E e d) : Agree R E (.error e) (.error d)

namespace Agree

variable {δ α' β' : Type} {R : α → β → Prop} {S : α' → β' → Prop} {F : ε → δ → Prop}
  {x : Except ε α} {y : Except δ β}

theorem bind {f : α → Except ε α'} {g : β → Except δ β'} (hx : Agree R F x y)
    (hf : ∀ a b, R a b → Agree S F (f a) (g b)) : Agree S F (x >>= f) (y >>= g) := by
  cases hx with
  | ok h => exact hf _ _ h
  | error h => exact .error h

theorem and_left {P : α → Prop} (hx : Agree R F x y) (hP : ∀ a, x = .ok a → P a) :
    Agree (fun a b => R a b ∧ P a) F x y := by
  cases hx with
  | ok h => exact .ok ⟨h, hP _ rfl⟩
  | error h => exact .error h

theorem and_right {Q : β → Prop} (hx : Agree R F x y) (hQ : ∀ b, y = .ok b → Q b) :
    Agree (fun a b => R a b ∧ Q b) F x y := by
  cases hx with
  | ok h => exact .ok ⟨h, hQ _ rfl⟩
  | error h => exact .error h

/-- What follows is the same if failures are read alike and values are used alike. -/
theorem bind_eq {κ γ : Type} {f : ε → κ} {g : δ → κ} {k : α → Except κ γ} {l : β → Except κ γ}
    (hx : Agree R F x y) (hF : ∀ e d, F e d → f e = g d) (hR : ∀ a b, R a b → k a = l b) :
    (x.mapError f >>= k) = (y.mapError g >>= l) := by
  cases hx with
  | ok h => exact hR _ _ h
  | error h => exact congrArg Except.error (hF _ _ h)

/-- Computations that are equal up to what a failure is read as. -/
theorem of_mapError {κ : Type} {f : ε → κ} {x y : Except ε α}
    (h : x.mapError f = y.mapError f) : Agree (· = ·) (fun e d => f e = f d) x y := by
  cases x with
  | ok a =>
    cases y with
    | ok b => exact .ok (Except.ok.inj h)
    | error d => cases h
  | error e =>
    cases y with
    | ok b => cases h
    | error d => exact .error (Except.error.inj h)

end Agree

/-! ## Values without failures -/

theorem ok_of_toOption {x : Except ε α} {a : α} (h : x.toOption = some a) :
    x = .ok a := by
  cases x with
  | ok b => exact congrArg Except.ok (Option.some.inj h)
  | error e => cases h

/-- A computation that was run gives a value with what was computed of it. -/
theorem exists_ok_of_any {x : Except ε α} {p : α → Bool} (h : x.toOption.any p) :
    ∃ a, x = .ok a ∧ p a := by
  cases x with
  | error e => cases h
  | ok a => exact ⟨a, rfl, h⟩

theorem ok_of_map {x : Except ε α} {f : α → β} {b : β} (h : x.map f = .ok b) :
    ∃ a, x = .ok a ∧ f a = b := by
  cases x with
  | error e => cases h
  | ok a => exact ⟨a, rfl, Except.ok.inj h⟩

theorem error_of_map {x : Except ε α} {f : α → β} {e : ε} (h : x.map f = .error e) :
    x = .error e := by
  cases x with
  | error d => exact congrArg Except.error (Except.error.inj h)
  | ok a => cases h

theorem toOption_bind (x : Except ε α) (f : α → Except ε β) :
    (x >>= f).toOption = x.toOption.bind fun a => (f a).toOption := by
  cases x <;> rfl

theorem toOption_run_pure (a : α) (s : σ) :
    ((pure a : StateT σ (Except ε) α) s).toOption = some (a, s) := rfl

/-- Steps one after the other, if failures are all the same. -/
theorem toOption_run_bind (m : StateT σ (Except ε) α) (f : α → StateT σ (Except ε) β) (s : σ) :
    ((m >>= f) s).toOption = (m s).toOption.bind fun r => (f r.1 r.2).toOption :=
  toOption_bind (m s) fun r => f r.1 r.2

end HavokScript
