import HavokScript.Decompile.Pipeline
import HavokScript.Proofs.Decompile.LoopUpdates

/-!
# Decompiling closures

A pass over a declaration meets the closures in front of its statements first. Counting and inlining
open a scope for each closure and forget it at its end, so a pass does to a function what it does to
the function without closures, and to each closure what it does to that closure (`Modular`). Hence
passes may run before the functions are put together (`Prototype.assembled_bind`), and a file is put
together from what its functions are alone (`ChunkFile.decompile_assembled`).

Only values and failures are told apart here: which of two functions fails first depends on the order
of the passes.
-/

namespace HavokScript

/-! ## Declarations with closures -/

namespace Declaration

/-- The declarations of closures as local functions, the first of which has the index `i`. -/
def locals (i : Nat) : List Declaration → List Node
  | [] => []
  | d :: ds => d.toLocal i :: locals (i + 1) ds

/-- The declaration with closures declared in front of its statements. -/
def enclose (d : Declaration) (ds : List Declaration) : Declaration :=
  { d with body := locals 0 ds ++ d.body }

/-- A file with one function. -/
def toFile (d : Declaration) : Node := .chunk d.address [d.toNode]

end Declaration

mutual

/-- The declaration of a prototype, put together from what its functions are alone. -/
def Prototype.assembled (alone : Code → Option Declaration) : Prototype → Option Declaration
  | ⟨code, none⟩ => alone code
  | ⟨code, some ps⟩ => do
    let d ← alone code
    let ds ← Prototype.assembledAll alone ps
    return d.enclose ds

/-- The declarations of prototypes, each put together. -/
def Prototype.assembledAll (alone : Code → Option Declaration) :
    List Prototype → Option (List Declaration)
  | [] => return []
  | p :: ps => do
    let d ← p.assembled alone
    let ds ← Prototype.assembledAll alone ps
    return d :: ds

end

namespace Prototype

theorem walk_eq (p : Prototype) : p.walk = p :: walkAll p.inner := by
  obtain ⟨code, closures⟩ := p
  cases closures <;> rfl

section

variable {alone : Code → Option Declaration} {Q : Prototype → Prop}
  {P : Prototype → Declaration → Prop}

mutual

/-- What holds of a function if it holds of its closures, holds of what a prototype is put together to. -/
theorem assembled_induction
    (step : ∀ p d ds, alone p.toCode = some d → Q p → List.Forall₂ P p.inner ds →
      P p (d.enclose ds))
    (p : Prototype) (hgood : ∀ q ∈ p.walk, Q q) {d : Declaration}
    (hd : p.assembled alone = some d) : P p d := by
  obtain ⟨code, closures⟩ := p
  rw [walk_eq, List.forall_mem_cons] at hgood
  cases closures with
  | none => exact step ⟨code, none⟩ d [] hd hgood.1 .nil
  | some ps =>
    obtain ⟨d', hd', hd⟩ := Option.bind_eq_some_iff.mp hd
    obtain ⟨ds, hds, hd⟩ := Option.bind_eq_some_iff.mp hd
    cases hd
    exact step ⟨code, some ps⟩ d' ds hd' hgood.1 (assembledAll_induction step ps hgood.2 hds)

theorem assembledAll_induction
    (step : ∀ p d ds, alone p.toCode = some d → Q p → List.Forall₂ P p.inner ds →
      P p (d.enclose ds))
    (ps : List Prototype) (hgood : ∀ q ∈ walkAll ps, Q q) {ds : List Declaration}
    (hds : assembledAll alone ps = some ds) : List.Forall₂ P ps ds := by
  cases ps with
  | nil =>
    cases hds
    exact .nil
  | cons p ps =>
    rw [walkAll, List.forall_mem_append] at hgood
    obtain ⟨d, hd, hds⟩ := Option.bind_eq_some_iff.mp hds
    obtain ⟨ds, hds', hds⟩ := Option.bind_eq_some_iff.mp hds
    cases hds
    exact .cons (assembled_induction step p hgood.1 hd) (assembledAll_induction step ps hgood.2 hds')

end

end

end Prototype

/-- The change of a function and those of its closures do not meet. -/
def Modular (pass : Declaration → Option Declaration) : Prop :=
  ∀ d ds, pass (d.enclose ds) = do
    let d ← pass d
    let ds ← ds.mapM pass
    return d.enclose ds

mutual

theorem Prototype.assembled_bind {pass : Declaration → Option Declaration} (h : Modular pass)
    (alone : Code → Option Declaration) (p : Prototype) :
    (p.assembled alone).bind pass = p.assembled fun c => (alone c).bind pass := by
  obtain ⟨code, closures⟩ := p
  cases closures with
  | none => rfl
  | some ps =>
    have hps := Prototype.assembledAll_bind h alone ps
    simp only [Prototype.assembled]
    cases alone code with
    | none => rfl
    | some d =>
      cases hall : Prototype.assembledAll alone ps with
      | none =>
        rw [hall] at hps
        simp [← hps]
      | some ds =>
        rw [hall] at hps
        simp [← hps, h d ds]

theorem Prototype.assembledAll_bind {pass : Declaration → Option Declaration} (h : Modular pass)
    (alone : Code → Option Declaration) (ps : List Prototype) :
    (Prototype.assembledAll alone ps).bind (List.mapM pass) =
      Prototype.assembledAll (fun c => (alone c).bind pass) ps := by
  cases ps with
  | nil => rfl
  | cons p ps =>
    have hp := Prototype.assembled_bind h alone p
    have hps := Prototype.assembledAll_bind h alone ps
    simp only [Prototype.assembledAll, ← hp, ← hps]
    cases p.assembled alone with
    | none => rfl
    | some d =>
      cases Prototype.assembledAll alone ps with
      | none => simp
      | some ds => simp

end

/-! ## Use counts -/

/-- A function succeeds as its walk does, and is no part of the walk around it. -/
theorem Tally.toOption_nested (params : List Register) (walk : Counting Unit) (t : Tally) :
    (Tally.nested params walk t).toOption =
      ((do Tally.bindAll params; walk : Counting Unit) Tally.empty).toOption.map fun _ => ((), t) := by
  unfold Tally.nested
  split <;> rename_i h <;> rw [h] <;> rfl

theorem Tally.readsOf_eq_getD (params : List Register) (body : Node) :
    Tally.readsOf params body =
      (((do Tally.bindAll params; body.tally : Counting Unit) Tally.empty).toOption.map
        (·.2.reads)).getD [] := by
  unfold Tally.readsOf
  split <;> rename_i h <;> rw [h] <;> rfl

namespace Declaration

/-- The walk over the scope of a declaration. -/
def tallied (d : Declaration) : Except DecompileError (Unit × Tally) :=
  (do Tally.bindAll d.parameters; (Node.block d.address d.body).tally : Counting Unit) Tally.empty

/-- The declaration with its uses counted. -/
def counted (d : Declaration) : Option Declaration :=
  d.tallied.toOption.map fun r =>
    { d with
      parameters := d.parameters.map (Register.addReads r.2.reads)
      body := Node.addReadsAll r.2.reads d.body }

theorem bindIterators_locals (i : Nat) (ds : List Declaration) (ns : List Node) :
    Node.bindIterators (locals i ds ++ ns) = Node.bindIterators ns := by
  induction ds generalizing i with
  | nil => rfl
  | cons d ds ih => exact ih (i + 1)

theorem tally_nested (d : Declaration) (t : Tally) :
    (Tally.nested d.parameters (Node.block d.address d.body).tally t).toOption =
      d.counted.map fun _ => ((), t) := by
  rw [Tally.toOption_nested, counted, Option.map_map]
  rfl

theorem tally_toLocal (d : Declaration) (i : Nat) (t : Tally) :
    ((d.toLocal i).tally t).toOption = d.counted.map fun _ => ((), t) :=
  d.tally_nested t

/-- A closure is counted from nothing written, and what was written around it stays. -/
theorem tallyAll_locals (i : Nat) (ds : List Declaration) (ns : List Node) (t : Tally) :
    (Node.tallyAll (locals i ds ++ ns) t).toOption =
      (ds.mapM counted).bind fun _ => (Node.tallyAll ns t).toOption := by
  induction ds generalizing i with
  | nil => rfl
  | cons d ds ih =>
    rw [locals, List.cons_append, Node.tallyAll, toOption_run_bind, tally_toLocal]
    cases hd : d.counted with
    | none => simp [hd]
    | some d' => simp [hd, ih, Option.bind_assoc]

theorem readsOf_eq {d : Declaration} {r : Unit × Tally} (h : d.tallied.toOption = some r) :
    Tally.readsOf d.parameters (.block d.address d.body) = r.2.reads := by
  unfold tallied at h
  rw [Tally.readsOf_eq_getD, h]
  rfl

/-- A closure gets its own reads, whatever was read around it. -/
theorem addReads_toLocal {d d' : Declaration} (h : d.counted = some d') (i : Nat)
    (reads : List Nat) : (d.toLocal i).addReads reads = d'.toLocal i := by
  obtain ⟨r, hrun, rfl⟩ := Option.map_eq_some_iff.mp h
  rw [toLocal, toLocal, Node.addReads, readsOf_eq hrun, Node.addReads]

theorem addReadsAll_locals {ds ds' : List Declaration} (h : ds.mapM counted = some ds') (i : Nat)
    (reads : List Nat) : Node.addReadsAll reads (locals i ds) = locals i ds' := by
  induction ds generalizing i ds' with
  | nil =>
    cases h
    rfl
  | cons d ds ih =>
    rw [List.mapM_cons] at h
    obtain ⟨d', hd, h⟩ := Option.bind_eq_some_iff.mp h
    obtain ⟨ds', hds, h⟩ := Option.bind_eq_some_iff.mp h
    cases h
    rw [locals, Node.addReadsAll, addReads_toLocal hd, ih hds, locals]

/-- The walk over a declaration goes over its closures first, and keeps nothing of them. -/
theorem tallied_enclose (d : Declaration) (ds : List Declaration) :
    (d.enclose ds).tallied.toOption = (ds.mapM counted).bind fun _ => d.tallied.toOption := by
  simp only [tallied, enclose, Node.tally, bindIterators_locals, toOption_run_bind,
    tallyAll_locals]
  cases ds.mapM counted <;> simp

theorem modular_counted : Modular counted := by
  intro d ds
  rw [counted, tallied_enclose, counted]
  cases hds : ds.mapM counted with
  | none => simp
  | some ds' =>
    simp only [enclose, Node.addReadsAll_append, addReadsAll_locals hds]
    cases d.tallied.toOption <;> rfl

end Declaration

/-! ## Inlining -/

theorem Scope.toOption_nested (bound : Nat) (parameters : List Register)
    (body : Inlining (Node × Bool)) (s : Scope) :
    (Scope.nested bound parameters body s).toOption =
      ((do Scope.keepAll parameters; body : Inlining (Node × Bool))
        (Scope.start bound)).toOption.map fun r => (r.1.1.mapScope r.2.settle, s) := by
  unfold Scope.nested
  split <;> rename_i h <;> rw [h] <;> rfl

namespace Declaration

/-- The statements of a declaration after inlining, in which places are not up to date, and what is
known at their end. Nothing is shared in the declaration. -/
def folded (d : Declaration) : Except DecompileError (List Node × Scope) :=
  (do
    Scope.keepAll d.parameters
    Scope.keepIterators d.body
    Node.inlineAll 0 d.body : Inlining (List Node)) (Scope.start 0)

/-- The declaration with single-use registers inlined, if nothing is shared in it. -/
def inlined (d : Declaration) : Option Declaration :=
  d.folded.toOption.map fun r => { d with body := Node.mapScopeAll r.2.settle r.1 }

theorem keepIterators_locals (i : Nat) (ds : List Declaration) (ns : List Node) :
    Scope.keepIterators (locals i ds ++ ns) = Scope.keepIterators ns := by
  induction ds generalizing i with
  | nil => rfl
  | cons d ds ih => exact ih (i + 1)

/-- A closure is inlined into from the start of a scope, and the scope around it stays. -/
theorem inline_nested (d : Declaration) (s : Scope) :
    (Scope.nested 0 d.parameters ((Node.block d.address d.body).inline 0) s).toOption =
      d.inlined.map fun d' => (.block d'.address d'.body, s) := by
  rw [Scope.toOption_nested, inlined, folded]
  simp only [Node.inline, toOption_run_bind, toOption_run_pure]
  cases (Scope.keepAll d.parameters (Scope.start 0)).toOption with
  | none => rfl
  | some r =>
    simp only [Option.bind_some]
    cases (Scope.keepIterators d.body r.2).toOption with
    | none => rfl
    | some r' =>
      simp only [Option.bind_some]
      cases (Node.inlineAll 0 d.body r'.2).toOption <;> rfl

theorem inline_toLocal (d : Declaration) (i : Nat) (s : Scope) :
    ((d.toLocal i).inline 0 s).toOption = d.inlined.map fun d' => ((d'.toLocal i, false), s) := by
  rw [toLocal, Node.inline, toOption_run_bind, inline_nested, inlined]
  cases d.folded.toOption <;> rfl

theorem inline_toNode (d : Declaration) (s : Scope) :
    (d.toNode.inline 0 s).toOption = d.inlined.map fun d' => ((d'.toNode, false), s) := by
  rw [toNode, Node.inline, toOption_run_bind, inline_nested, inlined]
  cases d.folded.toOption <;> rfl

/-- Closures become what they become alone, and what is known around them stays. -/
theorem inlineAll_locals (i : Nat) (ds : List Declaration) (ns : List Node) (s : Scope) :
    (Node.inlineAll 0 (locals i ds ++ ns) s).toOption =
      (ds.mapM inlined).bind fun ds' =>
        (Node.inlineAll 0 ns s).toOption.map fun r => (locals i ds' ++ r.1, r.2) := by
  induction ds generalizing i with
  | nil => simp [locals]
  | cons d ds ih =>
    rw [locals, List.cons_append, Node.inlineAll, toOption_run_bind, inline_toLocal]
    cases hd : d.inlined with
    | none => simp [hd]
    | some d' =>
      simp only [Option.map_some, Option.bind_some, toOption_run_bind, ih]
      cases hds : ds.mapM inlined with
      | none => simp [hd, hds]
      | some ds' =>
        cases hns : (Node.inlineAll 0 ns s).toOption with
        | none => simp [hd, hds]
        | some r => simp [hd, hds, toOption_run_pure, locals]

theorem mapScopeAll_locals (f : Expr → Expr) (i : Nat) (ds : List Declaration) (ns : List Node) :
    Node.mapScopeAll f (locals i ds ++ ns) = locals i ds ++ Node.mapScopeAll f ns := by
  induction ds generalizing i with
  | nil => rfl
  | cons d ds ih => rw [locals, List.cons_append, Node.mapScopeAll, ih]; rfl

/-- Inlining goes into the closures first, and knows nothing of them afterwards. -/
theorem folded_enclose (d : Declaration) (ds : List Declaration) :
    (d.enclose ds).folded.toOption =
      (ds.mapM inlined).bind fun ds' =>
        d.folded.toOption.map fun r => (locals 0 ds' ++ r.1, r.2) := by
  simp only [folded, enclose, keepIterators_locals, toOption_run_bind, inlineAll_locals]
  cases ds.mapM inlined with
  | none => simp
  | some ds' => simp only [Option.bind_some, Option.map_eq_bind, Option.bind_assoc]

theorem modular_inlined : Modular inlined := by
  intro d ds
  rw [inlined, folded_enclose, inlined]
  cases ds.mapM inlined with
  | none => simp
  | some ds' =>
    cases d.folded.toOption with
    | none => rfl
    | some r => simp [enclose, mapScopeAll_locals]

end Declaration

/-! ## Nothing is shared before inlining -/

mutual

theorem Expr.sharedBound_of_plain {e : Expr} (h : e.plain) : e.sharedBound = 0 := by
  cases e with
  | call a f args => cases h
  | shared n e => cases h
  | binary a op l r =>
    simp only [Expr.plain, Bool.and_eq_true] at h
    simp [Expr.sharedBound, sharedBound_of_plain h.1, sharedBound_of_plain h.2]
  | unary a op e => exact sharedBound_of_plain (e := e) h
  | table a ks vs =>
    simp only [Expr.plain, Bool.and_eq_true] at h
    simp [Expr.sharedBound, sharedBoundAll_of_plain h.1, sharedBoundAll_of_plain h.2]
  | index a t k =>
    simp only [Expr.plain, Bool.and_eq_true] at h
    simp [Expr.sharedBound, sharedBound_of_plain h.1, sharedBound_of_plain h.2]
  | _ => rfl

theorem Expr.sharedBoundAll_of_plain {es : List Expr} (h : Expr.plainAll es) :
    Expr.sharedBoundAll es = 0 := by
  cases es with
  | nil => rfl
  | cons e es =>
    simp only [Expr.plainAll, Bool.and_eq_true] at h
    simp [Expr.sharedBoundAll, sharedBound_of_plain h.1, sharedBoundAll_of_plain h.2]

end

open HavokScript.Expr in
theorem Node.Flat.sharedBound {n : Node} (h : n.Flat) : n.sharedBound = 0 := by
  cases h with
  | assign hts hvs => simp [Node.sharedBound, sharedBoundAll_of_plain hts, sharedBoundAll_of_plain hvs]
  | vararg hts => simp [Node.sharedBound, sharedBoundAll_of_plain hts, Expr.sharedBoundAll, Expr.sharedBound]
  | call hts hf hargs =>
    simp [Node.sharedBound, sharedBoundAll_of_plain hts, Expr.sharedBoundAll, Expr.sharedBound,
      sharedBound_of_plain hf, sharedBoundAll_of_plain hargs]
  | returns hvs => exact sharedBoundAll_of_plain hvs
  | tailCall hf hargs =>
    simp [Node.sharedBound, Expr.sharedBoundAll, Expr.sharedBound,
      sharedBound_of_plain hf, sharedBoundAll_of_plain hargs]
  | test hc | forLoop hc => exact sharedBound_of_plain hc
  | forPrep hx hy hz =>
    simp [Node.sharedBound, sharedBound_of_plain hx, sharedBound_of_plain hy, sharedBound_of_plain hz]
  | _ => rfl

theorem Node.sharedBoundAll_eq_zero {ns : List Node} :
    Node.sharedBoundAll ns = 0 ↔ ∀ n ∈ ns, n.sharedBound = 0 := by
  induction ns with
  | nil => simp [Node.sharedBoundAll]
  | cons n ns ih => simp [Node.sharedBoundAll, ih]

theorem Node.Recovered.sharedBound {n : Node} (h : n.Recovered) : n.sharedBound = 0 := by
  induction h with
  | flat h => exact h.sharedBound
  | @region a b offset inner _ _ _ ih =>
    refine Node.sharedBoundAll_eq_zero.mpr fun n hn => ?_
    rcases List.mem_append.mp hn with hn | hn
    · exact ih n hn
    · rw [List.mem_singleton.mp hn]
      rfl
  | numeric hinit hlimit hstep _ _ ih =>
    simp [Node.sharedBound, hinit.sharedBound, hlimit.sharedBound, hstep.sharedBound,
      Node.sharedBoundAll_eq_zero.mpr ih]

/-- Nothing is shared in the declaration. -/
def Declaration.Unshared (d : Declaration) : Prop := Node.sharedBoundAll d.body = 0

theorem Declaration.unshared_of_recovered {d : Declaration} (h : ∀ n ∈ d.body, n.Recovered) :
    d.Unshared :=
  Node.sharedBoundAll_eq_zero.mpr fun n hn => (h n hn).sharedBound

theorem Declaration.Unshared.enclose {d : Declaration} {ds : List Declaration} (h : d.Unshared)
    (hds : ∀ d ∈ ds, d.Unshared) : (d.enclose ds).Unshared := by
  suffices hlocals : ∀ i, ∀ n ∈ locals i ds, n.sharedBound = 0 by
    refine Node.sharedBoundAll_eq_zero.mpr fun n hn => ?_
    exact (List.mem_append.mp hn).elim (hlocals 0 n) (Node.sharedBoundAll_eq_zero.mp h n)
  induction ds with
  | nil => exact fun i n hn => absurd hn List.not_mem_nil
  | cons d ds ih =>
    rw [List.forall_mem_cons] at hds
    intro i n hn
    rcases List.mem_cons.mp hn with rfl | hn
    · exact (Nat.zero_max _).trans hds.1
    · exact ih hds.2 (i + 1) n hn

theorem Prototype.unshared_assembled {alone : Code → Option Declaration}
    (h : ∀ c d, alone c = some d → d.Unshared) {p : Prototype} {d : Declaration}
    (hd : p.assembled alone = some d) : d.Unshared := by
  refine assembled_induction (Q := fun _ => True) (P := fun _ d => d.Unshared) ?_ p
    (fun _ _ => trivial) hd
  intro p d ds hd _ hds
  refine (h p.toCode d hd).enclose ?_
  generalize p.inner = ps at hds
  induction hds with
  | nil => exact fun e he => absurd he List.not_mem_nil
  | cons hfirst _ ih => exact List.forall_mem_cons.mpr ⟨hfirst, ih⟩

/-! ## The passes over a file -/

theorem Node.toOption_countUses (n : Node) :
    n.countUses.toOption = (n.tally Tally.empty).toOption.map fun r => n.addReads r.2.reads := by
  unfold countUses
  cases n.tally Tally.empty <;> rfl

theorem Node.toOption_inlined {n : Node} (h : n.sharedBound = 0) :
    n.inlined.toOption =
      (n.inline 0 (Scope.start 0)).toOption.map fun r => r.1.1.mapScope r.2.settle := by
  unfold inlined
  rw [h]
  cases n.inline 0 (Scope.start 0) <;> rfl

namespace Declaration

theorem toNode_inj {d d' : Declaration} (h : d.toNode = d'.toNode) : d = d' := by
  cases d
  cases d'
  simp only [toNode, Node.function.injEq, Node.block.injEq] at h
  obtain ⟨rfl, -, rfl, rfl, -, rfl⟩ := h
  rfl

theorem countUses_toNode (d : Declaration) : d.toNode.countUses.toOption = d.counted.map toNode := by
  have htally : (d.toNode.tally Tally.empty).toOption = d.counted.map fun _ => ((), Tally.empty) :=
    d.tally_nested Tally.empty
  rw [Node.toOption_countUses, htally]
  cases hd : d.counted with
  | none => rfl
  | some d' =>
    obtain ⟨r, hrun, rfl⟩ := Option.map_eq_some_iff.mp hd
    simp [toNode, Node.addReads, readsOf_eq hrun]

theorem countUses_toFile (d : Declaration) :
    d.toFile.countUses.toOption = d.counted.map toFile := by
  have htally : (d.toFile.tally Tally.empty).toOption =
      d.counted.map fun _ => ((), Tally.empty) := by
    change ((Tally.nested d.parameters (Node.block d.address d.body).tally >>= fun _ =>
      Node.tallyAll []) Tally.empty).toOption = _
    rw [toOption_run_bind, tally_nested]
    cases d.counted <;> rfl
  rw [Node.toOption_countUses, htally]
  cases hd : d.counted with
  | none => rfl
  | some d' =>
    obtain ⟨r, hrun, rfl⟩ := Option.map_eq_some_iff.mp hd
    simp [toFile, toNode, Node.addReads, Node.addReadsAll, readsOf_eq hrun]

theorem inlined_toNode {d : Declaration} (h : d.Unshared) :
    d.toNode.inlined.toOption = d.inlined.map toNode := by
  have hbound : d.toNode.sharedBound = 0 := (Nat.zero_max _).trans h
  rw [Node.toOption_inlined hbound, inline_toNode]
  cases d.inlined <;> rfl

theorem inlined_toFile {d : Declaration} (h : d.Unshared) :
    d.toFile.inlined.toOption = d.inlined.map toFile := by
  have hbound : d.toFile.sharedBound = 0 := by
    change max (max 0 (Node.sharedBoundAll d.body)) 0 = 0
    rw [Nat.max_zero, Nat.zero_max, h]
  have hinline : (d.toFile.inline 0 (Scope.start 0)).toOption =
      d.inlined.map fun d' => ((d'.toFile, false), Scope.start 0) := by
    simp only [toFile, Node.inline, Node.inlineAll, toOption_run_bind, inline_toNode]
    cases hd : d.inlined with
    | none => rfl
    | some d' =>
      obtain ⟨r, -, rfl⟩ := Option.map_eq_some_iff.mp hd
      rfl
  rw [Node.toOption_inlined hbound, hinline]
  cases d.inlined <;> rfl

end Declaration

/-- A function alone, with the passes run over it. -/
def Code.alone (o : Options) (c : Code) : Option Declaration :=
  if o.inlined then
    ((c.declaration o).toOption.bind Declaration.counted).bind Declaration.inlined
  else (c.declaration o).toOption

mutual

theorem Prototype.declaration_assembled (o : Options) (p : Prototype) :
    (p.declaration o).toOption = p.assembled fun c => (c.declaration o).toOption := by
  obtain ⟨code, closures⟩ := p
  cases closures with
  | none => rfl
  | some ps =>
    simp only [Prototype.declaration, toOption_bind, Prototype.locals_assembled o 0 ps,
      Prototype.assembled]
    cases (code.declaration o).toOption with
    | none => rfl
    | some d => cases Prototype.assembledAll (fun c => (c.declaration o).toOption) ps <;> rfl

theorem Prototype.locals_assembled (o : Options) (i : Nat) (ps : List Prototype) :
    (Prototype.locals o i ps).toOption =
      (Prototype.assembledAll (fun c => (c.declaration o).toOption) ps).map
        (Declaration.locals i) := by
  cases ps with
  | nil => rfl
  | cons p ps =>
    simp only [Prototype.locals, toOption_bind, Prototype.declaration_assembled o p,
      Prototype.locals_assembled o (i + 1) ps, Prototype.assembledAll]
    cases p.assembled fun c => (c.declaration o).toOption with
    | none => rfl
    | some d => cases Prototype.assembledAll (fun c => (c.declaration o).toOption) ps <;> rfl

end

theorem Code.declaration_recovered {o : Options} (h : o.stages = []) {c : Code} {d : Declaration}
    (hd : (c.declaration o).toOption = some d) : ∀ n ∈ d.body, n.Recovered := by
  rw [Code.declaration, toOption_bind] at hd
  obtain ⟨d', hlower, hd⟩ := Option.bind_eq_some_iff.mp hd
  have hflat := c.lower_flat (ok_of_toOption hlower)
  split at hd
  · rw [h, toOption_bind] at hd
    obtain ⟨body, hrecover, hd⟩ := Option.bind_eq_some_iff.mp hd
    cases hd
    exact (Loops.recover_recovered hflat (ok_of_toOption hrecover)).1
  · cases hd
    exact fun n hn => .flat (hflat n hn)

theorem Code.counted_recovered {o : Options} (h : o.stages = []) {c : Code} {d : Declaration}
    (hd : ((c.declaration o).toOption.bind Declaration.counted) = some d) :
    ∀ n ∈ d.body, n.Recovered := by
  obtain ⟨d', hd', hd⟩ := Option.bind_eq_some_iff.mp hd
  obtain ⟨r, -, rfl⟩ := Option.map_eq_some_iff.mp hd
  exact forall_addReadsAll fun n hn => (c.declaration_recovered h hd' n hn).addReads r.2.reads

/-- What a function is alone: it was lowered, its loops were perhaps recovered, and it was perhaps
inlined. -/
theorem Code.alone_passes {o : Options} (h : o.stages = []) {c : Code} {d : Declaration}
    (hd : c.alone o = some d) :
    ∃ l out, c.lower = .ok l ∧ (out = l.body ∨ o.structured ∧ Loops.recover l.body = .ok out) ∧
      (o.inlined = false ∧ d = { l with body := out } ∨
        o.inlined ∧ ∃ counted, ({ l with body := out } : Declaration).toNode.countUses = .ok counted ∧
          counted.inlined = .ok d.toNode) := by
  have hdeclared : ∀ {d : Declaration}, (c.declaration o).toOption = some d →
      ∃ l out, c.lower = .ok l ∧ (out = l.body ∨ o.structured ∧ Loops.recover l.body = .ok out) ∧
        d = { l with body := out } := by
    intro d hd
    rw [Code.declaration, toOption_bind] at hd
    obtain ⟨l, hlower, hd⟩ := Option.bind_eq_some_iff.mp hd
    split_ifs at hd with hstructured
    · rw [h, toOption_bind] at hd
      obtain ⟨body, hrecover, hd⟩ := Option.bind_eq_some_iff.mp hd
      cases hd
      exact ⟨l, body, ok_of_toOption hlower, .inr ⟨hstructured, ok_of_toOption hrecover⟩, rfl⟩
    · cases hd
      exact ⟨d, d.body, ok_of_toOption hlower, .inl rfl, rfl⟩
  unfold Code.alone at hd
  split_ifs at hd with hinlined
  · obtain ⟨counted, hcounted, hinline⟩ := Option.bind_eq_some_iff.mp hd
    have hunshared := Declaration.unshared_of_recovered (c.counted_recovered h hcounted)
    obtain ⟨declared, hdeclaration, hcounted⟩ := Option.bind_eq_some_iff.mp hcounted
    obtain ⟨l, out, hlower, hout, rfl⟩ := hdeclared hdeclaration
    refine ⟨l, out, hlower, hout, .inr ⟨hinlined, counted.toNode, ok_of_toOption ?_, ok_of_toOption ?_⟩⟩
    · rw [Declaration.countUses_toNode, hcounted]
      rfl
    · rw [Declaration.inlined_toNode hunshared, hinline]
      rfl
  · obtain ⟨l, out, hlower, hout, rfl⟩ := hdeclared hd
    exact ⟨l, out, hlower, hout, .inl ⟨by simpa using hinlined, rfl⟩⟩

theorem ChunkFile.decompile_assembled {o : Options} (h : o.stages = []) (f : ChunkFile)
    (p : Prototype) :
    (({ f with root := some p } : ChunkFile).decompile o).toOption =
      (p.assembled (Code.alone o)).map Declaration.toFile := by
  have hdeclared := p.declaration_assembled o
  change (p.declaration o >>= fun d => if o.inlined then d.toFile.countUses >>= Node.inlined
    else pure d.toFile).toOption = _
  rw [toOption_bind, hdeclared]
  cases ho : o.inlined with
  | false =>
    have halone : Code.alone o = fun c => (c.declaration o).toOption := by
      funext c
      simp [Code.alone, ho]
    rw [halone]
    cases p.assembled fun c => (c.declaration o).toOption <;> rfl
  | true =>
    have halone : Code.alone o = fun c =>
        ((c.declaration o).toOption.bind Declaration.counted).bind Declaration.inlined := by
      funext c
      simp [Code.alone, ho]
    rw [halone, ← Prototype.assembled_bind Declaration.modular_inlined,
      ← Prototype.assembled_bind Declaration.modular_counted]
    cases hp : p.assembled fun c => (c.declaration o).toOption with
    | none => rfl
    | some d =>
      simp only [Option.bind_some, if_true, toOption_bind, Declaration.countUses_toFile]
      cases hd : d.counted with
      | none => rfl
      | some d' =>
        have hcounted := Prototype.assembled_bind Declaration.modular_counted
          (fun c => (c.declaration o).toOption) p
        rw [hp, Option.bind_some, hd] at hcounted
        exact Declaration.inlined_toFile
          (Prototype.unshared_assembled (fun _ _ hd => Declaration.unshared_of_recovered
            (Code.counted_recovered h hd)) hcounted.symm)

end HavokScript
