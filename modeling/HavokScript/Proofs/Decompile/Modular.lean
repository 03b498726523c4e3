import HavokScript.Chunk.Assemble
import HavokScript.Proofs.Decompile.Closures
import HavokScript.Proofs.Decompile.LoopBounds

/-!
# Functions are decompiled one by one

A file decompiles exactly if each of its functions does alone, and then its tree is put together from
what they are alone (`ChunkFile.decompile_modular`). No pass makes a function, so the functions in the
tree are the declarations of the prototypes, in the order of the walk.
-/

namespace HavokScript

/-! ## The functions of a tree -/

theorem Node.functions_of_isSimple {n : Node} (h : n.isSimple) : n.functions = [] := by
  refine Node.found_of_isSimple (fun _ => rfl) h ?_
  cases n <;> first | rfl | cases h

theorem Node.Recovered.functions {n : Node} (h : n.Recovered) : n.functions = [] := by
  induction h with
  | flat h => exact Node.functions_of_isSimple h.isSimple
  | @region a b offset inner _ _ _ ih =>
    simp [Node.functionsAll_eq_nil.mpr ih, Node.functions_of_isSimple (n := .jump b offset) rfl]
  | numeric hinit hlimit hstep _ _ ih =>
    simp [Node.functions_of_isSimple hinit.isSimple, Node.functions_of_isSimple hlimit.isSimple,
      Node.functions_of_isSimple hstep.isSimple, Node.functionsAll_eq_nil.mpr ih]

theorem Scope.assign_functions (depth : Nat) (a : Int) (targets values : List Expr) (kept : Bool) :
    Gives (fun r => r.1.functions = []) (fun _ => True) (Scope.assign depth a targets values kept) := by
  refine (gives_any _).bind fun vs _ => (gives_any _).bind fun ts _ => ?_
  have hassign : ∀ kept, (Node.assign a ts vs kept).functions = [] := fun _ =>
    Node.functions_of_isSimple rfl
  split
  · exact (gives_any _).bind fun _ _ => .pure (hassign _)
  · split
    · exact (gives_any _).bind fun _ _ => .pure (hassign _)
    · split
      · exact (gives_any _).bind fun _ _ => (gives_any _).bind fun _ _ => .pure (hassign _)
      · exact (gives_any _).bind fun _ _ => .pure (hassign _)

theorem Node.functions_ofExpr (e : Expr) : (Node.ofExpr e).functions = [] := by
  cases e <;> exact Node.functions_of_isSimple rfl

theorem Scope.bound_functions (depth : Nat) {n : Node} (h : n.functions = []) :
    Gives (fun m => m.functions = []) (fun _ => True) (Scope.bound depth n) := by
  unfold Scope.bound
  split
  · refine (Scope.assign_functions _ _ _ _ _).bind fun (m, value) hm => ?_
    cases value with
    | some v => exact .pure (Node.functions_ofExpr v)
    | none => exact .pure hm
  · exact (gives_any _).bind fun e _ => .pure (Node.functions_ofExpr e)
  · exact .pure h

mutual

/-- Inlining makes no functions. -/
theorem Node.inline_functions (bound : Nat) {n : Node} (h : n.functions = []) :
    Gives (fun r => r.1.functions = []) (fun _ => True) (n.inline bound) := by
  cases n with
  | missing | expr | jump | arm => exact .pure h
  | chunk a body =>
    rw [Node.functions_chunk] at h
    refine (gives_any _).bind fun _ _ => (Node.inlineAll_functions bound h).bind fun ns hns => ?_
    exact .pure ((Node.functions_chunk _ _).trans hns)
  | block a body =>
    rw [Node.functions_block] at h
    refine (gives_any _).bind fun _ _ => (Node.inlineAll_functions bound h).bind fun ns hns => ?_
    exact .pure ((Node.functions_block _ _).trans hns)
  | scope a body =>
    rw [Node.functions_scope] at h
    exact (Node.inline_functions bound h).bind fun r hr =>
      .pure ((Node.functions_scope _ _).trans hr)
  | function a name params vararg body => simp at h
  | localFunction a name params vararg body => simp at h
  | whileLoop a c body =>
    rw [Node.functions_whileLoop] at h
    refine (gives_any _).bind fun _ _ => (Node.inline_functions bound h).bind fun r hr => ?_
    exact .pure ((Node.functions_whileLoop _ _ _).trans hr)
  | repeatLoop a body c =>
    rw [Node.functions_repeatLoop] at h
    refine (Node.inline_functions bound h).bind fun r hr => (gives_any _).bind fun _ _ => ?_
    exact .pure ((Node.functions_repeatLoop _ _ _).trans hr)
  | branch a c body arms other =>
    rw [Node.functions_branch, List.append_eq_nil_iff, List.append_eq_nil_iff] at h
    refine (gives_any _).bind fun _ _ => ?_
    refine (Node.inline_functions bound h.1.1).bind fun r hr => ?_
    refine (Node.inlineArms_functions bound h.1.2).bind fun as has => ?_
    exact (Node.inline_functions bound h.2).bind fun r' hr' => .pure (by simp [hr, has, hr'])
  | numericFor a v init limit step body =>
    simp only [Node.functions_numericFor, List.append_eq_nil_iff] at h
    obtain ⟨⟨⟨hinit, hlimit⟩, hstep⟩, hbody⟩ := h
    refine (Scope.bound_functions bound hinit).bind fun _ hinit => ?_
    refine (Scope.bound_functions bound hlimit).bind fun _ hlimit => ?_
    refine (Scope.bound_functions bound hstep).bind fun _ hstep => (gives_any _).bind fun _ _ => ?_
    exact (Node.inline_functions bound hbody).bind fun r hr =>
      .pure (by simp [hinit, hlimit, hstep, hr])
  | genericFor a vars es body =>
    rw [Node.functions_genericFor] at h
    refine (gives_any _).bind fun _ _ => (gives_any _).bind fun _ _ => ?_
    exact (Node.inline_functions bound h).bind fun r hr =>
      .pure ((Node.functions_genericFor _ _ _ _).trans hr)
  | assign a ts vs kept =>
    exact (Scope.assign_functions _ _ _ _ _).bind fun r hr => .pure hr
  | locals a ts vs =>
    exact (gives_any _).bind fun _ _ => (gives_any _).bind fun _ _ =>
      .pure (Node.functions_of_isSimple rfl)
  | returns | test | forLoop | tForLoop =>
    exact (gives_any _).bind fun _ _ => .pure (Node.functions_of_isSimple rfl)
  | forPrep a x y z v =>
    exact (gives_any _).bind fun _ _ => (gives_any _).bind fun _ _ => (gives_any _).bind fun _ _ =>
      (gives_any _).bind fun _ _ => .pure (Node.functions_of_isSimple rfl)

theorem Node.inlineAll_functions (bound : Nat) {ns : List Node} (h : Node.functionsAll ns = []) :
    Gives (fun ms => Node.functionsAll ms = []) (fun _ => True) (Node.inlineAll bound ns) := by
  cases ns with
  | nil => exact .pure rfl
  | cons n ns =>
    rw [Node.functionsAll_cons, List.append_eq_nil_iff] at h
    refine (Node.inline_functions bound h.1).bind fun r hr => ?_
    refine (Node.inlineAll_functions bound h.2).bind fun ms hms => .pure ?_
    split
    · exact hms
    · rw [Node.functionsAll_cons, hr, hms, List.append_nil]

theorem Node.inlineArms_functions (bound : Nat) {ns : List Node}
    (h : Node.functionsAll ns = []) :
    Gives (fun ms => Node.functionsAll ms = []) (fun _ => True) (Node.inlineArms bound ns) := by
  cases ns with
  | nil => exact .pure rfl
  | cons n ns =>
    rw [Node.functionsAll_cons, List.append_eq_nil_iff] at h
    unfold Node.inlineArms
    split
    · rename_i heq
      cases heq
    · rename_i heq
      cases heq
      rw [Node.functions_arm] at h
      refine (gives_any _).bind fun _ _ => (Node.inline_functions bound h.1).bind fun r hr => ?_
      exact (Node.inlineArms_functions bound h.2).bind fun ms hms => .pure (by simp [hr, hms])
    · rename_i heq
      cases heq
      exact (Node.inlineArms_functions bound h.2).bind fun ms hms => .pure (by simp [h.1, hms])

end

mutual

/-- A function is no part of the scope around it. -/
theorem Node.functions_mapScope (f : Expr → Expr) (n : Node) :
    (n.mapScope f).functions = n.functions := by
  cases n with
  | chunk a body | block a body => simp [Node.mapScope, Node.functionsAll_mapScopeAll f body]
  | scope a body | whileLoop a c body | repeatLoop a body c | arm a c body
  | genericFor a vars es body => simp [Node.mapScope, Node.functions_mapScope f body]
  | branch a c body arms other =>
    simp [Node.mapScope, Node.functions_mapScope f body, Node.functionsAll_mapScopeAll f arms,
      Node.functions_mapScope f other]
  | numericFor a v init limit step body =>
    simp [Node.mapScope, Node.functions_mapScope f init, Node.functions_mapScope f limit,
      Node.functions_mapScope f step, Node.functions_mapScope f body]
  | missing | function | localFunction | jump | tForLoop => rfl
  | expr e => rw [Node.mapScope, Node.functions_expr, Node.functions_expr]
  | locals | assign | returns | test | forPrep | forLoop =>
    exact (Node.functions_of_isSimple rfl).trans (Node.functions_of_isSimple rfl).symm

theorem Node.functionsAll_mapScopeAll (f : Expr → Expr) (ns : List Node) :
    Node.functionsAll (Node.mapScopeAll f ns) = Node.functionsAll ns := by
  cases ns with
  | nil => rfl
  | cons n ns =>
    rw [Node.mapScopeAll, Node.functionsAll_cons, Node.functions_mapScope f n,
      Node.functionsAll_mapScopeAll f ns, Node.functionsAll_cons]

end

theorem Declaration.functions_inlined {d d' : Declaration} (h : d.inlined = some d')
    (hd : Node.functionsAll d.body = []) : Node.functionsAll d'.body = [] := by
  obtain ⟨⟨body, s⟩, hrun, rfl⟩ := Option.map_eq_some_iff.mp h
  have hgives : Gives (fun ms => Node.functionsAll ms = []) (fun _ => True)
      (do Scope.keepAll d.parameters; Scope.keepIterators d.body; Node.inlineAll 0 d.body) :=
    (gives_any _).bind fun _ _ => (gives_any _).bind fun _ _ => Node.inlineAll_functions 0 hd
  exact (Node.functionsAll_mapScopeAll _ _).trans (hgives.of_ok (ok_of_toOption hrun))

/-- A function alone has no function in it. -/
theorem Code.functions_alone {o : Options} (h : o.stages = []) {c : Code} {d : Declaration}
    (hd : c.alone o = some d) : Node.functionsAll d.body = [] := by
  unfold Code.alone at hd
  split at hd
  · obtain ⟨d', hcounted, hd⟩ := Option.bind_eq_some_iff.mp hd
    refine Declaration.functions_inlined hd (Node.functionsAll_eq_nil.mpr fun n hn => ?_)
    exact (c.counted_recovered h hcounted n hn).functions
  · exact Node.functionsAll_eq_nil.mpr fun n hn => (c.declaration_recovered h hd n hn).functions

/-- The function as a node, with its closures in front of what it is alone. -/
def Node.declaration? : Node → Option Declaration
  | .function a _ params vararg (.block _ body) => some ⟨a, params, vararg, body⟩
  | .localFunction a _ params vararg (.block _ body) => some ⟨a, params, vararg, body⟩
  | _ => none

/-- The node declares the function of a prototype: it is what the function is alone, with its closures
declared in front of its statements. -/
def Prototype.DeclaredBy (alone : Code → Option Declaration) (p : Prototype) (n : Node) : Prop :=
  ∃ d ds, alone p.toCode = some d ∧ Prototype.assembledAll alone p.inner = some ds ∧
    n.declaration? = some (d.enclose ds)

mutual

theorem Prototype.functions_assembled {alone : Code → Option Declaration}
    (halone : ∀ c d, alone c = some d → Node.functionsAll d.body = []) (p : Prototype)
    {d : Declaration} (hd : p.assembled alone = some d) {n : Node}
    (hn : n.declaration? = some d) (hbody : n.functions = n :: Node.functionsAll d.body) :
    List.Forall₂ (Prototype.DeclaredBy alone) p.walk n.functions := by
  obtain ⟨code, closures⟩ := p
  rw [hbody]
  cases closures with
  | none =>
    rw [halone code d hd]
    exact .cons ⟨d, [], hd, rfl, hn⟩ .nil
  | some ps =>
    obtain ⟨d', hd', hd⟩ := Option.bind_eq_some_iff.mp hd
    obtain ⟨ds, hds, hd⟩ := Option.bind_eq_some_iff.mp hd
    cases hd
    refine .cons ⟨d', ds, hd', hds, hn⟩ ?_
    rw [Declaration.enclose, Node.functionsAll_append, halone code d' hd', List.append_nil]
    exact Prototype.functionsAll_assembledAll halone ps hds 0

theorem Prototype.functionsAll_assembledAll {alone : Code → Option Declaration}
    (halone : ∀ c d, alone c = some d → Node.functionsAll d.body = []) (ps : List Prototype)
    {ds : List Declaration} (hds : Prototype.assembledAll alone ps = some ds) (i : Nat) :
    List.Forall₂ (Prototype.DeclaredBy alone) (Prototype.walkAll ps)
      (Node.functionsAll (Declaration.locals i ds)) := by
  cases ps with
  | nil =>
    cases hds
    exact .nil
  | cons p ps =>
    obtain ⟨d, hd, hds⟩ := Option.bind_eq_some_iff.mp hds
    obtain ⟨ds, hds', hds⟩ := Option.bind_eq_some_iff.mp hds
    cases hds
    rw [Declaration.locals, Node.functionsAll_cons, Prototype.walkAll]
    refine List.rel_append (Prototype.functions_assembled halone p hd rfl ?_)
      (Prototype.functionsAll_assembledAll halone ps hds' (i + 1))
    rw [Declaration.toLocal, Node.functions_localFunction, Node.functions_block]

end

theorem isSome_pair {α β γ : Type} (x : Option α) (y : Option β) (f : α → β → γ) :
    (do let a ← x; let b ← y; return f a b).isSome ↔ x.isSome ∧ y.isSome := by
  cases x <;> cases y <;> simp

mutual

theorem Prototype.isSome_assembled (alone : Code → Option Declaration) (p : Prototype) :
    (p.assembled alone).isSome ↔ ∀ q ∈ p.walk, (alone q.toCode).isSome := by
  obtain ⟨code, closures⟩ := p
  cases closures with
  | none => simp [Prototype.assembled, Prototype.walk]
  | some ps =>
    rw [Prototype.assembled, isSome_pair, Prototype.isSome_assembledAll alone ps, Prototype.walk,
      List.forall_mem_cons]

theorem Prototype.isSome_assembledAll (alone : Code → Option Declaration) (ps : List Prototype) :
    (Prototype.assembledAll alone ps).isSome ↔
      ∀ q ∈ Prototype.walkAll ps, (alone q.toCode).isSome := by
  cases ps with
  | nil => simp [Prototype.assembledAll, Prototype.walkAll]
  | cons p ps =>
    rw [Prototype.assembledAll, isSome_pair, Prototype.isSome_assembled alone p,
      Prototype.isSome_assembledAll alone ps, Prototype.walkAll, List.forall_mem_append]

end

/-- The file with another main function. -/
def ChunkFile.withRoot (f : ChunkFile) (p : Prototype) : ChunkFile := { f with root := some p }

/-- What a function decompiles to alone, without its closures. -/
def ChunkFile.alone (f : ChunkFile) (o : Options) (c : Code) : Option Declaration :=
  ((f.withRoot ⟨c, none⟩).decompile o).toOption.bind fun
    | .chunk _ [n] => n.declaration?
    | _ => none

theorem ChunkFile.alone_eq {o : Options} (h : o.stages = []) (f : ChunkFile) :
    f.alone o = Code.alone o := by
  funext c
  have htree := f.decompile_assembled h ⟨c, none⟩
  change ((f.withRoot ⟨c, none⟩).decompile o).toOption = (c.alone o).map Declaration.toFile at htree
  rw [ChunkFile.alone, htree]
  cases c.alone o <;> rfl

/-- **Functions are decompiled one by one.** A file without stages decompiles exactly if each of its
functions does alone, with its closures taken away. Then the tree is put together from what the
functions are alone: each has the statements, counts and parameters that it has alone, and in front of
its statements the declarations of its closures in their order. The functions in the tree, each before
those inside, are those of the walk. -/
theorem ChunkFile.decompile_modular (structured inlined : Bool) (f : ChunkFile) (p : Prototype) :
    let o : Options := ⟨structured, inlined, []⟩
    ((∃ tree, (f.withRoot p).decompile o = .ok tree) ↔
      ∀ q ∈ p.walk, ∃ tree, (f.withRoot ⟨q.toCode, none⟩).decompile o = .ok tree) ∧
    ∀ tree, (f.withRoot p).decompile o = .ok tree →
      (∃ d, p.assembled (f.alone o) = some d ∧ tree = d.toFile) ∧
      List.Forall₂ (Prototype.DeclaredBy (f.alone o)) p.walk tree.functions := by
  intro o
  have hdecompile : ∀ p, ((f.withRoot p).decompile o).toOption =
      (p.assembled (f.alone o)).map Declaration.toFile := by
    intro p
    rw [f.alone_eq rfl]
    exact f.decompile_assembled rfl p
  have hok : ∀ p, (∃ tree, (f.withRoot p).decompile o = .ok tree) ↔
      (p.assembled (f.alone o)).isSome := by
    intro p
    rw [← Option.isSome_map, ← hdecompile p]
    cases (f.withRoot p).decompile o <;> simp [Except.toOption]
  refine ⟨?_, fun tree htree => ?_⟩
  · rw [hok, Prototype.isSome_assembled]
    exact forall₂_congr fun q hq => (hok ⟨q.toCode, none⟩).symm
  · have hp := hdecompile p
    rw [htree] at hp
    obtain ⟨d, hd, rfl⟩ := Option.map_eq_some_iff.mp hp.symm
    refine ⟨⟨d, hd, rfl⟩, ?_⟩
    have hfunctions : d.toFile.functions = d.toNode.functions := by
      simp [Declaration.toFile]
    rw [hfunctions]
    refine Prototype.functions_assembled (fun c d hd => ?_) p hd rfl ?_
    · rw [f.alone_eq rfl] at hd
      exact Code.functions_alone rfl hd
    · rw [Declaration.toNode, Node.functions_function, Node.functions_block]

/-- A file with three functions, one inside another, that use the same registers. -/
theorem ChunkFile.decompile_modular_nested :
    ∃ (f : ChunkFile) (p : Prototype) (tree : Node),
      (f.withRoot p).decompile .standard = .ok tree ∧ p.walk.length = 3 ∧
      (∃ d, p.assembled (f.alone .standard) = some d ∧ tree = d.toFile) ∧
      List.Forall₂ (Prototype.DeclaredBy (f.alone .standard)) p.walk tree.functions := by
  let code := Code.ofWords 1 [Word.ofABC 7 1 0 0, Word.ofABC 9 1 2 0]
  let p : Prototype := ⟨code, some [⟨code, some [⟨code, none⟩]⟩]⟩
  let f : ChunkFile := ⟨.standard, none, none⟩
  have hrun : ((f.withRoot p).decompile .standard).isOk := by decide +kernel
  cases htree : (f.withRoot p).decompile .standard with
  | error e =>
    rw [htree] at hrun
    cases hrun
  | ok tree => exact ⟨f, p, tree, htree, rfl, (ChunkFile.decompile_modular true true f p).2 tree htree⟩

end HavokScript
