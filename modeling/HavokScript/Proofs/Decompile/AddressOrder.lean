import HavokScript.Proofs.Decompile.LoopSpans
import HavokScript.Proofs.Decompile.Runs

/-!
# The order of addresses

The statements of a lowered function stand in the order of their addresses, and recovery keeps them so at
every depth. A loop has the address of the first statement it was made of, and all that is inside stands
between this address and the statement behind the loop (`Loops.Arranged`).

A loop that recovery makes gets the address of the first of the statements it takes, be that a loop
itself, so every list keeps the address of its head (`Loops.recover_headed`). What is inside a loop are
addresses of statements that it unrolls to (`Loops.Unrolls.addresses_subset`), and these are a part of the
lowered list, which is in order.
-/

namespace HavokScript

theorem Node.Flat.address_mem {n : Node} (h : n.Flat) : n.address ∈ n.addresses := by
  cases h <;> simp [Node.address]

/-- The statements of an instruction are at its address, with all that is in them. -/
theorem Instruction.Run.address_eq {i : Instruction} {ns : List Node} (h : i.Run ns) :
    ∀ n ∈ ns, n.address = i.address ∧ ∀ a ∈ n.addresses, a = i.address := fun n hn =>
  ⟨h.address n hn _ (h.flat n hn).address_mem, h.address n hn⟩

theorem Instruction.exists_run {is : List Instruction} {runs : List (List Node)}
    (h : List.Forall₂ Instruction.Run is runs) {run : List Node} (hrun : run ∈ runs) :
    ∃ i, Instruction.Run i run := by
  induction h with
  | nil => cases hrun
  | @cons i _ _ _ hi _ ih =>
    rcases List.mem_cons.mp hrun with rfl | hrun
    · exact ⟨i, hi⟩
    · exact ih hrun

namespace Loops

/-! ## The addresses of loops -/

/-- A loop at any depth of the statement has the address of its first statement; a numeric loop and its
body have that of the first bound. -/
inductive Headed : Node → Prop
  | simple {n : Node} (hn : n.isSimple) : Headed n
  | region {s : Node} {body : List Node} (inside : ∀ n ∈ s :: body, Headed n) :
      Headed (.block s.address (s :: body))
  | numeric {v : Register} {init limit step : Node} {body : List Node}
      (inside : ∀ n ∈ body, Headed n) :
      Headed (.numericFor init.address v init limit step (.block init.address body))

/-- The address of the first statement, if there is one. -/
def headAddress? (ns : List Node) : Option Int := ns.head?.map Node.address

theorem headAddress?_splice {stmts : List Node} {first : Nat} (last : Nat) {s : Node}
    (hfirst : first < stmts.length) (hs : s.address = (nth stmts first).address) :
    headAddress? (splice stmts first last s) = headAddress? stmts := by
  cases stmts with
  | nil => exact absurd hfirst (Nat.not_lt_zero _)
  | cons n stmts =>
    cases first with
    | zero => exact congrArg some hs
    | succ first => rfl

theorem headAddress?_slice {stmts : List Node} {begins i : Nat} (hle : begins ≤ i)
    (hlt : i < stmts.length) :
    headAddress? (slice stmts begins i ++ [nth stmts i]) = some (nth stmts begins).address := by
  have hdrop := drop_eq_slice_append hle hlt
  rw [drop_eq_nth_cons (by omega)] at hdrop
  cases hslice : slice stmts begins i with
  | nil =>
    rw [hslice] at hdrop
    rw [(List.cons.inj hdrop).1]
    rfl
  | cons n ns =>
    rw [hslice] at hdrop
    rw [(List.cons.inj hdrop).1]
    rfl

theorem headAddress?_append (ms ns : List Node) :
    headAddress? (ms ++ ns) = (headAddress? ms).or (headAddress? ns) := by
  cases ms <;> rfl

theorem Headed.block {a : Int} {body : List Node} (h : headAddress? body = some a)
    (inside : ∀ n ∈ body, Headed n) : Headed (.block a body) := by
  cases body with
  | nil => cases h
  | cons s body =>
    cases h
    exact .region inside

/-- The loop that is made of a list has the address of its first statement, and the list with it that of
the list. -/
theorem close_headed {stmts body : List Node} {c : Closing} (hc : closing stmts = .ok (some c))
    (hbody : ∀ n ∈ body, Headed n) (hhead : headAddress? body = headAddress? c.inner) :
    Headed (c.close body) ∧ headAddress? (c.apply stmts body) = headAddress? stmts := by
  have hcloses := closing_closes stmts
  rw [hc] at hcloses
  cases hcloses with
  | @numeric i begins address offset v hend _ _ hle =>
    have hlt := (lastBackward?_some hend.last).1
    have hfirst : begins - 4 < stmts.length := by omega
    exact ⟨.numeric hbody, headAddress?_splice i hfirst rfl⟩
  | @region i begins address offset hend _ hle =>
    have hlt := (lastBackward?_some hend.last).1
    have hfirst : begins < stmts.length := by omega
    refine ⟨.block ?_ ?_, headAddress?_splice i hfirst rfl⟩
    · rw [headAddress?_append, hhead, ← hend.node]
      exact (headAddress?_append _ _).symm.trans (headAddress?_slice hle hlt)
    · exact List.forall_mem_append.mpr ⟨hbody, List.forall_mem_singleton.mpr (.simple rfl)⟩

/-- Recovery gives every loop the address of its first statement, and leaves the head of the list at its
address. -/
theorem recover_headed {stmts out : List Node} (hstmts : ∀ n ∈ stmts, Headed n)
    (h : recover stmts = .ok out) :
    (∀ n ∈ out, Headed n) ∧ headAddress? out = headAddress? stmts := by
  induction stmts using recover_induction generalizing out with
  | step stmts ih =>
    rw [recover_eq] at h
    cases hc : closing stmts with
    | error e =>
      rw [hc] at h
      cases h
    | ok found =>
      rw [hc] at h
      cases found with
      | none =>
        cases h
        exact ⟨hstmts, rfl⟩
      | some c =>
        obtain ⟨hinner, happly⟩ := ih c hc
        dsimp only at h
        cases hbody : recover c.inner with
        | error e =>
          rw [hbody] at h
          cases h
        | ok body =>
          rw [hbody] at h
          obtain ⟨hinside, hhead⟩ := hinner (fun n hn => hstmts n (mem_inner hc hn)) hbody
          obtain ⟨hmade, hkept⟩ := close_headed hc hinside hhead
          have hall : ∀ n ∈ c.apply stmts body, Headed n := by
            intro n hn
            rcases mem_apply hn with hn | rfl
            · exact hstmts n hn
            · exact hmade
          obtain ⟨hout, houthead⟩ := happly body hall h
          exact ⟨hout, houthead.trans hkept⟩

/-! ## What is inside loops -/

/-- The statement and all that is inside of it stand behind its start, and not behind the statements
that follow. -/
def Encloses (n : Node) (ns : List Node) : Prop :=
  ∀ a ∈ n.address :: n.addresses, n.address ≤ a ∧ ∀ s ∈ ns, a ≤ s.address

/-- A list unrolls as in `Unrolls`, each of its loops, at any depth, has the address of the first
statement that it unrolls to, and each statement encloses what is inside of it. The bounds of a numeric
loop stand in front of its body as if they were one list. -/
inductive Arranged : List Node → List Ends → List Node → Prop
  | nil : Arranged [] [] []
  | simple {n : Node} {ns flat : List Node} {ends : List Ends} (hn : n.isSimple)
      (encloses : Encloses n ns) (rest : Arranged ns ends flat) : Arranged (n :: ns) ends (n :: flat)
  | region {s : Node} {body ns inner flat : List Node} {ends ends' : List Ends}
      (inside : Arranged body ends (s :: inner)) (encloses : Encloses (.block s.address body) ns)
      (rest : Arranged ns ends' flat) :
      Arranged (.block s.address body :: ns) (ends ++ ends') (s :: (inner ++ flat))
  | numeric {init limit step : Node} {body ns inner flat : List Node} {e : Ends}
      {ends ends' : List Ends} (hinit : init.isSimple) (hlimit : limit.isSimple)
      (hstep : step.isSimple)
      (inside : Arranged (init :: limit :: step :: body) ends (init :: limit :: step :: inner))
      (encloses : Encloses
        (.numericFor init.address e.var init limit step (.block init.address body)) ns)
      (rest : Arranged ns ends' flat) :
      Arranged (.numericFor init.address e.var init limit step (.block init.address body) :: ns)
        (e :: (ends ++ ends')) (init :: limit :: step :: e.start :: (inner ++ e.finish :: flat))

/-- The statements of an arranged list stand in the order of their addresses. -/
theorem Arranged.pairwise {ns flat : List Node} {ends : List Ends} (h : Arranged ns ends flat) :
    ns.Pairwise (·.address ≤ ·.address) := by
  induction h with
  | nil => exact .nil
  | simple _ encloses _ ih => exact .cons (encloses _ List.mem_cons_self).2 ih
  | region _ encloses _ _ ih => exact .cons (encloses _ List.mem_cons_self).2 ih
  | numeric _ _ _ _ encloses _ _ ih => exact .cons (encloses _ List.mem_cons_self).2 ih

theorem Headed.of_block {a : Int} {body : List Node} (h : Headed (.block a body)) :
    headAddress? body = some a ∧ ∀ n ∈ body, Headed n := by
  cases h with
  | simple hn => cases hn
  | region inside => exact ⟨rfl, inside⟩

theorem Headed.of_numericFor {a b : Int} {v : Register} {init limit step : Node} {body : List Node}
    (h : Headed (.numericFor a v init limit step (.block b body))) :
    a = init.address ∧ b = init.address ∧ ∀ n ∈ body, Headed n := by
  cases h with
  | simple hn => cases hn
  | numeric inside => exact ⟨rfl, rfl, inside⟩

/-- The first statement of a list has the address of the first one that it unrolls to. -/
theorem Unrolls.headAddress? {ns flat : List Node} {ends : List Ends} (h : Unrolls ns ends flat)
    (hns : ∀ n ∈ ns, Headed n) : headAddress? ns = headAddress? flat := by
  induction h with
  | nil => rfl
  | simple => rfl
  | region _ _ ihinside _ =>
    rw [List.forall_mem_cons] at hns
    obtain ⟨hhead, hbody⟩ := hns.1.of_block
    rw [headAddress?_append, ← ihinside hbody, hhead]
    rfl
  | numeric =>
    rw [List.forall_mem_cons] at hns
    exact congrArg some hns.1.of_numericFor.1

theorem mem_map_of_headAddress? {ns : List Node} {a : Int} (h : Loops.headAddress? ns = some a) :
    a ∈ ns.map Node.address := by
  cases ns with
  | nil => cases h
  | cons n ns => exact List.mem_cons.mpr (.inl (Option.some.inj h).symm)

/-- What is inside a numeric loop is at the addresses of its bounds and its variable, or in its body. -/
theorem mem_numericFor {v : Register} {init limit step : Node} {body : List Node} {c : Int}
    (hinit : ∀ a ∈ init.addresses, a = init.address)
    (hlimit : ∀ a ∈ limit.addresses, a = limit.address)
    (hstep : ∀ a ∈ step.addresses, a = step.address)
    (hc : c ∈ init.address ::
      (Node.numericFor init.address v init limit step (.block init.address body)).addresses) :
    c ∈ [init.address, limit.address, step.address, v.address] ∨ c ∈ Node.addressesAll body := by
  simp only [Node.addresses_numericFor, Node.addresses_block, List.mem_cons, List.mem_append] at hc
  rcases hc with rfl | rfl | rfl | ((hc | hc) | hc) | rfl | hc
  · exact .inl (by simp)
  · exact .inl (by simp)
  · exact .inl (by simp)
  · exact .inl (by simp [hinit c hc])
  · exact .inl (by simp [hlimit c hc])
  · exact .inl (by simp [hstep c hc])
  · exact .inl (by simp)
  · exact .inr hc

section

variable {ns flat : List Node} {ends : List Ends}

/-- All addresses in a list, at any depth, are those of statements that it unrolls to. -/
theorem Unrolls.mem_address (h : Unrolls ns ends flat) (hns : ∀ n ∈ ns, Headed n)
    (hown : ∀ s ∈ flat, ∀ a ∈ s.addresses, a = s.address) :
    ∀ n ∈ ns, ∀ a ∈ n.address :: n.addresses, a ∈ flat.map Node.address := by
  induction h with
  | nil => exact nofun
  | simple _ _ ih =>
    rw [List.forall_mem_cons] at hns hown
    refine List.forall_mem_cons.mpr ⟨fun a ha => ?_, fun n hn a ha => ?_⟩
    · rcases List.mem_cons.mp ha with rfl | ha
      · exact List.mem_cons_self
      · exact List.mem_cons.mpr (.inl (hown.1 a ha))
    · exact List.mem_cons_of_mem _ (ih hns.2 hown.2 n hn a ha)
  | @region a body _ inner _ _ _ _ _ ihinside ihrest =>
    rw [List.forall_mem_cons] at hns
    rw [List.forall_mem_append] at hown
    obtain ⟨hhead, hbody⟩ := hns.1.of_block
    rw [List.map_append]
    refine List.forall_mem_cons.mpr ⟨fun b hb => List.mem_append_left _ ?_, fun n hn b hb =>
      List.mem_append_right _ (ihrest hns.2 hown.2 n hn b hb)⟩
    rw [Node.addresses_block, Node.address, List.mem_cons, List.mem_cons, or_self_left] at hb
    rcases hb with rfl | hb
    · rw [‹Unrolls body _ inner›.headAddress? hbody] at hhead
      exact mem_map_of_headAddress? hhead
    · obtain ⟨n, hn, hb⟩ := Node.mem_addressesAll.mp hb
      exact ihinside hbody hown.1 n hn b (List.mem_cons_of_mem _ hb)
  | @numeric a b init limit step body _ inner flat e _ _ _ _ _ _ _ ihinside ihrest =>
    rw [List.forall_mem_cons] at hns
    obtain ⟨rfl, rfl, hbody⟩ := hns.1.of_numericFor
    simp only [List.forall_mem_cons, List.forall_mem_append] at hown
    obtain ⟨hinit, hlimit, hstep, hstart, hinner, -, hrest⟩ := hown
    have hvar : e.var.address = e.start.address := hstart _ (by simp [Ends.start])
    have hlist : (init :: limit :: step :: e.start :: (inner ++ e.finish :: flat)).map Node.address =
        [init.address, limit.address, step.address, e.start.address] ++
          (inner.map Node.address ++ e.finish.address :: flat.map Node.address) := by simp
    rw [hlist]
    refine List.forall_mem_cons.mpr ⟨fun c hc => ?_, fun n hn c hc => ?_⟩
    · rcases mem_numericFor hinit hlimit hstep hc with hc | hc
      · rw [hvar] at hc
        exact List.mem_append_left _ hc
      · obtain ⟨n, hn, hc⟩ := Node.mem_addressesAll.mp hc
        have hmem := ihinside hbody hinner n hn c (List.mem_cons_of_mem _ hc)
        exact List.mem_append_right _ (List.mem_append_left _ hmem)
    · have hmem := ihrest hns.2 hrest n hn c hc
      exact List.mem_append_right _ (List.mem_append_right _ (List.mem_cons_of_mem _ hmem))

/-- Statements each at one address, in the order of these. -/
structure Sorted (flat : List Node) : Prop where
  own : ∀ s ∈ flat, ∀ a ∈ s.addresses, a = s.address
  pairwise : flat.Pairwise (·.address ≤ ·.address)

theorem Sorted.sublist {part : List Node} (h : Sorted flat) (hpart : part.Sublist flat) : Sorted part :=
  ⟨fun s hs => h.own s (hpart.subset hs), h.pairwise.sublist hpart⟩

/-- A statement in front of a sorted list encloses what is inside of it. -/
theorem Unrolls.encloses {n : Node} {pre : List Node} {ends' : List Ends}
    (h : Unrolls [n] ends' pre) (hrest : Unrolls ns ends flat) (hn : Headed n)
    (hns : ∀ s ∈ ns, Headed s) (hsorted : Sorted (pre ++ flat)) : Encloses n ns := by
  obtain ⟨hown, hordered⟩ := hsorted
  rw [List.forall_mem_append] at hown
  obtain ⟨hpre, -, hcross⟩ := List.pairwise_append.mp hordered
  have hheaded : ∀ s ∈ [n], Headed s := List.forall_mem_singleton.mpr hn
  intro a ha
  obtain ⟨t, ht, rfl⟩ := List.mem_map.mp (h.mem_address hheaded hown.1 n List.mem_cons_self a ha)
  constructor
  · have hhead : some n.address = Loops.headAddress? pre := h.headAddress? hheaded
    cases pre with
    | nil => cases hhead
    | cons first pre =>
      rw [Option.some.inj hhead]
      rcases List.mem_cons.mp ht with rfl | ht
      · exact Int.le_refl _
      · exact (List.pairwise_cons.mp hpre).1 t ht
  · intro s hs
    obtain ⟨u, hu, hsu⟩ := List.mem_map.mp
      (hrest.mem_address hns hown.2 s hs s.address List.mem_cons_self)
    rw [← hsu]
    exact hcross t ht u hu

/-- A simple statement in front of an arranged list, in order with what the list unrolls to. -/
theorem Arranged.cons {n : Node} (h : Arranged ns ends flat) (hn : n.isSimple)
    (hunrolls : Unrolls ns ends flat) (hns : ∀ s ∈ ns, Headed s) (hsorted : Sorted (n :: flat)) :
    Arranged (n :: ns) ends (n :: flat) :=
  .simple hn ((Unrolls.simple hn .nil).encloses hunrolls (.simple hn) hns hsorted) h

/-- The bounds of a numeric loop in front of its body, which is arranged. -/
theorem Arranged.bounds {init limit step : Node} (h : Arranged ns ends flat) (hinit : init.isSimple)
    (hlimit : limit.isSimple) (hstep : step.isSimple) (hunrolls : Unrolls ns ends flat)
    (hns : ∀ s ∈ ns, Headed s) (hsorted : Sorted (init :: limit :: step :: flat)) :
    Arranged (init :: limit :: step :: ns) ends (init :: limit :: step :: flat) := by
  have htwo : Sorted (limit :: step :: flat) := hsorted.sublist (List.sublist_cons_self ..)
  have hone : Sorted (step :: flat) := htwo.sublist (List.sublist_cons_self ..)
  have hheaded : ∀ s ∈ step :: ns, Headed s := List.forall_mem_cons.mpr ⟨.simple hstep, hns⟩
  have hheaded' : ∀ s ∈ limit :: step :: ns, Headed s :=
    List.forall_mem_cons.mpr ⟨.simple hlimit, hheaded⟩
  have hfrom := (h.cons hstep hunrolls hns hone).cons hlimit (.simple hstep hunrolls) hheaded htwo
  exact hfrom.cons hinit (.simple hlimit (.simple hstep hunrolls)) hheaded' hsorted

/-- A list that unrolls to a sorted one is arranged. -/
theorem Unrolls.arranged (h : Unrolls ns ends flat) (hns : ∀ n ∈ ns, Headed n)
    (hsorted : Sorted flat) : Arranged ns ends flat := by
  induction h with
  | nil => exact .nil
  | simple hn rest ih =>
    rw [List.forall_mem_cons] at hns
    exact (ih hns.2 (hsorted.sublist (List.sublist_cons_self ..))).cons hn rest hns.2 hsorted
  | @region a body _ inner _ ends _ inside rest ihinside ihrest =>
    rw [List.forall_mem_cons] at hns
    obtain ⟨hhead, hbody⟩ := hns.1.of_block
    have hone : Unrolls [.block a body] ends inner := by simpa using Unrolls.region inside .nil
    have hencloses := hone.encloses rest hns.1 hns.2 hsorted
    have hinside := ihinside hbody (hsorted.sublist (List.sublist_append_left ..))
    have hrest := ihrest hns.2 (hsorted.sublist (List.sublist_append_right ..))
    rw [inside.headAddress? hbody] at hhead
    cases inner with
    | nil => cases hhead
    | cons s inner =>
      cases Option.some.inj hhead
      exact .region hinside hencloses hrest
  | @numeric a b init limit step body _ inner flat e ends _ hinit hlimit hstep inside rest ihinside
      ihrest =>
    rw [List.forall_mem_cons] at hns
    have hone : Unrolls [.numericFor a e.var init limit step (.block b body)] (e :: (ends ++ []))
        (init :: limit :: step :: e.start :: (inner ++ [e.finish])) :=
      .numeric hinit hlimit hstep inside .nil
    have hsplit : init :: limit :: step :: e.start :: (inner ++ e.finish :: flat) =
        (init :: limit :: step :: e.start :: (inner ++ [e.finish])) ++ flat := by simp
    rw [hsplit] at hsorted
    have hencloses := hone.encloses rest hns.1 hns.2 hsorted
    obtain ⟨rfl, rfl, hbody⟩ := hns.1.of_numericFor
    have hrest := ihrest hns.2 (hsorted.sublist (List.sublist_append_right ..))
    -- The bounds and the body are a part of what the loop unrolls to.
    have hpart : (init :: limit :: step :: inner).Sublist
        (init :: limit :: step :: e.start :: (inner ++ [e.finish])) :=
      .cons_cons _ (.cons_cons _ (.cons_cons _ (.cons _ (List.sublist_append_left ..))))
    have hbounds := (hsorted.sublist (List.sublist_append_left ..)).sublist hpart
    have hinner := ihinside hbody (hbounds.sublist (List.sublist_append_right [init, limit, step] _))
    have hinside := hinner.bounds hinit hlimit hstep inside hbody hbounds
    exact .numeric hinit hlimit hstep hinside hencloses hrest

end

/-! ## Functions -/

/-- The statements of a decoded function stand in the order of their addresses. -/
theorem lower_sorted {data : Bytes} {f : ChunkFile} {p : Prototype} {d : Declaration}
    (hdecode : ChunkFile.decode data = .ok f) (hp : p ∈ f.walk) (hlower : p.lower = .ok d) :
    Sorted d.body := by
  refine ⟨fun s hs a ha => ?_, ?_⟩
  · obtain ⟨runs, hruns, hbody⟩ := Code.lower_runs hlower
    rw [hbody] at hs
    obtain ⟨run, hrun, hs⟩ := List.mem_flatten.mp hs
    obtain ⟨i, hi⟩ := Instruction.exists_run hruns hrun
    obtain ⟨haddress, hinside⟩ := hi.address_eq s hs
    rw [haddress]
    exact hinside a ha
  · exact (Code.lower_ordered (ChunkFile.decode_ordered hdecode hp) hlower).imp Before.le

/-- **Addresses stay in order at every depth.** Each instruction of a decoded function becomes at most
two statements at its address, and these stand in order, instruction by instruction. If recovery
succeeds, the list that it makes is in order, and at every depth so are the lists in its loops: a loop
has the address of the first statement it was made of, and what is inside stands between this address
and the next statement. -/
theorem recover_arranged {data : Bytes} {f : ChunkFile} {p : Prototype} {d : Declaration}
    (hdecode : ChunkFile.decode data = .ok f) (hp : p ∈ f.walk) (hlower : p.lower = .ok d) :
    (∃ runs, List.Forall₂ (fun i run => run.length ≤ 2 ∧
        ∀ n ∈ run, n.address = i.address ∧ ∀ a ∈ n.addresses, a = i.address)
      p.instructions.items runs ∧ d.body = runs.flatten) ∧
    d.body.Pairwise (·.address ≤ ·.address) ∧
    ∀ out, recover d.body = .ok out →
      out.Pairwise (·.address ≤ ·.address) ∧ ∃ ends, Arranged out ends d.body := by
  have hsorted := lower_sorted hdecode hp hlower
  refine ⟨?_, hsorted.pairwise, fun out hrecover => ?_⟩
  · obtain ⟨runs, hruns, hbody⟩ := Code.lower_runs hlower
    exact ⟨runs, hruns.imp fun i run hrun => ⟨hrun.length, hrun.address_eq⟩, hbody⟩
  · have hsimple : ∀ n ∈ d.body, n.isSimple := fun n hn => (p.lower_flat hlower n hn).isSimple
    obtain ⟨ends, hunrolls⟩ := recover_unrolls hsimple hrecover
    have hheaded := (recover_headed (fun n hn => .simple (hsimple n hn)) hrecover).1
    have harranged := hunrolls.arranged hheaded hsorted
    exact ⟨harranged.pairwise, ends, harranged⟩

/-- The loops of `nestedChunk` are in order. -/
theorem recover_arranged_nestedChunk :
    ∃ f p d out, ChunkFile.decode nestedChunk = .ok f ∧ p ∈ f.walk ∧ p.lower = .ok d ∧
      recover d.body = .ok out ∧ (Node.numericLoops out).length = 2 ∧
      d.body.Pairwise (·.address ≤ ·.address) ∧ ∃ ends, Arranged out ends d.body := by
  have hrun : (ChunkFile.decode nestedChunk).toOption.any fun f => f.walk.any fun p =>
      p.withLoops.toOption.any fun d => (Node.numericLoops d.body).length = 2 := by decide +kernel
  obtain ⟨f, hdecode, hrun⟩ := exists_ok_of_any hrun
  obtain ⟨p, hp, hrun⟩ := List.any_eq_true.mp hrun
  obtain ⟨d, out, hlower, hrecover, hout⟩ := withLoops_any (c := p.toCode)
    (P := fun out => (Node.numericLoops out).length = 2) hrun
  obtain ⟨-, hordered, harranged⟩ := recover_arranged hdecode hp hlower
  exact ⟨f, p, d, out, hdecode, hp, hlower, hrecover, of_decide_eq_true hout, hordered,
    (harranged out hrecover).2⟩

end Loops

end HavokScript
