import HavokScript.Proofs.Chunk.Placement
import HavokScript.Proofs.Decompile.LoopBounds

/-!
# What loops span

A branch back closes a loop of the statements from its target on. Recovery finds the target by
position, in a list of which the end may be rewritten and the front cut away, and two statements of
one instruction have the same address. `Loops.recover_spans` says that the loops still are what the
addresses say: in a recovered function, at any depth, a region consists of exactly the statements of
the function from the target of its jump up to the jump, and the body of a numeric loop of exactly
those from the target of its end on and below the end, right behind its bounds and its start.

Two things carry this. The statements of a function stand in the order of their addresses, and one
that branches back is alone at its address (`Code.lower_ordered`). And whatever a run has cut away in
front is below all that is left (`Recovers.spans`), so a target that is not in front of the list that
is left is not in what was cut away either.
-/

namespace HavokScript

namespace Loops

/-! ## The order of statements -/

/-- One statement stands before another: at a lower address, or at the same one if neither branches
back. -/
def Before (s t : Node) : Prop :=
  s.address < t.address ∨ s.address = t.address ∧ isBackward s = false ∧ isBackward t = false

theorem Before.le {s t : Node} (h : Before s t) : s.address ≤ t.address := by
  rcases h with h | ⟨h, -⟩ <;> omega

theorem Before.lt_of_left {s t : Node} (h : Before s t) (hs : isBackward s) :
    s.address < t.address := by
  rcases h with h | ⟨-, hs', -⟩
  · exact h
  · rw [hs'] at hs
    cases hs

theorem Before.lt_of_right {s t : Node} (h : Before s t) (ht : isBackward t) :
    s.address < t.address := by
  rcases h with h | ⟨-, -, ht'⟩
  · exact h
  · rw [ht'] at ht
    cases ht

/-- Where a statement stands, and whether it branches back. -/
def place (n : Node) : Int × Bool := (n.address, isBackward n)

theorem place_renumberAll {ns : List Node} (hns : ∀ n ∈ ns, n.Flat) (k : Nat) :
    (Node.renumberAll ns k).1.map place = ns.map place := by
  induction ns generalizing k with
  | nil => rfl
  | cons n ns ih =>
    rw [List.forall_mem_cons] at hns
    have hn : place (n.renumber k).1 = place n := by
      cases hns.1 <;> rfl
    exact congrArg₂ List.cons hn (ih hns.2 _)

theorem pairwise_before_iff {ns : List Node} : ns.Pairwise Before ↔
    (ns.map place).Pairwise fun x y => x.1 < y.1 ∨ x.1 = y.1 ∧ x.2 = false ∧ y.2 = false := by
  rw [List.pairwise_map]
  rfl

end Loops

namespace Lower

open Loops (Before isBackward)

/-- The statements of an instruction: one at most, or two of which the second is an assignment, or a jump over
the next instruction. -/
inductive Few : List Node → Prop
  | none : Few []
  | one (n : Node) : Few [n]
  | tests (a b : Int) (c : Expr) (r s : Register) :
      Few [.test a c, .assign b [.register r] [.register s] false]
  | skips (a b : Int) (target value : Expr) : Few [.assign a [target] [value] false, .jump b 1]
  | fetches (a b c : Int) (r s t : Register) (table key : Expr) :
      Few [.assign a [.register r] [.register s] false,
        .assign b [.register t] [.index c table key] false]

theorem opcode_few (c : Code) (i : Instruction) (op : Opcode) :
    Outcome Few (fun _ => True) (opcode c i op) := by
  cases op
  case add | sub | mul | div | mod | pow | addBK | subBK | mulBK | divBK | modBK | powBK | eq | lt
      | le | eqBK | ltBK | leBK | setField | setFieldR1 | setTable | setTableS | setTableN
      | setTableBK | setTableSBK | setTableNBK =>
    exact (outcome_any _).bind fun _ _ => (outcome_any _).bind fun _ _ => Outcome.pure (.one _)
  case loadK | getGlobal | getGlobalMem | setGlobal | getField | getFieldR1 | getFieldMM | getTable
      | getTableS | getTableN =>
    exact (outcome_any _).bind fun _ _ => Outcome.pure (.one _)
  case self => exact (outcome_any _).bind fun _ _ => Outcome.pure (.fetches ..)
  case testSet => exact Few.tests ..
  case loadBool =>
    by_cases hskip : i.argument 2 = 0
    · simp only [opcode, if_pos hskip]
      exact Few.one _
    · simp only [opcode, if_neg hskip]
      exact Few.skips ..
  case ret =>
    by_cases hcount : i.argument 1 ≤ 0
    · simp only [opcode, if_pos hcount]
      exact Few.none
    · simp only [opcode, if_neg hcount]
      exact Few.one _
  all_goals first
    | exact Few.one _
    | exact Few.none

theorem instruction_few {c : Code} {i : Instruction} {ns : List Node}
    (h : instruction c i = .ok ns) : Few ns := by
  unfold instruction at h
  split at h
  · cases h
    exact .none
  · rename_i op _
    have hop := opcode_few c i op
    split at h
    · rename_i ns' hns
      cases h
      rwa [hns] at hop
    · cases h

/-- Of the two statements of an instruction none branches back. -/
theorem Few.forward {ns : List Node} (h : Few ns) :
    ns.length ≤ 1 ∨ ∀ n ∈ ns, isBackward n = false := by
  cases h with
  | none => exact .inl (Nat.zero_le 1)
  | one n => exact .inl (Nat.le_refl 1)
  | tests | skips | fetches =>
    exact .inr (List.forall_mem_cons.mpr ⟨rfl, List.forall_mem_singleton.mpr rfl⟩)

theorem instruction_ordered {c : Code} {i : Instruction} {ns : List Node}
    (h : instruction c i = .ok ns) : ns.Pairwise Before := by
  have haddress : ∀ n ∈ ns, n.address = i.address := by
    have hmade := instruction_outcome c i
    rw [h] at hmade
    intro n hn
    obtain ⟨j, hj, op, -, hn⟩ := hmade n hn
    rw [hn.address, List.mem_singleton.mp hj]
  rcases (instruction_few h).forward with hone | hforward
  · rcases Nat.le_one_iff_eq_zero_or_eq_one.mp hone with hzero | hone
    · rw [List.length_eq_zero_iff.mp hzero]
      exact .nil
    · obtain ⟨n, rfl⟩ := List.length_eq_one_iff.mp hone
      exact List.pairwise_singleton _ n
  · refine List.pairwise_iff_forall_sublist.mpr fun {s t} hst => .inr ⟨?_, ?_, ?_⟩
    · rw [haddress s (hst.subset (by simp)), haddress t (hst.subset (by simp))]
    · exact hforward s (hst.subset (by simp))
    · exact hforward t (hst.subset (by simp))

theorem instructions_ordered {c : Code} {is : List Instruction} {ns : List Node}
    (his : is.Pairwise (·.address < ·.address)) (h : instructions c is = .ok ns) :
    ns.Pairwise Before := by
  induction is generalizing ns with
  | nil =>
    cases h
    exact .nil
  | cons i is ih =>
    rw [List.pairwise_cons] at his
    have hi := instruction_outcome c i
    have hrest := instructions_outcome c is
    rw [instructions] at h
    cases hns : instruction c i with
    | error e =>
      rw [hns] at h
      cases h
    | ok first =>
      rw [hns] at h hi
      cases hns' : instructions c is with
      | error e =>
        rw [hns'] at h
        cases h
      | ok rest =>
        rw [hns'] at h hrest
        cases h
        refine List.pairwise_append.mpr ⟨instruction_ordered hns, ih his.2 hns', ?_⟩
        intro s hs t ht
        obtain ⟨i', hi', _, -, hs⟩ := hi s hs
        obtain ⟨j, hj, _, -, ht⟩ := hrest t ht
        refine .inl ?_
        rw [hs.address, ht.address, List.mem_singleton.mp hi']
        exact his.1 j hj

end Lower

/-- The statements of a function stand in the order of their addresses if its instructions do, and one
that branches back is alone at its address. -/
theorem Code.lower_ordered {c : Code} {d : Declaration}
    (hc : c.instructions.items.Pairwise (·.address < ·.address)) (h : c.lower = .ok d) :
    d.body.Pairwise Loops.Before := by
  have houtcome := Lower.instructions_outcome c c.instructions.items
  unfold Code.lower at h
  cases hbody : Lower.instructions c c.instructions.items with
  | error e =>
    rw [hbody] at h
    cases h
  | ok body =>
    rw [hbody] at h houtcome
    cases h
    have hflat : ∀ n ∈ body, n.Flat := fun n hn => by
      obtain ⟨i, -, op, -, hmade⟩ := houtcome n hn
      exact hmade.flat
    have hordered := Loops.pairwise_before_iff.mp (Lower.instructions_ordered hc hbody)
    refine Loops.pairwise_before_iff.mpr ?_
    exact (congrArg (List.Pairwise _) (Loops.place_renumberAll hflat _)).mpr hordered

/-- The instructions of a row stand in the order of their addresses. -/
theorem Instruction.Row.pairwise {data : Bytes} {o : ByteOrder} {n m : Nat} {is : List Instruction}
    (h : Instruction.Row data o n is m) :
    is.Pairwise (·.address < ·.address) ∧ ∀ i ∈ is, (n : Int) ≤ i.address := by
  induction h with
  | nil => exact ⟨.nil, by simp⟩
  | @cons n m i is _ decoded _ ih =>
    have haddress := Instruction.decode_address decoded
    refine ⟨List.pairwise_cons.mpr ⟨fun j hj => ?_, ih.1⟩, ?_⟩
    · have := ih.2 j hj
      omega
    · refine List.forall_mem_cons.mpr ⟨by omega, fun j hj => ?_⟩
      have := ih.2 j hj
      omega

theorem ChunkFile.decode_ordered {data : Bytes} {f : ChunkFile} (h : decode data = .ok f)
    {p : Prototype} (hp : p ∈ f.walk) :
    p.instructions.items.Pairwise (·.address < ·.address) := by
  have houtcome := decode_outcome data
  rw [h] at houtcome
  obtain ⟨-, m, -, hlaid⟩ := houtcome
  obtain ⟨k, l, -, hplaced, -⟩ := hlaid.placedIn hp
  obtain ⟨first, last, -, -, hrow, -⟩ := hplaced.row
  exact hrow.pairwise.1

namespace Loops

/-! ## Ranges -/

theorem filter_middle {p : Node → Bool} {front inner back : List Node}
    (hfront : ∀ s ∈ front, p s = false) (hinner : ∀ s ∈ inner, p s)
    (hback : ∀ s ∈ back, p s = false) : (front ++ (inner ++ back)).filter p = inner := by
  have hnone : ∀ {ns : List Node}, (∀ s ∈ ns, p s = false) → ns.filter p = [] := fun h =>
    List.filter_eq_nil_iff.mpr fun s hs => by simp [h s hs]
  rw [List.filter_append, List.filter_append, hnone hfront, hnone hback,
    List.filter_eq_self.mpr hinner, List.nil_append, List.append_nil]

/-- In front of a branch back, from its target on, and behind it. -/
structure Ranges (target : Int) (inner : List Node) (branch : Node) (back : List Node) : Prop where
  inner : ∀ s ∈ inner, target ≤ s.address ∧ s.address < branch.address
  back : ∀ s ∈ back, branch.address < s.address
  branch : target ≤ branch.address

/-- The first statement of an ordered list decides that all of it is behind a target. -/
theorem ranges_of_ordered {target : Int} {inner back rest : List Node} {branch : Node}
    (hordered : (inner ++ branch :: back).Pairwise Before) (hbranch : isBackward branch)
    (hreached : ∀ n ∈ (inner ++ branch :: rest).head?, target ≤ n.address) :
    Ranges target inner branch back := by
  obtain ⟨hinner, hback, hcross⟩ := List.pairwise_append.mp hordered
  have hlt : ∀ s ∈ inner, s.address < branch.address := fun s hs =>
    (hcross s hs branch List.mem_cons_self).lt_of_right hbranch
  have hinside : ∀ s ∈ inner, target ≤ s.address := by
    cases inner with
    | nil => simp
    | cons n inner =>
      have hn : target ≤ n.address := hreached n rfl
      refine List.forall_mem_cons.mpr ⟨hn, fun s hs => Int.le_trans hn ?_⟩
      exact ((List.pairwise_cons.mp hinner).1 s hs).le
  refine ⟨fun s hs => ⟨hinside s hs, hlt s hs⟩, fun s hs => ?_, ?_⟩
  · exact ((List.pairwise_cons.mp hback).1 s hs).lt_of_left hbranch
  · cases inner with
    | nil => exact hreached branch rfl
    | cons n inner => exact Int.le_trans (hinside n (by simp)) (Int.le_of_lt (hlt n (by simp)))

/-- The statements from the target on and below the branch. -/
theorem Ranges.filter_lt {target : Int} {front inner back : List Node} {branch : Node}
    (h : Ranges target inner branch back) (hfront : ∀ s ∈ front, s.address < target) :
    inner = (front ++ (inner ++ branch :: back)).filter fun s =>
      target ≤ s.address ∧ s.address < branch.address := by
  refine (filter_middle ?_ ?_ ?_).symm
  · exact fun s hs => decide_eq_false fun hrange => absurd hrange.1 (Int.not_le.mpr (hfront s hs))
  · exact fun s hs => decide_eq_true (h.inner s hs)
  · refine List.forall_mem_cons.mpr ⟨decide_eq_false fun hrange => ?_, fun s hs =>
      decide_eq_false fun hrange => ?_⟩
    · exact Int.lt_irrefl _ hrange.2
    · exact Int.lt_asymm hrange.2 (h.back s hs)

/-- The statements from the target on up to the branch, and the branch. -/
theorem Ranges.filter_le {target : Int} {front inner back : List Node} {branch : Node}
    (h : Ranges target inner branch back) (hfront : ∀ s ∈ front, s.address < target) :
    inner ++ [branch] = (front ++ (inner ++ branch :: back)).filter fun s =>
      target ≤ s.address ∧ s.address ≤ branch.address := by
  rw [List.append_cons inner branch back]
  refine (filter_middle ?_ ?_ ?_).symm
  · exact fun s hs => decide_eq_false fun hrange => absurd hrange.1 (Int.not_le.mpr (hfront s hs))
  · refine List.forall_mem_append.mpr ⟨fun s hs => decide_eq_true ?_,
      List.forall_mem_singleton.mpr (decide_eq_true ⟨h.branch, Int.le_refl _⟩)⟩
    exact (h.inner s hs).imp_right Int.le_of_lt
  · exact fun s hs => decide_eq_false fun hrange => absurd hrange.2 (Int.not_le.mpr (h.back s hs))

/-- What is below a list is below every target in it. -/
theorem Lands.front_lt {target : Int} {front back raw made cut : List Node}
    (h : Lands target front back) (hlist : front ++ back = raw ++ made) (hne : raw ≠ [])
    (hcut : ∀ s ∈ cut, ∀ t ∈ raw, s.address < t.address) : ∀ s ∈ cut, s.address < target := by
  obtain ⟨r, raw, rfl⟩ := List.exists_cons_of_ne_nil hne
  have hr : r.address ≤ target := by
    refine h.first r ?_
    rw [hlist]
    rfl
  intro s hs
  have := hcut s hs r List.mem_cons_self
  omega

/-- Where a branch lands in what is left splits the whole list: everything in front is below the
target, and what the branch leads back over is its range. -/
theorem Lands.ranges {target : Int} {flat cut front inner back rest raw made : List Node}
    {branch : Node} (h : Lands target front (inner ++ branch :: rest))
    (hlist : front ++ (inner ++ branch :: rest) = raw ++ made) (hne : raw ≠ [])
    (hcut : ∀ s ∈ cut, ∀ t ∈ raw, s.address < t.address) (hordered : flat.Pairwise Before)
    (hsplit : flat = (cut ++ front) ++ (inner ++ branch :: back)) (hbranch : isBackward branch) :
    (∀ s ∈ cut ++ front, s.address < target) ∧ Ranges target inner branch back := by
  refine ⟨List.forall_mem_append.mpr ⟨h.front_lt hlist hne hcut, h.below⟩, ?_⟩
  exact ranges_of_ordered (List.pairwise_append.mp (hsplit ▸ hordered)).2.1 hbranch h.reached

/-! ## Loops and their ranges -/

/-- A list unrolls as in `Unrolls`, and each of its loops, at any depth, spans its range in `flat`. A
region is exactly the statements from the target of its jump up to the jump. The body of a numeric
loop is exactly the statements from the target of the end on and below the end; right in front of
them stand the bounds and the start, and right behind them the end. -/
inductive Spans (flat : List Node) : List Node → List Ends → List Node → Prop
  | nil : Spans flat [] [] []
  | simple {n : Node} {ns unrolled : List Node} {ends : List Ends} (hn : n.isSimple)
      (rest : Spans flat ns ends unrolled) : Spans flat (n :: ns) ends (n :: unrolled)
  | region {a b offset : Int} {body ns inner unrolled : List Node} {ends ends' : List Ends}
      (back : offset < 0) (inside : Spans flat body ends inner)
      (range : inner ++ [.jump b offset] =
        flat.filter fun s => branchTarget b offset ≤ s.address ∧ s.address ≤ b)
      (rest : Spans flat ns ends' unrolled) :
      Spans flat (.block a (body ++ [.jump b offset]) :: ns) (ends ++ ends')
        (inner ++ .jump b offset :: unrolled)
  | numeric {a b : Int} {init limit step : Node} {body ns inner unrolled before after : List Node}
      {e : Ends} {ends ends' : List Ends} (hinit : init.isSimple) (hlimit : limit.isSimple)
      (hstep : step.isSimple) (inside : Spans flat body ends inner)
      (range : inner = flat.filter fun s =>
        branchTarget e.endAddress e.offset ≤ s.address ∧ s.address < e.endAddress)
      (stands : flat = before ++ init :: limit :: step :: e.start :: (inner ++ e.finish :: after))
      (rest : Spans flat ns ends' unrolled) :
      Spans flat (.numericFor a e.var init limit step (.block b body) :: ns) (e :: (ends ++ ends'))
        (init :: limit :: step :: e.start :: (inner ++ e.finish :: unrolled))

theorem Spans.unrolls {flat ns unrolled : List Node} {ends : List Ends}
    (h : Spans flat ns ends unrolled) : Unrolls ns ends unrolled := by
  induction h with
  | nil => exact .nil
  | simple hn _ ih => exact .simple hn ih
  | @region a b offset _ _ _ _ _ _ _ _ _ _ ihinside ihrest =>
    have hregion := Unrolls.region (a := a) (ihinside.append_simple (n := .jump b offset) rfl) ihrest
    simpa using hregion
  | numeric hinit hlimit hstep _ _ _ _ ihinside ihrest =>
    exact .numeric hinit hlimit hstep ihinside ihrest

theorem Spans.simples_append {flat raw ns unrolled : List Node} {ends : List Ends}
    (hraw : ∀ n ∈ raw, n.isSimple) (h : Spans flat ns ends unrolled) :
    Spans flat (raw ++ ns) ends (raw ++ unrolled) := by
  induction raw with
  | nil => exact h
  | cons n raw ih =>
    rw [List.forall_mem_cons] at hraw
    exact .simple hraw.1 (ih hraw.2)

/-- A run that has cut away only statements below all that is left makes loops that span their
ranges. -/
theorem Recovers.spans {flat raw made out cut done back : List Node} {ends : List Ends}
    (h : Recovers raw made out) (hordered : flat.Pairwise Before)
    (hflat : flat = cut ++ (raw ++ (done ++ back)))
    (hcut : ∀ s ∈ cut, ∀ t ∈ raw, s.address < t.address) (hraw : ∀ n ∈ raw, n.isSimple)
    (hmade : Spans flat made ends done) : ∃ ends, Spans flat out ends (raw ++ done) := by
  induction h generalizing cut done back ends with
  | straight => exact ⟨ends, hmade.simples_append hraw⟩
  | @numeric x y z e before inner after made body out lands forward _ _ ihinside ihrest =>
    simp only [List.forall_mem_append, List.forall_mem_cons] at hraw
    obtain ⟨hbefore, hx, hy, hz, -, hinner, -, hafter⟩ := hraw
    -- What stands in front of the body is below the target, and the body is not.
    have hsplit : flat = (cut ++ (before ++ [x, y, z, e.start])) ++
        (inner ++ e.finish :: (after ++ (done ++ back))) := by simp [hflat]
    have hlist : (before ++ [x, y, z, e.start]) ++ (inner ++ e.finish :: (after ++ made)) =
        (before ++ x :: y :: z :: e.start :: (inner ++ e.finish :: after)) ++ made := by simp
    obtain ⟨hbelow, hranges⟩ := lands.ranges hlist (by simp) hcut hordered hsplit rfl
    have hrange : inner = flat.filter fun s =>
        branchTarget e.endAddress e.offset ≤ s.address ∧ s.address < e.endAddress := by
      rw [hsplit]
      exact hranges.filter_lt hbelow
    obtain ⟨ends', hbody⟩ := @ihinside _ [] _ [] hsplit
      (fun s hs t ht => Int.lt_of_lt_of_le (hbelow s hs) (hranges.inner t ht).1) hinner .nil
    rw [List.append_nil] at hbody
    have hstands : flat = (cut ++ before) ++ x :: y :: z :: e.start ::
        (inner ++ e.finish :: (after ++ (done ++ back))) := by simp [hflat]
    have hloop := Spans.numeric (a := x.address) (b := x.address) hx hy hz hbody hrange hstands
      (hmade.simples_append hafter)
    have hrest := @ihrest cut _ back _ (by simp [hflat])
      (fun s hs t ht => hcut s hs t (List.mem_append_left _ ht)) hbefore hloop
    simpa using hrest
  | @region a b offset before inner after made body out hoffset lands forward _ _ ihinside ihrest =>
    simp only [List.forall_mem_append, List.forall_mem_cons] at hraw
    obtain ⟨hbefore, hinner, -, hafter⟩ := hraw
    have hsplit : flat = (cut ++ before) ++
        (inner ++ .jump b offset :: (after ++ (done ++ back))) := by simp [hflat]
    have hlist : before ++ (inner ++ .jump b offset :: (after ++ made)) =
        (before ++ (inner ++ .jump b offset :: after)) ++ made := by simp
    obtain ⟨hbelow, hranges⟩ := lands.ranges hlist (by simp) hcut hordered hsplit
      (by simpa [isBackward] using hoffset)
    have hrange : inner ++ [.jump b offset] = flat.filter fun s =>
        branchTarget b offset ≤ s.address ∧ s.address ≤ b := by
      rw [hsplit]
      exact hranges.filter_le hbelow
    obtain ⟨ends', hbody⟩ := @ihinside _ [] _ [] hsplit
      (fun s hs t ht => Int.lt_of_lt_of_le (hbelow s hs) (hranges.inner t ht).1) hinner .nil
    rw [List.append_nil] at hbody
    have hloop := Spans.region (a := a) hoffset hbody hrange (hmade.simples_append hafter)
    have hrest := @ihrest cut _ back _ (by simp [hflat])
      (fun s hs t ht => hcut s hs t (List.mem_append_left _ ht)) hbefore hloop
    simpa using hrest

/-- **Recovered loops span exactly their branch ranges.** The statements of a recovered function unroll
to those that were lowered, and at any depth a region is exactly the statements from the target of its
jump up to the jump, and the body of a numeric loop exactly those from the target of its end on and
below the end, with its bounds and its start right in front. -/
theorem recover_spans {data : Bytes} {f : ChunkFile} {p : Prototype} {d : Declaration}
    {out : List Node} (hdecode : ChunkFile.decode data = .ok f) (hp : p ∈ f.walk)
    (hlower : p.lower = .ok d) (hrecover : recover d.body = .ok out) :
    ∃ ends, Unrolls out ends d.body ∧ Spans d.body out ends d.body := by
  have hordered := Code.lower_ordered (ChunkFile.decode_ordered hdecode hp) hlower
  have hsimple : ∀ n ∈ d.body, n.isSimple := fun n hn => (p.lower_flat hlower n hn).isSimple
  have hflat : d.body = [] ++ (d.body ++ ([] ++ [])) := by simp
  rw [← List.append_nil d.body] at hrecover
  obtain ⟨ends, hspans⟩ := (recovers_of_recover (by simp) hrecover).spans hordered hflat (by simp)
    hsimple .nil
  rw [List.append_nil] at hspans
  exact ⟨ends, hspans.unrolls, hspans⟩

/-- A chunk with a numeric loop inside a numeric loop inside a region, and a return behind it. The
region begins with an instruction that has two statements. -/
def nestedChunk : Bytes :=
  Assembly.bytes ⟨.standard, some ⟨⟨0, 1, 0, 10, [Word.ofABC 13 9 1 1, Word.ofABC 7 1 0 0,
    Word.ofABC 7 2 0 0, Word.ofABC 7 3 0 0, Word.ofAsBx 62 1 4, Word.ofABC 7 5 4 0,
    Word.ofABC 7 6 4 0, Word.ofABC 7 7 4 0, Word.ofAsBx 62 5 0, Word.ofAsBx 63 5 (-1),
    Word.ofAsBx 63 1 (-6), Word.ofAsBx 28 0 (-12), Word.ofABC 9 0 1 0], [], none⟩, []⟩⟩

theorem recover_spans_nestedChunk :
    ∃ f p d out, ChunkFile.decode nestedChunk = .ok f ∧ p ∈ f.walk ∧ p.lower = .ok d ∧
      recover d.body = .ok out ∧ out.length = 2 ∧ (Node.numericLoops out).length = 2 ∧
      ∃ ends, Unrolls out ends d.body ∧ Spans d.body out ends d.body := by
  have hrun : (ChunkFile.decode nestedChunk).toOption.any fun f => f.walk.any fun p =>
      p.withLoops.toOption.any fun d =>
        d.body.length = 2 && (Node.numericLoops d.body).length = 2 := by decide +kernel
  obtain ⟨f, hdecode, hrun⟩ := exists_ok_of_any hrun
  obtain ⟨p, hp, hrun⟩ := List.any_eq_true.mp hrun
  obtain ⟨d, out, hlower, hrecover, hout⟩ := withLoops_any (c := p.toCode)
    (P := fun out => out.length = 2 && (Node.numericLoops out).length = 2) hrun
  rw [Bool.and_eq_true, decide_eq_true_eq, decide_eq_true_eq] at hout
  exact ⟨f, p, d, out, hdecode, hp, hlower, hrecover, hout.1, hout.2,
    recover_spans hdecode hp hlower hrecover⟩

end Loops

end HavokScript
