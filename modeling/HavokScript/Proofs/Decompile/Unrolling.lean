import HavokScript.Proofs.Decompile.Recovery
import Mathlib.Data.List.GetD

/-!
# Loop recovery loses nothing

A recovered list can be unrolled: a region becomes its statements again, and a numeric loop its three
bounds, a loop start, its body and a loop end. Recovery drops the start and the end of every numeric
loop it makes, so unrolling is told the ends of the loops, from the front to the back
(`Loops.Unrolls`). `Loops.unrolls_recover` says that the ends can be chosen such that unrolling gives
back the list that was recovered: nothing is lost, doubled or moved.

Recovery works from the last branch back to the front, so at any moment the list has two parts: in
front the statements as they were, and behind them what has been looked at, in which nothing branches
back. `Loops.Recovers` tells a whole run by these parts and without places: which statements each
loop takes, and where its branch leads (`Loops.recovers_of_recover`). What is said of recovered lists
is an induction over such a run.
-/

namespace HavokScript

/-- Whether the node has no statements inside. -/
def Node.isSimple : Node → Bool
  | .chunk .. | .block .. | .scope .. | .whileLoop .. | .repeatLoop .. | .branch .. | .arm ..
  | .numericFor .. | .genericFor .. | .function .. | .localFunction .. => false
  | _ => true

mutual

/-- The statements of a recovered tree that have no statements inside, in order. -/
def Node.simples : Node → List Node
  | .block _ body => Node.simplesAll body
  | .numericFor _ _ init limit step body => init :: limit :: step :: body.simples
  | n => [n]

/-- The same for a list of statements. -/
def Node.simplesAll : List Node → List Node
  | [] => []
  | n :: ns => n.simples ++ Node.simplesAll ns

end

namespace Loops

/-! ## Unrolling -/

/-- The start and the end of a numeric loop. -/
structure Ends where
  /-- the address of the start -/
  startAddress : Int
  /-- the first value, as the start names it -/
  init : Expr
  /-- the last value, as the start names it -/
  limit : Expr
  /-- the step, as the start names it -/
  step : Expr
  /-- the variable -/
  var : Register
  /-- the address of the end -/
  endAddress : Int
  /-- the counter, as the end names it -/
  counter : Expr
  /-- where the end branches to -/
  offset : Int

namespace Ends

/-- The start of the loop. -/
def start (e : Ends) : Node := .forPrep e.startAddress e.init e.limit e.step e.var

/-- The end of the loop. -/
def finish (e : Ends) : Node := .forLoop e.endAddress e.counter e.offset

/-- Both marks of the loop. -/
def marks (e : Ends) : List Node := [e.start, e.finish]

end Ends

/-- What a list unrolls to, with these ends for its numeric loops: a region becomes its statements, and
a numeric loop its bounds, its start, its body and its end. The start has the variable of the loop. -/
inductive Unrolls : List Node → List Ends → List Node → Prop
  | nil : Unrolls [] [] []
  | simple {n : Node} {ns flat : List Node} {ends : List Ends} (hn : n.isSimple)
      (rest : Unrolls ns ends flat) : Unrolls (n :: ns) ends (n :: flat)
  | region {a : Int} {body ns inner flat : List Node} {ends ends' : List Ends}
      (inside : Unrolls body ends inner) (rest : Unrolls ns ends' flat) :
      Unrolls (.block a body :: ns) (ends ++ ends') (inner ++ flat)
  | numeric {a b : Int} {init limit step : Node} {body ns inner flat : List Node} {e : Ends}
      {ends ends' : List Ends} (hinit : init.isSimple) (hlimit : limit.isSimple)
      (hstep : step.isSimple) (inside : Unrolls body ends inner) (rest : Unrolls ns ends' flat) :
      Unrolls (.numericFor a e.var init limit step (.block b body) :: ns) (e :: (ends ++ ends'))
        (init :: limit :: step :: e.start :: (inner ++ e.finish :: flat))

theorem Unrolls.simples_append {raw ns flat : List Node} {ends : List Ends}
    (hraw : ∀ n ∈ raw, n.isSimple) (h : Unrolls ns ends flat) :
    Unrolls (raw ++ ns) ends (raw ++ flat) := by
  induction raw with
  | nil => exact h
  | cons n raw ih =>
    rw [List.forall_mem_cons] at hraw
    exact .simple hraw.1 (ih hraw.2)

theorem Unrolls.append_simple {ns flat : List Node} {ends : List Ends} (h : Unrolls ns ends flat)
    {n : Node} (hn : n.isSimple) : Unrolls (ns ++ [n]) ends (flat ++ [n]) := by
  induction h with
  | nil => exact .simple hn .nil
  | simple hm _ ih => exact .simple hm ih
  | region inside _ _ ih =>
    rw [List.append_assoc]
    exact .region inside ih
  | numeric hinit hlimit hstep inside _ _ ih =>
    simp only [List.cons_append, List.append_assoc]
    exact .numeric hinit hlimit hstep inside ih

theorem simples_of_isSimple {n : Node} (h : n.isSimple) : n.simples = [n] := by
  cases n <;> first | rfl | cases h

theorem perm_append_append {flat flat' as as' bs bs' : List Node} (h : flat.Perm (as ++ bs))
    (h' : flat'.Perm (as' ++ bs')) : (flat ++ flat').Perm (as ++ as' ++ (bs ++ bs')) := by
  refine (h.append h').trans ?_
  rw [List.append_assoc, List.append_assoc]
  refine List.Perm.append_left as ?_
  rw [← List.append_assoc, ← List.append_assoc]
  exact List.perm_append_comm.append_right bs'

/-- Apart from the marks of its numeric loops, all statements are in the tree, as often as in the
list. -/
theorem Unrolls.perm {ns flat : List Node} {ends : List Ends} (h : Unrolls ns ends flat) :
    flat.Perm (Node.simplesAll ns ++ ends.flatMap Ends.marks) := by
  induction h with
  | nil => exact .nil
  | simple hn _ ih =>
    rw [Node.simplesAll, simples_of_isSimple hn]
    exact ih.cons _
  | @region a body ns inner flat ends ends' _ _ ihinside ihrest =>
    rw [Node.simplesAll, Node.simples, List.flatMap_append]
    exact perm_append_append ihinside ihrest
  | @numeric a b init limit step body ns inner flat e ends ends' _ _ _ _ _ ihinside ihrest =>
    rw [Node.simplesAll, Node.simples, Node.simples, List.flatMap_cons, List.flatMap_append]
    have hinside := perm_append_append ihinside ihrest
    have hmarks : (e.start :: (inner ++ e.finish :: flat)).Perm
        (Node.simplesAll body ++ Node.simplesAll ns ++ (e.start :: e.finish ::
          (ends.flatMap Ends.marks ++ ends'.flatMap Ends.marks))) :=
      calc
        List.Perm _ (e.start :: e.finish :: (inner ++ flat)) := List.perm_middle.cons _
        List.Perm _ (e.start :: e.finish :: (Node.simplesAll body ++ Node.simplesAll ns ++
            (ends.flatMap Ends.marks ++ ends'.flatMap Ends.marks))) := (hinside.cons _).cons _
        List.Perm _ _ := (List.perm_middle.symm.cons _).trans List.perm_middle.symm
    exact ((hmarks.cons _).cons _).cons _

/-! ## Places -/

theorem nth_append_left {raw made : List Node} {i : Nat} (h : i < raw.length) :
    nth (raw ++ made) i = nth raw i := by
  rw [nth, nth, List.getD_append _ _ _ _ h]

theorem drop_eq_nth_cons {stmts : List Node} {i : Nat} (h : i < stmts.length) :
    stmts.drop i = nth stmts i :: stmts.drop (i + 1) := by
  rw [List.drop_eq_getElem_cons h, nth, List.getD_eq_getElem _ _ h]

/-- The statements from a place on, up to another one, and behind it. -/
theorem drop_eq_slice_append {stmts : List Node} {begins i : Nat} (hle : begins ≤ i)
    (hlt : i < stmts.length) :
    stmts.drop begins = slice stmts begins i ++ nth stmts i :: stmts.drop (i + 1) := by
  rw [← drop_eq_nth_cons hlt, slice, ← List.drop_append_of_le_length, List.take_append_drop]
  rw [List.length_take]
  omega

/-- Nothing behind the last branch back branches back. -/
theorem forward_of_lastBackward?_some {stmts : List Node} {i : Nat}
    (h : lastBackward? stmts = some i) : ∀ n ∈ stmts.drop (i + 1), isBackward n = false := by
  obtain ⟨j, hj, rfl⟩ := Option.map_eq_some_iff.mp h
  obtain ⟨hlt, -, hbefore⟩ := List.findIdx?_eq_some_iff_getElem.mp hj
  intro n hn
  obtain ⟨k, hk, rfl⟩ := List.mem_iff_getElem.mp hn
  rw [List.length_reverse] at hlt
  rw [List.length_drop] at hk
  have hback := hbefore (stmts.length - 1 - (stmts.length - 1 - j + 1 + k)) (by omega)
  rw [List.getElem_reverse] at hback
  rw [List.getElem_drop]
  have hplace : stmts.length - 1 - (stmts.length - 1 - (stmts.length - 1 - j + 1 + k)) =
      stmts.length - 1 - j + 1 + k := by omega
  simpa only [hplace, Bool.not_eq_true] using hback

/-! ## Where branches lead -/

/-- A branch to an address leads to where a list is split: the statements in front are below the
address, the first one behind is not, and the first of all is not above it. -/
structure Lands (target : Int) (front back : List Node) : Prop where
  first : ∀ n ∈ (front ++ back).head?, n.address ≤ target
  below : ∀ n ∈ front, n.address < target
  reached : ∀ n ∈ back.head?, target ≤ n.address

theorem locateFrom_splits {target : Int} {stmts : List Node} {start found : Nat}
    (h : locateFrom target start stmts = .ok found) :
    ∃ k, found = start + k ∧ (∀ n ∈ stmts.take k, n.address < target) ∧
      ∀ n ∈ (stmts.drop k).head?, target ≤ n.address := by
  induction stmts generalizing start with
  | nil => cases h
  | cons s rest ih =>
    by_cases hs : s = .missing
    · rw [hs, locateFrom] at h
      cases h
    · rw [locateFrom_cons hs] at h
      by_cases hle : target ≤ s.address
      · rw [if_pos hle] at h
        cases h
        exact ⟨0, rfl, by simp, by simpa using hle⟩
      · rw [if_neg hle] at h
        obtain ⟨k, rfl, hbelow, hreached⟩ := ih h
        refine ⟨k + 1, by omega, ?_, hreached⟩
        rw [List.take_succ_cons, List.forall_mem_cons]
        exact ⟨Int.lt_of_not_ge hle, hbelow⟩

theorem locate_lands {target : Int} {stmts : List Node} {found : Nat}
    (h : locate stmts target = .ok found) :
    Lands target (stmts.take found) (stmts.drop found) := by
  cases stmts with
  | nil => cases h
  | cons s rest =>
    by_cases hs : s = .missing
    · rw [hs, locate] at h
      cases h
    · rw [locate_cons hs] at h
      split_ifs at h with hlt
      obtain ⟨k, rfl, hbelow, hreached⟩ := locateFrom_splits h
      rw [Nat.zero_add]
      refine ⟨?_, hbelow, hreached⟩
      rw [List.take_append_drop]
      simpa using hlt

/-! ## Runs -/

/-- A run of recovery, without places. The statements in front are as they were, those in the middle
have been looked at, and recovery makes the list at the end of all of them. The last branch back in
front closes a loop, whose inside is recovered on its own. -/
inductive Recovers : List Node → List Node → List Node → Prop
  | straight {raw made : List Node} (forward : ∀ n ∈ raw, isBackward n = false) :
      Recovers raw made (raw ++ made)
  | numeric {x y z : Node} {e : Ends} {before inner after made body out : List Node}
      (lands : Lands (branchTarget e.endAddress e.offset) (before ++ [x, y, z, e.start])
        (inner ++ e.finish :: (after ++ made)))
      (forward : ∀ n ∈ after, isBackward n = false) (inside : Recovers inner [] body)
      (rest : Recovers before
        (.numericFor x.address e.var x y z (.block x.address body) :: (after ++ made)) out) :
      Recovers (before ++ x :: y :: z :: e.start :: (inner ++ e.finish :: after)) made out
  | region {a b offset : Int} {before inner after made body out : List Node} (back : offset < 0)
      (lands : Lands (branchTarget b offset) before (inner ++ .jump b offset :: (after ++ made)))
      (forward : ∀ n ∈ after, isBackward n = false) (inside : Recovers inner [] body)
      (rest : Recovers before (.block a (body ++ [.jump b offset]) :: (after ++ made)) out) :
      Recovers (before ++ (inner ++ .jump b offset :: after)) made out

/-- The last branch back is in front. -/
theorem last_lt {raw made : List Node} (hmade : ∀ n ∈ made, isBackward n = false) {i : Nat}
    (hlast : lastBackward? (raw ++ made) = some i) : i < raw.length := by
  obtain ⟨hlt, hback⟩ := lastBackward?_some hlast
  refine Nat.lt_of_not_le fun hge => ?_
  have hmem : nth (raw ++ made) i ∈ made := by
    rw [List.length_append] at hlt
    rw [nth, List.getD_append_right _ _ _ _ (by omega), List.getD_eq_getElem _ _ (by omega)]
    exact List.getElem_mem _
  rw [hmade _ hmem] at hback
  cases hback

/-- The last branch back parts the statements in front of it from forward ones. -/
theorem last_splits {raw made : List Node} (hmade : ∀ n ∈ made, isBackward n = false) {i : Nat}
    (hlast : lastBackward? (raw ++ made) = some i) :
    ∃ after, raw = (raw ++ made).take i ++ nth (raw ++ made) i :: after ∧
      (raw ++ made).drop (i + 1) = after ++ made ∧ ∀ n ∈ after, isBackward n = false := by
  have hlt := last_lt hmade hlast
  have hdrop : (raw ++ made).drop (i + 1) = raw.drop (i + 1) ++ made :=
    List.drop_append_of_le_length hlt
  refine ⟨raw.drop (i + 1), ?_, hdrop, fun n hn => ?_⟩
  · rw [List.take_append_of_le_length (Nat.le_of_lt hlt), nth_append_left hlt, ← drop_eq_nth_cons hlt,
      List.take_append_drop]
  · refine forward_of_lastBackward?_some hlast n ?_
    rw [hdrop]
    exact List.mem_append_left made hn

theorem take_eq_append_slice {stmts : List Node} {first last : Nat} (hle : first ≤ last) :
    stmts.take last = stmts.take first ++ slice stmts first last := by
  have htake : (stmts.take last).take first = stmts.take first := by
    rw [List.take_take, Nat.min_eq_left hle]
  rw [slice, ← htake, List.take_append_drop]

/-- The bounds and the start of a numeric loop stand in front of its body. -/
theorem prepared?_splits {stmts : List Node} {begins : Nat} {v : Register}
    (hprepared : prepared? stmts begins = some v) (hle : begins ≤ stmts.length) :
    ∃ a x y z, stmts.take begins = stmts.take (begins - 4) ++ [nth stmts (begins - 4),
      nth stmts (begins - 4 + 1), nth stmts (begins - 4 + 2), .forPrep a x y z v] := by
  have hfour := prepared?_ge hprepared
  have hstart : ∃ a x y z, nth stmts (begins - 4 + 3) = .forPrep a x y z v := by
    rw [show begins - 4 + 3 = begins - 1 by omega, nth, List.getD_eq_getElem _ _ (by omega)]
    rw [prepared?, if_neg (by omega), List.getElem?_eq_getElem (by omega)] at hprepared
    split at hprepared
    · rename_i a x y z w hw
      cases hprepared
      exact ⟨a, x, y, z, Option.some.inj hw⟩
    · cases hprepared
  obtain ⟨a, x, y, z, hstart⟩ := hstart
  have htake : ∀ k < stmts.length, stmts.take (k + 1) = stmts.take k ++ [nth stmts k] := by
    intro k hk
    rw [List.take_succ_eq_append_getElem hk, nth, List.getD_eq_getElem _ _ hk]
  refine ⟨a, x, y, z, ?_⟩
  rw [← hstart, show begins = begins - 4 + 3 + 1 by omega, htake _ (by omega), htake _ (by omega),
    htake _ (by omega), htake _ (by omega)]
  simp

/-- Where a branch that leads back splits a list with it. -/
theorem locate_splits {stmts : List Node} {target : Int} {begins i : Nat}
    (hlocate : locate stmts target = .ok begins) (hle : begins ≤ i) (hlt : i < stmts.length) :
    Lands target (stmts.take begins)
      (slice stmts begins i ++ nth stmts i :: stmts.drop (i + 1)) := by
  rw [← drop_eq_slice_append hle hlt]
  exact locate_lands hlocate

/-- One loop made: the run from what its inside was recovered to, and from the list with the loop. -/
theorem Recovers.close {raw made body out : List Node} {c : Closing}
    (hmade : ∀ n ∈ made, isBackward n = false) (hc : closing (raw ++ made) = .ok (some c))
    (hinside : Recovers c.inner [] body)
    (hrest : ∀ before after, c.apply (raw ++ made) body = before ++ after →
      (∀ n ∈ after, isBackward n = false) → Recovers before after out) :
    Recovers raw made out := by
  have hcloses := closing_closes (raw ++ made)
  rw [hc] at hcloses
  cases hcloses with
  | @numeric i begins address offset v hend hlocate hprepared hle =>
    obtain ⟨counter, hnode⟩ := hend.node
    have hlt := (lastBackward?_some hend.last).1
    obtain ⟨after, hraw, hdrop, hafter⟩ := last_splits hmade hend.last
    obtain ⟨a, x, y, z, hstart⟩ := prepared?_splits hprepared (by omega)
    have hlands := locate_splits hlocate hle hlt
    rw [hnode, hstart, hdrop] at hlands
    rw [hnode, take_eq_append_slice hle, hstart] at hraw
    have hrun := Recovers.numeric (e := ⟨a, x, y, z, v, address, counter, offset⟩) hlands hafter
      hinside (hrest _ _ (congrArg (fun ns => _ ++ _ :: ns) hdrop) ?_)
    · rw [hraw]
      simpa [Ends.start, Ends.finish] using hrun
    · simp only [List.mem_cons, List.mem_append]
      rintro n (rfl | hn | hn)
      · rfl
      · exact hafter n hn
      · exact hmade n hn
  | @region i begins address offset hend hlocate hle =>
    obtain ⟨hlt, hback⟩ := lastBackward?_some hend.last
    obtain ⟨after, hraw, hdrop, hafter⟩ := last_splits hmade hend.last
    have hlands := locate_splits hlocate hle hlt
    rw [hend.node, hdrop] at hlands
    rw [hend.node, take_eq_append_slice hle] at hraw
    rw [hend.node] at hback
    have hrun := Recovers.region (by simpa [isBackward] using hback) hlands hafter hinside
      (hrest _ _ (congrArg (fun ns => _ ++ _ :: ns) hdrop) ?_)
    · rw [hraw]
      simpa using hrun
    · simp only [List.mem_cons, List.mem_append]
      rintro n (rfl | hn | hn)
      · rfl
      · exact hafter n hn
      · exact hmade n hn

/-- Recovery is such a run. -/
theorem recovers_of_recover {raw made out : List Node} (hmade : ∀ n ∈ made, isBackward n = false)
    (h : recover (raw ++ made) = .ok out) : Recovers raw made out := by
  generalize hstmts : raw ++ made = stmts at h
  induction stmts using recover_induction generalizing raw made out with
  | step stmts ih =>
    subst hstmts
    rw [recover_eq] at h
    cases hc : closing (raw ++ made) with
    | error e =>
      rw [hc] at h
      cases h
    | ok found =>
      rw [hc] at h
      cases found with
      | none =>
        cases h
        have hcloses := closing_closes (raw ++ made)
        rw [hc] at hcloses
        cases hcloses with
        | straight hlast =>
          have hforward := forward_of_lastBackward? hlast
          exact .straight fun n hn => hforward n (List.mem_append_left made hn)
      | some c =>
        obtain ⟨hinner, happly⟩ := ih c hc
        dsimp only at h
        cases hbody : recover c.inner with
        | error e =>
          rw [hbody] at h
          cases h
        | ok body =>
          rw [hbody] at h
          refine .close hmade hc (hinner (by simp) (List.append_nil _) hbody) ?_
          intro before after hsplit hafter
          exact happly body hafter hsplit.symm h

/-! ## What a run leaves -/

/-- What a run over flat statements leaves is recovered, and none of it branches back. A bound of a
numeric loop stands in front of the last branch back, where the statements are as they were. -/
theorem Recovers.recovered {raw made out : List Node} (h : Recovers raw made out)
    (hraw : ∀ n ∈ raw, n.Flat) (hmade : ∀ n ∈ made, n.Recovered)
    (hforward : ∀ n ∈ made, isBackward n = false) :
    (∀ n ∈ out, n.Recovered) ∧ ∀ n ∈ out, isBackward n = false := by
  induction h with
  | straight forward =>
    simp only [List.forall_mem_append]
    exact ⟨⟨fun n hn => .flat (hraw n hn), hmade⟩, forward, hforward⟩
  | @numeric x y z e before inner after made body out _ forward _ _ ihinside ihrest =>
    simp only [List.forall_mem_append, List.forall_mem_cons] at hraw
    obtain ⟨hbefore, hx, hy, hz, -, hinner, -, hafter⟩ := hraw
    obtain ⟨hbody, hbodyForward⟩ := ihinside hinner (by simp) (by simp)
    have hloop : (Node.numericFor x.address e.var x y z (.block x.address body)).Recovered :=
      .numeric hx hy hz hbody hbodyForward
    refine ihrest hbefore ?_ ?_
    · simp only [List.forall_mem_append, List.forall_mem_cons]
      exact ⟨hloop, fun n hn => .flat (hafter n hn), hmade⟩
    · simp only [List.forall_mem_append, List.forall_mem_cons]
      exact ⟨rfl, forward, hforward⟩
  | @region a b offset before inner after made body out back _ forward _ _ ihinside ihrest =>
    simp only [List.forall_mem_append, List.forall_mem_cons] at hraw
    obtain ⟨hbefore, hinner, -, hafter⟩ := hraw
    obtain ⟨hbody, hbodyForward⟩ := ihinside hinner (by simp) (by simp)
    have hloop : (Node.block a (body ++ [.jump b offset])).Recovered := .region hbody hbodyForward back
    refine ihrest hbefore ?_ ?_
    · simp only [List.forall_mem_append, List.forall_mem_cons]
      exact ⟨hloop, fun n hn => .flat (hafter n hn), hmade⟩
    · simp only [List.forall_mem_append, List.forall_mem_cons]
      exact ⟨rfl, forward, hforward⟩

/-- Recovery of flat statements leaves recovered ones, none of which branches back. -/
theorem recover_recovered {stmts out : List Node} (hstmts : ∀ n ∈ stmts, n.Flat)
    (h : recover stmts = .ok out) :
    (∀ n ∈ out, n.Recovered) ∧ ∀ n ∈ out, isBackward n = false := by
  rw [← List.append_nil stmts] at h
  exact (recovers_of_recover (by simp) h).recovered hstmts (by simp) (by simp)

/-! ## What a run unrolls to -/

/-- What a run makes unrolls to the statements that it was given. -/
theorem Recovers.unrolls {raw made out done : List Node} {ends : List Ends}
    (h : Recovers raw made out) (hraw : ∀ n ∈ raw, n.isSimple) (hmade : Unrolls made ends done) :
    ∃ ends, Unrolls out ends (raw ++ done) := by
  induction h generalizing done ends with
  | straight => exact ⟨ends, hmade.simples_append hraw⟩
  | @numeric x y z e before inner after made body out lands forward _ _ ihinside ihrest =>
    simp only [List.forall_mem_append, List.forall_mem_cons] at hraw
    obtain ⟨hbefore, hx, hy, hz, -, hinner, -, hafter⟩ := hraw
    obtain ⟨ends', hbody⟩ := ihinside hinner .nil
    rw [List.append_nil] at hbody
    have hloop := Unrolls.numeric (a := x.address) (b := x.address) (e := e) hx hy hz hbody
      (hmade.simples_append hafter)
    simpa using ihrest hbefore hloop
  | @region a b offset before inner after made body out back lands forward _ _ ihinside ihrest =>
    simp only [List.forall_mem_append, List.forall_mem_cons] at hraw
    obtain ⟨hbefore, hinner, -, hafter⟩ := hraw
    obtain ⟨ends', hbody⟩ := ihinside hinner .nil
    rw [List.append_nil] at hbody
    have hloop := Unrolls.region (a := a) (hbody.append_simple (n := .jump b offset) rfl)
      (hmade.simples_append hafter)
    simpa using ihrest hbefore hloop

/-- A list on the way: in front the statements as they were, and behind them some that do not branch
back and unroll. Unrolled, the whole is `flat`. -/
structure Unfinished (raw made flat : List Node) : Prop where
  simple : ∀ n ∈ raw, n.isSimple
  forward : ∀ n ∈ made, isBackward n = false
  unrolls : ∃ ends done, flat = raw ++ done ∧ Unrolls made ends done

/-- A list of simple statements that nothing was done to. -/
theorem Unfinished.start {stmts : List Node} (h : ∀ n ∈ stmts, n.isSimple) :
    Unfinished stmts [] stmts :=
  ⟨h, by simp, [], [], (List.append_nil _).symm, .nil⟩

/-- What recovery gives unrolls to the list it was given. -/
theorem Unfinished.run {raw made flat out : List Node} (h : Unfinished raw made flat)
    (hrecover : recover (raw ++ made) = .ok out) : ∃ ends, Unrolls out ends flat := by
  obtain ⟨ends, done, rfl, hmade⟩ := h.unrolls
  exact (recovers_of_recover h.forward hrecover).unrolls h.simple hmade

/-- What recovery makes of simple statements unrolls to them. -/
theorem recover_unrolls {stmts out : List Node} (hstmts : ∀ n ∈ stmts, n.isSimple)
    (h : recover stmts = .ok out) : ∃ ends, Unrolls out ends stmts := by
  rw [← List.append_nil stmts] at h
  exact (Unfinished.start hstmts).run h

/-- **Loop recovery loses, doubles and moves nothing.** Each numeric loop has a start with its variable
and an end, such that the recovered list unrolls to the list it was made of. So only these starts and
ends are not in the tree, and every other statement is there as often as before. -/
theorem unrolls_recover {stmts out : List Node} (hstmts : ∀ n ∈ stmts, n.isSimple)
    (h : recover stmts = .ok out) :
    ∃ ends, Unrolls out ends stmts ∧
      stmts.Perm (Node.simplesAll out ++ ends.flatMap Ends.marks) := by
  obtain ⟨ends, hends⟩ := recover_unrolls hstmts h
  exact ⟨ends, hends, hends.perm⟩

/-- A load of a register at an address. -/
def load (address index : Int) : Node :=
  .assign address [.register ⟨0, address, index, 0⟩] [.number address .zero] false

/-- The start of the numeric loop over four registers. -/
def loopStart (address first : Int) : Node :=
  .forPrep address (Lower.reg address first) (Lower.reg address (first + 1))
    (Lower.reg address (first + 2)) ⟨0, address, first + 3, 0⟩

/-- A numeric loop inside a numeric loop inside a region. -/
def nestedLoops : List Node :=
  [load 0 0, load 4 1, load 8 2, loopStart 12 0, load 16 4, load 20 5, load 24 6, loopStart 28 4,
    load 32 9, .forLoop 36 (Lower.reg 36 4) (-2), .forLoop 40 (Lower.reg 40 0) (-7), .jump 44 (-12)]

theorem unrolls_recover_nestedLoops :
    ∃ out, recover nestedLoops = .ok out ∧ out.length = 1 ∧ (∀ n ∈ nestedLoops, n.isSimple) ∧
      ∃ ends, Unrolls out ends nestedLoops ∧
        nestedLoops.Perm (Node.simplesAll out ++ ends.flatMap Ends.marks) := by
  have hsimple : ∀ n ∈ nestedLoops, n.isSimple := by
    simp only [← List.all_eq_true]
    rfl
  have hone : (recover nestedLoops).toOption.any fun out => out.length = 1 := by decide +kernel
  obtain ⟨out, hout, hone⟩ := exists_ok_of_any hone
  exact ⟨out, hout, by simpa using hone, hsimple, unrolls_recover hsimple hout⟩

end Loops

end HavokScript
