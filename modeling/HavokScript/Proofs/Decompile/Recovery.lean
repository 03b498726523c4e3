import HavokScript.Decompile.Loops
import HavokScript.Proofs.Decompile.Lowering
import Mathlib.Tactic.SplitIfs

/-!
# How loops are recovered

The last branch back of a list closes a loop (`closing`), and recovery makes that loop and goes on
(`recover_eq`). Both lists that it goes on with have fewer branches back, which is the induction
behind everything said about recovery (`recover_induction`).

A branch that leads back leads to a statement in front of it. So the only branch without a loop is
the end of a numeric loop that leads forward, behind a loop start that stands after it: `Overruns`
is the list on which recovery meets one, and `recover_outcome` says that recovery breaks there and
nowhere else.
-/

namespace HavokScript.Loops

/-! ## The loop of the last branch back -/

/-- A loop that is about to be recovered. -/
structure Closing where
  /-- the place of its first statement -/
  first : Nat
  /-- the place of its branch back -/
  last : Nat
  /-- the statements inside -/
  inner : List Node
  /-- the loop, from the recovered statements inside -/
  close : List Node → Node

/-- The numeric loop whose body is from place `begins` to place `i`. -/
def numericLoop (stmts : List Node) (begins i : Nat) (v : Register) : Closing :=
  let first := begins - 4
  let at_ := (nth stmts first).address
  ⟨first, i, slice stmts begins i, fun body =>
    .numericFor at_ v (nth stmts first) (nth stmts (first + 1)) (nth stmts (first + 2))
      (.block at_ body)⟩

/-- The region from place `begins` to the jump at place `i`. -/
def region (stmts : List Node) (begins i : Nat) (address offset : Int) : Closing :=
  let at_ := (nth stmts begins).address
  ⟨begins, i, slice stmts begins i, fun inner => .block at_ (inner ++ [.jump address offset])⟩

/-- The loop that the last branch back closes. -/
def closing (stmts : List Node) : Except DecompileError (Option Closing) :=
  match lastBackward? stmts with
  | none => return none
  | some i =>
    match nth stmts i with
    | .forLoop address _ offset => do
      let begins ← locate stmts (branchTarget address offset)
      match prepared? stmts begins with
      | none => throw (.failed address none .badForPrep)
      | some v => if i < begins then throw .broken else return some (numericLoop stmts begins i v)
    | .jump address offset => do
      let begins ← locate stmts (branchTarget address offset)
      if i < begins then throw .broken else return some (region stmts begins i address offset)
    | _ => return none

/-- The statements with the loop made. -/
def Closing.apply (c : Closing) (stmts body : List Node) : List Node :=
  splice stmts c.first c.last (c.close body)

theorem recoverWith_succ (steps : Nat) (stmts : List Node) :
    recoverWith (steps + 1) stmts =
      match closing stmts with
      | .error e => .error e
      | .ok none => .ok stmts
      | .ok (some c) =>
        recoverWith steps c.inner >>= fun body => recoverWith steps (c.apply stmts body) := by
  rw [recoverWith, closing]
  cases lastBackward? stmts with
  | none => rfl
  | some i =>
    dsimp only
    cases nth stmts i with
    | forLoop address counter offset =>
      dsimp only
      cases locate stmts (branchTarget address offset) with
      | error e => rfl
      | ok begins =>
        simp only [bind, Except.bind]
        cases prepared? stmts begins with
        | none => rfl
        | some v =>
          dsimp only
          split_ifs <;> rfl
    | jump address offset =>
      dsimp only
      cases locate stmts (branchTarget address offset) with
      | error e => rfl
      | ok begins =>
        simp only [bind, Except.bind]
        split_ifs <;> rfl
    | _ => rfl

/-! ## Places -/

theorem lastBackward?_some {stmts : List Node} {i : Nat} (h : lastBackward? stmts = some i) :
    i < stmts.length ∧ isBackward (nth stmts i) := by
  obtain ⟨j, hj, rfl⟩ := Option.map_eq_some_iff.mp h
  obtain ⟨hlt, hback, -⟩ := List.findIdx?_eq_some_iff_getElem.mp hj
  rw [List.length_reverse] at hlt
  rw [List.getElem_reverse] at hback
  refine ⟨by omega, ?_⟩
  rw [nth, List.getD_eq_getElem?_getD, List.getElem?_eq_getElem (by omega)]
  exact hback

theorem lastBackward?_none {stmts : List Node} (h : backwardCount stmts = 0) :
    lastBackward? stmts = none := by
  unfold lastBackward?
  rw [Option.map_eq_none_iff, List.findIdx?_eq_none_iff]
  intro n hn
  rw [List.mem_reverse] at hn
  have := List.countP_eq_zero.mp h n hn
  simpa using this

theorem locateFrom_cons {s : Node} (hs : s ≠ .missing) (target : Int) (start : Nat)
    (rest : List Node) : locateFrom target start (s :: rest) =
      if target ≤ s.address then .ok start else locateFrom target (start + 1) rest := by
  rw [locateFrom]
  exact hs

/-- A target at or before the address of a statement is found at that statement or in front. -/
theorem locateFrom_le {target : Int} {stmts : List Node} (hstmts : ∀ n ∈ stmts, n ≠ .missing)
    {start found i : Nat} (hi : i < stmts.length) (hat : target ≤ (nth stmts i).address)
    (h : locateFrom target start stmts = .ok found) : found ≤ start + i := by
  induction stmts generalizing start i with
  | nil => exact absurd hi (Nat.not_lt_zero i)
  | cons s rest ih =>
    rw [List.forall_mem_cons] at hstmts
    rw [locateFrom_cons hstmts.1] at h
    by_cases hs : target ≤ s.address
    · rw [if_pos hs] at h
      cases h
      omega
    · rw [if_neg hs] at h
      cases i with
      | zero => exact absurd hat hs
      | succ i =>
        have := ih hstmts.2 (Nat.lt_of_succ_lt_succ hi) hat h
        omega

theorem locateFrom_error {target : Int} {stmts : List Node} (hstmts : ∀ n ∈ stmts, n ≠ .missing)
    {start : Nat} {e : DecompileError} (h : locateFrom target start stmts = .error e) :
    e = .failed target none .locationNotFound := by
  induction stmts generalizing start with
  | nil =>
    cases h
    rfl
  | cons s rest ih =>
    rw [List.forall_mem_cons] at hstmts
    rw [locateFrom_cons hstmts.1] at h
    split_ifs at h
    exact ih hstmts.2 h

theorem locate_cons {s : Node} (hs : s ≠ .missing) (target : Int) (rest : List Node) :
    locate (s :: rest) target =
      if target < s.address then .error (.failed target none .locationNotFound)
      else locateFrom target 0 (s :: rest) := by
  rw [locate]
  exact hs

theorem locate_le {target : Int} {stmts : List Node} (hstmts : ∀ n ∈ stmts, n ≠ .missing)
    {found i : Nat} (hi : i < stmts.length) (hat : target ≤ (nth stmts i).address)
    (h : locate stmts target = .ok found) : found ≤ i := by
  cases stmts with
  | nil => exact absurd hi (Nat.not_lt_zero i)
  | cons s rest =>
    rw [locate_cons (hstmts s (by simp))] at h
    split_ifs at h
    have := locateFrom_le hstmts hi hat h
    omega

theorem locate_error {target : Int} {stmts : List Node} (hstmts : ∀ n ∈ stmts, n ≠ .missing)
    {e : DecompileError} (h : locate stmts target = .error e) :
    e = .failed target none .locationNotFound := by
  cases stmts with
  | nil =>
    cases h
    rfl
  | cons s rest =>
    rw [locate_cons (hstmts s (by simp))] at h
    split_ifs at h
    · cases h
      rfl
    · exact locateFrom_error hstmts h

/-! ## What the last branch back can close -/

/-- The end of a numeric loop stands at a place and leads to another. -/
structure NumericEnd (stmts : List Node) (i : Nat) (address offset : Int) : Prop where
  last : lastBackward? stmts = some i
  node : ∃ counter, nth stmts i = .forLoop address counter offset

/-- The last branch back is a backward jump. -/
structure RegionEnd (stmts : List Node) (i : Nat) (address offset : Int) : Prop where
  last : lastBackward? stmts = some i
  node : nth stmts i = .jump address offset

/-- Everything that the last branch back can do. -/
inductive Closes (stmts : List Node) : Except DecompileError (Option Closing) → Prop
  | straight (hlast : lastBackward? stmts = none) : Closes stmts (.ok none)
  | numeric {i begins : Nat} {address offset : Int} {v : Register}
      (hend : NumericEnd stmts i address offset)
      (hlocate : locate stmts (branchTarget address offset) = .ok begins)
      (hprepared : prepared? stmts begins = some v) (hle : begins ≤ i) :
      Closes stmts (.ok (some (numericLoop stmts begins i v)))
  | region {i begins : Nat} {address offset : Int} (hend : RegionEnd stmts i address offset)
      (hlocate : locate stmts (branchTarget address offset) = .ok begins) (hle : begins ≤ i) :
      Closes stmts (.ok (some (region stmts begins i address offset)))
  | lost {target : Int} {e : DecompileError} (hlocate : locate stmts target = .error e) :
      Closes stmts (.error e)
  | unprepared {i begins : Nat} {address offset : Int} (hend : NumericEnd stmts i address offset)
      (hlocate : locate stmts (branchTarget address offset) = .ok begins)
      (hprepared : prepared? stmts begins = none) :
      Closes stmts (.error (.failed address none .badForPrep))
  | past {i begins : Nat} {address offset : Int} {v : Register}
      (hend : NumericEnd stmts i address offset)
      (hlocate : locate stmts (branchTarget address offset) = .ok begins)
      (hprepared : prepared? stmts begins = some v) (hlt : i < begins) :
      Closes stmts (.error .broken)
  | behind {i begins : Nat} {address offset : Int} (hend : RegionEnd stmts i address offset)
      (hlocate : locate stmts (branchTarget address offset) = .ok begins) (hlt : i < begins) :
      Closes stmts (.error .broken)

theorem closing_closes (stmts : List Node) : Closes stmts (closing stmts) := by
  unfold closing
  cases hlast : lastBackward? stmts with
  | none => exact .straight hlast
  | some i =>
    dsimp only
    have hback := (lastBackward?_some hlast).2
    cases hn : nth stmts i with
    | forLoop address counter offset =>
      have hend : NumericEnd stmts i address offset := ⟨hlast, counter, hn⟩
      dsimp only
      cases hlocate : locate stmts (branchTarget address offset) with
      | error e => exact .lost hlocate
      | ok begins =>
        simp only [bind, Except.bind]
        cases hprepared : prepared? stmts begins with
        | none => exact .unprepared hend hlocate hprepared
        | some v =>
          dsimp only
          by_cases hlt : i < begins
          · rw [if_pos hlt]
            exact .past hend hlocate hprepared hlt
          · rw [if_neg hlt]
            exact .numeric hend hlocate hprepared (Nat.le_of_not_lt hlt)
    | jump address offset =>
      have hend : RegionEnd stmts i address offset := ⟨hlast, hn⟩
      dsimp only
      cases hlocate : locate stmts (branchTarget address offset) with
      | error e => exact .lost hlocate
      | ok begins =>
        simp only [bind, Except.bind]
        by_cases hlt : i < begins
        · rw [if_pos hlt]
          exact .behind hend hlocate hlt
        · rw [if_neg hlt]
          exact .region hend hlocate (Nat.le_of_not_lt hlt)
    | _ =>
      rw [hn] at hback
      cases hback

/-! ## Fewer branches back -/

/-- What is known of a loop that the last branch back closes. -/
structure Closing.Sound (c : Closing) (stmts : List Node) : Prop where
  first_le : c.first ≤ c.last
  last_lt : c.last < stmts.length
  branch : isBackward (nth stmts c.last)
  inner : ∃ begins, c.first ≤ begins ∧ c.inner = slice stmts begins c.last
  forward : ∀ body, isBackward (c.close body) = false
  present : ∀ body, c.close body ≠ .missing

theorem closing_sound {stmts : List Node} {c : Closing} (h : closing stmts = .ok (some c)) :
    c.Sound stmts := by
  have hcloses := closing_closes stmts
  rw [h] at hcloses
  cases hcloses with
  | @numeric i begins address offset v hend _ _ hle =>
    obtain ⟨hlt, hback⟩ := lastBackward?_some hend.last
    exact ⟨Nat.le_trans (Nat.sub_le _ _) hle, hlt, hback, ⟨begins, Nat.sub_le _ _, rfl⟩,
      fun _ => rfl, fun _ => nofun⟩
  | @region i begins address offset hend _ hle =>
    obtain ⟨hlt, hback⟩ := lastBackward?_some hend.last
    exact ⟨hle, hlt, hback, ⟨begins, Nat.le_refl _, rfl⟩, fun _ => rfl, fun _ => nofun⟩

theorem backwardCount_take_drop (stmts : List Node) (i : Nat) :
    backwardCount (stmts.take i) + backwardCount (stmts.drop i) = backwardCount stmts := by
  unfold backwardCount
  rw [← List.countP_append, List.take_append_drop]

theorem backwardCount_drop {stmts : List Node} {i : Nat} (hi : i < stmts.length)
    (hback : isBackward (nth stmts i)) :
    backwardCount (stmts.drop i) = backwardCount (stmts.drop (i + 1)) + 1 := by
  unfold backwardCount
  rw [List.drop_eq_getElem_cons hi, List.countP_cons_of_pos]
  rwa [nth, List.getD_eq_getElem?_getD, List.getElem?_eq_getElem hi] at hback

theorem backwardCount_take_le (stmts : List Node) {i j : Nat} (h : i ≤ j) :
    backwardCount (stmts.take i) ≤ backwardCount (stmts.take j) :=
  List.Sublist.countP_le (List.take_sublist_take_left h)

theorem Closing.Sound.inner_lt {c : Closing} {stmts : List Node} (h : c.Sound stmts) :
    backwardCount c.inner < backwardCount stmts := by
  obtain ⟨begins, -, hinner⟩ := h.inner
  have hsplit := backwardCount_take_drop stmts c.last
  have hdrop := backwardCount_drop h.last_lt h.branch
  have hslice : backwardCount (slice stmts begins c.last) ≤ backwardCount (stmts.take c.last) :=
    List.Sublist.countP_le (List.drop_sublist _ _)
  rw [hinner]
  omega

theorem Closing.Sound.apply_lt {c : Closing} {stmts : List Node} (h : c.Sound stmts)
    (body : List Node) : backwardCount (c.apply stmts body) < backwardCount stmts := by
  have hsplit := backwardCount_take_drop stmts c.last
  have hdrop := backwardCount_drop h.last_lt h.branch
  have htake := backwardCount_take_le stmts h.first_le
  have happly : backwardCount (c.apply stmts body) =
      backwardCount (stmts.take c.first) + backwardCount (stmts.drop (c.last + 1)) := by
    unfold Closing.apply splice backwardCount
    rw [List.countP_append, List.countP_cons_of_neg (by simp [h.forward body])]
  omega

/-- Once there are as many steps as branches back, further steps change nothing. -/
theorem recoverWith_steps {j k : Nat} {stmts : List Node} (hj : backwardCount stmts ≤ j)
    (hk : backwardCount stmts ≤ k) : recoverWith j stmts = recoverWith k stmts := by
  induction j generalizing k stmts with
  | zero =>
    have hlast := lastBackward?_none (Nat.le_zero.mp hj)
    cases k with
    | zero => rfl
    | succ k => rw [recoverWith_succ, closing, hlast]; rfl
  | succ j ih =>
    cases k with
    | zero =>
      have hlast := lastBackward?_none (Nat.le_zero.mp hk)
      rw [recoverWith_succ, closing, hlast]
      rfl
    | succ k =>
      rw [recoverWith_succ, recoverWith_succ]
      cases hc : closing stmts with
      | error e => rfl
      | ok found =>
        cases found with
        | none => rfl
        | some c =>
          have hsound := closing_sound hc
          have hinner := hsound.inner_lt
          have happly := hsound.apply_lt
          dsimp only
          rw [ih (k := k) (by omega) (by omega)]
          congr 1
          funext body
          have := happly body
          exact ih (by omega) (by omega)

/-- Recovery makes the loop of the last branch back, from its recovered inside, and goes on. -/
theorem recover_eq (stmts : List Node) :
    recover stmts =
      match closing stmts with
      | .error e => .error e
      | .ok none => .ok stmts
      | .ok (some c) => recover c.inner >>= fun body => recover (c.apply stmts body) := by
  have hstep : recover stmts = recoverWith (backwardCount stmts + 1) stmts :=
    recoverWith_steps (Nat.le_refl _) (Nat.le_succ _)
  rw [hstep, recoverWith_succ]
  cases hc : closing stmts with
  | error e => rfl
  | ok found =>
    cases found with
    | none => rfl
    | some c =>
      have hsound := closing_sound hc
      dsimp only
      rw [recoverWith_steps (Nat.le_of_lt hsound.inner_lt) (Nat.le_refl _)]
      congr 1
      funext body
      exact recoverWith_steps (Nat.le_of_lt (hsound.apply_lt body)) (Nat.le_refl _)

/-- What holds of a list if it holds of the two lists that recovery goes on with holds of every
list. -/
theorem recover_induction {motive : List Node → Prop}
    (step : ∀ stmts, (∀ c, closing stmts = .ok (some c) →
      motive c.inner ∧ ∀ body, motive (c.apply stmts body)) → motive stmts)
    (stmts : List Node) : motive stmts := by
  generalize hk : backwardCount stmts = k
  induction k using Nat.strongRecOn generalizing stmts with
  | ind k ih =>
    refine step stmts fun c hc => ?_
    have hsound := closing_sound hc
    exact ⟨ih _ (hk ▸ hsound.inner_lt) _ rfl, fun body => ih _ (hk ▸ hsound.apply_lt body) _ rfl⟩

/-! ## Broken loops -/

/-- The last branch back is the end of a numeric loop that leads forward past itself, behind a loop
start that stands after it. -/
def Past (stmts : List Node) : Prop :=
  ∃ i begins address offset v, NumericEnd stmts i address offset ∧
    locate stmts (branchTarget address offset) = .ok begins ∧
    prepared? stmts begins = some v ∧ i < begins

/-- Recovery meets the end of a numeric loop that leads past itself: as the last branch back, inside
the loop of the last branch back, or after this loop was made. -/
inductive Overruns : List Node → Prop
  | here {stmts : List Node} (h : Past stmts) : Overruns stmts
  | inside {stmts : List Node} {c : Closing} (hc : closing stmts = .ok (some c))
      (h : Overruns c.inner) : Overruns stmts
  | after {stmts body : List Node} {c : Closing} (hc : closing stmts = .ok (some c))
      (hbody : recover c.inner = .ok body) (h : Overruns (c.apply stmts body)) : Overruns stmts

/-- No statement is missing, and branches back do not lead behind themselves. -/
def Settled (stmts : List Node) : Prop := ∀ n ∈ stmts, n ≠ .missing ∧ n.Grounded

theorem nth_mem {stmts : List Node} {i : Nat} (h : i < stmts.length) : nth stmts i ∈ stmts := by
  rw [nth, List.getD_eq_getElem?_getD, List.getElem?_eq_getElem h]
  exact List.getElem_mem h

theorem mem_inner {stmts : List Node} {c : Closing} (hc : closing stmts = .ok (some c)) {n : Node}
    (hn : n ∈ c.inner) : n ∈ stmts := by
  obtain ⟨begins, -, hinner⟩ := (closing_sound hc).inner
  rw [hinner] at hn
  exact List.mem_of_mem_take (List.mem_of_mem_drop hn)

theorem mem_apply {stmts body : List Node} {c : Closing} {n : Node}
    (hn : n ∈ c.apply stmts body) : n ∈ stmts ∨ n = c.close body := by
  rcases List.mem_append.mp hn with hn | hn
  · exact .inl (List.mem_of_mem_take hn)
  · rcases List.mem_cons.mp hn with hn | hn
    · exact .inr hn
    · exact .inl (List.mem_of_mem_drop hn)

theorem grounded_of_forward {n : Node} (h : isBackward n = false) : n.Grounded := by
  cases n with
  | jump a offset =>
    intro hback
    have : ¬ offset < 0 := by simpa [isBackward] using h
    omega
  | forLoop a counter offset => exact absurd h (by simp [isBackward])
  | _ => trivial

theorem Settled.inner {stmts : List Node} {c : Closing} (h : Settled stmts)
    (hc : closing stmts = .ok (some c)) : Settled c.inner :=
  fun n hn => h n (mem_inner hc hn)

theorem Settled.apply {stmts : List Node} {c : Closing} (h : Settled stmts)
    (hc : closing stmts = .ok (some c)) (body : List Node) : Settled (c.apply stmts body) := by
  intro n hn
  have hsound := closing_sound hc
  rcases mem_apply hn with hn | rfl
  · exact h n hn
  · exact ⟨hsound.present body, grounded_of_forward (hsound.forward body)⟩

/-- A branch that leads back is found to lead to a place in front of it. -/
theorem Settled.locate_le {stmts : List Node} (h : Settled stmts) {i begins : Nat} {target : Int}
    (hlast : lastBackward? stmts = some i) (htarget : target ≤ (nth stmts i).address)
    (hlocate : locate stmts target = .ok begins) : begins ≤ i :=
  Loops.locate_le (fun n hn => (h n hn).1) (lastBackward?_some hlast).1 htarget hlocate

theorem Settled.region_le {stmts : List Node} (h : Settled stmts) {i begins : Nat}
    {address offset : Int} (hend : RegionEnd stmts i address offset)
    (hlocate : locate stmts (branchTarget address offset) = .ok begins) : begins ≤ i := by
  obtain ⟨hlt, hback⟩ := lastBackward?_some hend.last
  have hgrounded := (h _ (nth_mem hlt)).2
  refine h.locate_le hend.last ?_ hlocate
  rw [hend.node] at hback hgrounded ⊢
  exact hgrounded (by simpa [isBackward] using hback)

theorem Settled.numeric_le {stmts : List Node} (h : Settled stmts) {i begins : Nat}
    {address offset : Int} (hend : NumericEnd stmts i address offset) (hoffset : offset < 0)
    (hlocate : locate stmts (branchTarget address offset) = .ok begins) : begins ≤ i := by
  obtain ⟨counter, hn⟩ := hend.node
  have hgrounded := (h _ (nth_mem (lastBackward?_some hend.last).1)).2
  refine h.locate_le hend.last ?_ hlocate
  rw [hn] at hgrounded ⊢
  exact hgrounded hoffset

theorem closing_past {stmts : List Node} (h : Past stmts) : closing stmts = .error .broken := by
  obtain ⟨i, begins, address, offset, v, ⟨hlast, counter, hn⟩, hlocate, hprepared, hlt⟩ := h
  unfold closing
  simp only [hlast, hn, hlocate, hprepared, bind, Except.bind, if_pos hlt]
  rfl

theorem closing_error {stmts : List Node} (hstmts : Settled stmts) {e : DecompileError}
    (h : closing stmts = .error e) :
    e = .broken ∧ Past stmts ∨ ∃ a cause, e = .failed a none cause ∧ cause.Declared := by
  have hcloses := closing_closes stmts
  rw [h] at hcloses
  cases hcloses with
  | @lost target _ hlocate =>
    exact .inr ⟨target, _, locate_error (fun n hn => (hstmts n hn).1) hlocate, trivial⟩
  | @unprepared i begins address offset => exact .inr ⟨address, _, rfl, trivial⟩
  | past hend hlocate hprepared hlt =>
    exact .inl ⟨rfl, _, _, _, _, _, hend, hlocate, hprepared, hlt⟩
  | behind hend hlocate hlt => exact absurd (hstmts.region_le hend hlocate) (Nat.not_le_of_lt hlt)

theorem overruns_iff {stmts : List Node} {c : Closing} (hc : closing stmts = .ok (some c)) :
    Overruns stmts ↔
      Overruns c.inner ∨ ∃ body, recover c.inner = .ok body ∧ Overruns (c.apply stmts body) := by
  constructor
  · intro h
    cases h with
    | here h =>
      rw [closing_past h] at hc
      cases hc
    | inside hc' h =>
      rw [hc'] at hc
      cases hc
      exact .inl h
    | after hc' hbody h =>
      rw [hc'] at hc
      cases hc
      exact .inr ⟨_, hbody, h⟩
  · rintro (h | ⟨body, hbody, h⟩)
    · exact .inside hc h
    · exact .after hc hbody h

theorem not_overruns {stmts : List Node} (hc : ∀ c, closing stmts ≠ .ok (some c))
    (hpast : closing stmts ≠ .error .broken) : ¬ Overruns stmts := by
  intro h
  cases h with
  | here h => exact hpast (closing_past h)
  | inside h _ => exact hc _ h
  | after h _ _ => exact hc _ h

/-- Recovery breaks exactly on lists that overrun; any other failure names an address. -/
theorem recover_outcome {stmts : List Node} (hstmts : Settled stmts) :
    Outcome (fun _ => ¬ Overruns stmts)
      (fun e => e = .broken ∧ Overruns stmts ∨
        ¬ Overruns stmts ∧ ∃ a cause, e = .failed a none cause ∧ cause.Declared)
      (recover stmts) := by
  induction stmts using recover_induction with
  | step stmts ih =>
    rw [recover_eq]
    cases hc : closing stmts with
    | error e =>
      rcases closing_error hstmts hc with ⟨rfl, hpast⟩ | ⟨a, cause, rfl, hcause⟩
      · exact .inl ⟨rfl, .here hpast⟩
      · exact .inr ⟨not_overruns (by simp [hc]) (by simp [hc]), a, cause, rfl, hcause⟩
    | ok found =>
      cases found with
      | none => exact not_overruns (by simp [hc]) (by simp [hc])
      | some c =>
        obtain ⟨hinner, happly⟩ := ih c hc
        have hinner := hinner (hstmts.inner hc)
        dsimp only
        cases hbody : recover c.inner with
        | error e =>
          -- The loop is never made, so only its inside can overrun.
          rw [hbody] at hinner
          have hiff : Overruns stmts ↔ Overruns c.inner := by
            rw [overruns_iff hc, hbody]
            simp
          rw [hiff]
          exact hinner
        | ok body =>
          rw [hbody] at hinner
          have hiff : Overruns stmts ↔ Overruns (c.apply stmts body) := by
            have hinner : ¬ Overruns c.inner := hinner
            rw [overruns_iff hc, hbody]
            simp [hinner]
          rw [hiff]
          exact happly body (hstmts.apply hc body)

/-- Only the end of a numeric loop that does not lead back overruns. -/
theorem overruns_forward {stmts : List Node} (h : Overruns stmts) (hstmts : Settled stmts) :
    ∃ address counter offset, Node.forLoop address counter offset ∈ stmts ∧ 0 ≤ offset := by
  induction h with
  | here h =>
    obtain ⟨i, begins, address, offset, v, hend, hlocate, -, hlt⟩ := h
    obtain ⟨counter, hn⟩ := hend.node
    refine ⟨address, counter, offset, hn ▸ nth_mem (lastBackward?_some hend.last).1, ?_⟩
    -- A negative offset leads in front of the branch, where it does not overrun.
    by_cases hneg : offset < 0
    · have := hstmts.numeric_le hend hneg hlocate
      omega
    · omega
  | inside hc _ ih =>
    obtain ⟨address, counter, offset, hmem, hoffset⟩ := ih (hstmts.inner hc)
    exact ⟨address, counter, offset, mem_inner hc hmem, hoffset⟩
  | @after stmts body c hc _ _ ih =>
    obtain ⟨address, counter, offset, hmem, hoffset⟩ := ih (hstmts.apply hc body)
    rcases mem_apply hmem with hmem | hmem
    · exact ⟨address, counter, offset, hmem, hoffset⟩
    · have hforward := (closing_sound hc).forward body
      rw [← hmem] at hforward
      cases hforward

end HavokScript.Loops

/-! ## Recovered trees -/

namespace HavokScript

/-- Whether the statement is a backward jump. -/
def Node.jumpsBack : Node → Bool
  | .jump _ offset => offset < 0
  | _ => false

/-- Whether a backward jump closes the list. -/
def Node.endsBack (ns : List Node) : Bool := ns.getLast?.any Node.jumpsBack

mutual

/-- The statement lists of the loops in a recovered tree: the blocks that a backward jump closes, and
the bodies of numeric loops. -/
def Node.loops : Node → List (List Node)
  | .block _ body => (if Node.endsBack body then [body] else []) ++ Node.loopsAll body
  | .numericFor _ _ init limit step body =>
    init.loops ++ limit.loops ++ step.loops ++ body.statements :: body.loops
  | .function _ _ _ _ body => body.loops
  | _ => []

/-- The statement lists of the loops in statements. -/
def Node.loopsAll : List Node → List (List Node)
  | [] => []
  | n :: ns => n.loops ++ Node.loopsAll ns

end

/-- A flat statement or a loop that was recovered. Only the last statement of a region branches back;
a bound of a numeric loop may be any flat statement. -/
inductive Node.Recovered : Node → Prop
  | flat {n : Node} (h : n.Flat) : Recovered n
  | region {a b offset : Int} {inner : List Node} (hinner : ∀ n ∈ inner, Recovered n)
      (hforward : ∀ n ∈ inner, Loops.isBackward n = false) (hback : offset < 0) :
      Recovered (.block a (inner ++ [.jump b offset]))
  | numeric {a b : Int} {v : Register} {init limit step : Node} {body : List Node}
      (hinit : init.Flat) (hlimit : limit.Flat) (hstep : step.Flat)
      (hbody : ∀ n ∈ body, Recovered n) (hforward : ∀ n ∈ body, Loops.isBackward n = false) :
      Recovered (.numericFor a v init limit step (.block b body))

namespace Loops

theorem forward_of_lastBackward? {stmts : List Node} (h : lastBackward? stmts = none) :
    ∀ n ∈ stmts, isBackward n = false := by
  intro n hn
  have hfind := List.findIdx?_eq_none_iff.mp (Option.map_eq_none_iff.mp h)
  exact hfind n (List.mem_reverse.mpr hn)

theorem prepared?_ge {stmts : List Node} {begins : Nat} {v : Register}
    (h : prepared? stmts begins = some v) : 4 ≤ begins := by
  unfold prepared? at h
  split_ifs at h with hlt
  omega

/-- What holds of all statements of a list, and of every loop that is made of such statements, holds of
all that recovery leaves, and nothing of this branches back. -/
theorem recover_closed {P : Node → Prop}
    (hclose : ∀ {stmts body : List Node} {c : Closing}, (∀ n ∈ stmts, P n) →
      closing stmts = .ok (some c) → (∀ n ∈ body, P n) → (∀ n ∈ body, isBackward n = false) →
      P (c.close body))
    {stmts out : List Node} (hstmts : ∀ n ∈ stmts, P n) (h : recover stmts = .ok out) :
    (∀ n ∈ out, P n) ∧ ∀ n ∈ out, isBackward n = false := by
  induction stmts using recover_induction generalizing out with
  | step stmts ih =>
    rw [recover_eq] at h
    cases hc : closing stmts with
    | error e =>
      rw [hc] at h
      cases h
    | ok found =>
      rw [hc] at h
      cases found with
      | none =>
        cases h
        have hcloses := closing_closes stmts
        rw [hc] at hcloses
        cases hcloses with
        | straight hlast => exact ⟨hstmts, forward_of_lastBackward? hlast⟩
      | some c =>
        obtain ⟨hinner, happly⟩ := ih c hc
        dsimp only at h
        cases hbody : recover c.inner with
        | error e =>
          rw [hbody] at h
          cases h
        | ok body =>
          rw [hbody] at h
          obtain ⟨hmade, hforward⟩ := hinner (fun n hn => hstmts n (mem_inner hc hn)) hbody
          refine happly body (fun n hn => ?_) h
          rcases mem_apply hn with hn | rfl
          · exact hstmts n hn
          · exact hclose hstmts hc hmade hforward

end Loops

end HavokScript
