import HavokScript.Proofs.Decompile.Unrolling

/-!
# The scan for loops

Recovery looks at the statements of a list from the last one to the first. When it has made a loop it
starts again at the end of the new list, and the inside of a loop is scanned on its own before. `Scan`
tells such a run with the place of the scan and the number of loops that it makes, and leaves open where
the scan goes on (`Resume`): at the end of the list, or in front of the loop that was made.

`Loops.recover_scan` says that this makes no difference. Both scans end, with what `recover` gives, be it
a list or a failure, and after the same number of loops, which is no larger than the number of branches
back. The length of the list bounds nothing: a jump to itself becomes a block of itself.

A loop that was made does not branch back, and nothing behind it does. So a scan that starts again only
passes over what it has looked at (`Scan.descend`).
-/

namespace HavokScript.Loops

/-! ## Scans -/

/-- The loop that the statement at a place closes, if it branches back. -/
def closingAt (stmts : List Node) (i : Nat) : Except DecompileError (Option Closing) :=
  match nth stmts i with
  | .forLoop address _ offset => do
    let begins ← locate stmts (branchTarget address offset)
    match prepared? stmts begins with
    | none => throw (.failed address none .badForPrep)
    | some v => if i < begins then throw .broken else return some (numericLoop stmts begins i v)
  | .jump address offset =>
    if offset < 0 then do
      let begins ← locate stmts (branchTarget address offset)
      if i < begins then throw .broken else return some (region stmts begins i address offset)
    else return none
  | _ => return none

/-- Where a scan goes on when it has made a loop. -/
inductive Resume where
  /-- at the end of the list with the loop -/
  | atEnd
  /-- in front of the loop -/
  | inFront

/-- How many statements a scan has still to look at when it has made a loop. -/
def Resume.left (c : Closing) (stmts : List Node) : Resume → Nat
  | atEnd => stmts.length
  | inFront => c.first

/-- A scan of a list of which the first `k` statements have still to be looked at, the last of them
first: what it gives, and how many loops it makes in this list and inside of loops. -/
inductive Scan (resume : Resume) :
    List Node → Nat → Except DecompileError (List Node) → Nat → Prop
  | done {stmts : List Node} : Scan resume stmts 0 (.ok stmts) 0
  | pass {stmts : List Node} {k made : Nat} {result : Except DecompileError (List Node)}
      (look : closingAt stmts k = .ok none) (rest : Scan resume stmts k result made) :
      Scan resume stmts (k + 1) result made
  | fail {stmts : List Node} {k : Nat} {e : DecompileError} (look : closingAt stmts k = .error e) :
      Scan resume stmts (k + 1) (.error e) 0
  | failInside {stmts : List Node} {k made : Nat} {c : Closing} {e : DecompileError}
      (look : closingAt stmts k = .ok (some c))
      (inside : Scan resume c.inner c.inner.length (.error e) made) :
      Scan resume stmts (k + 1) (.error e) made
  | make {stmts body : List Node} {k m n : Nat} {c : Closing}
      {result : Except DecompileError (List Node)} (look : closingAt stmts k = .ok (some c))
      (inside : Scan resume c.inner c.inner.length (.ok body) m)
      (rest : Scan resume (c.apply stmts body) (resume.left c (c.apply stmts body)) result n) :
      Scan resume stmts (k + 1) result (m + 1 + n)

/-- A scan has one end. -/
theorem Scan.unique {resume : Resume} {stmts : List Node} {k m n : Nat}
    {x y : Except DecompileError (List Node)} (h : Scan resume stmts k x m)
    (h' : Scan resume stmts k y n) : x = y ∧ m = n := by
  induction h generalizing y n with
  | done =>
    cases h'
    exact ⟨rfl, rfl⟩
  | pass look _ ih =>
    cases h' with
    | pass _ rest => exact ih rest
    | fail look' | failInside look' | make look' => cases look.symm.trans look'
  | fail look =>
    cases h' with
    | fail look' =>
      cases look.symm.trans look'
      exact ⟨rfl, rfl⟩
    | pass look' | failInside look' | make look' => cases look.symm.trans look'
  | failInside look _ ih =>
    cases h' with
    | failInside look' inside =>
      cases look.symm.trans look'
      exact ih inside
    | make look' inside =>
      cases look.symm.trans look'
      cases (ih inside).1
    | pass look' | fail look' => cases look.symm.trans look'
  | make look _ _ ihinside ihrest =>
    cases h' with
    | failInside look' inside =>
      cases look.symm.trans look'
      cases (ihinside inside).1
    | make look' inside rest =>
      cases look.symm.trans look'
      obtain ⟨hbody, rfl⟩ := ihinside inside
      cases hbody
      obtain ⟨rfl, rfl⟩ := ihrest rest
      exact ⟨rfl, rfl⟩
    | pass look' | fail look' => cases look.symm.trans look'

/-! ## Looking at statements -/

theorem closingAt_of_forward {stmts : List Node} {i : Nat} (h : isBackward (nth stmts i) = false) :
    closingAt stmts i = .ok none := by
  unfold closingAt
  cases hn : nth stmts i with
  | forLoop address counter offset =>
    rw [hn] at h
    cases h
  | jump address offset =>
    rw [hn] at h
    have hoffset : ¬ offset < 0 := by simpa [isBackward] using h
    exact if_neg hoffset
  | _ => rfl

/-- Recovery makes the loop that the last branch back closes. -/
theorem closing_eq {stmts : List Node} {i : Nat} (h : lastBackward? stmts = some i) :
    closing stmts = closingAt stmts i := by
  have hback := (lastBackward?_some h).2
  unfold closing closingAt
  rw [h]
  dsimp only
  cases hn : nth stmts i with
  | jump address offset =>
    rw [hn] at hback
    have hoffset : offset < 0 := by simpa [isBackward] using hback
    dsimp only
    rw [if_pos hoffset]
  | _ => rfl

/-- The last statement of a loop that is about to be made is the last branch back. -/
theorem lastBackward?_of_closing {stmts : List Node} {c : Closing}
    (h : closing stmts = .ok (some c)) : lastBackward? stmts = some c.last := by
  have hcloses := closing_closes stmts
  rw [h] at hcloses
  cases hcloses with
  | numeric hend => exact hend.last
  | region hend => exact hend.last

theorem lastBackward?_of_error {stmts : List Node} {e : DecompileError}
    (h : closing stmts = .error e) : ∃ i, lastBackward? stmts = some i := by
  cases hlast : lastBackward? stmts with
  | none =>
    rw [closing, hlast] at h
    cases h
  | some i => exact ⟨i, rfl⟩

/-- Nothing that the scan has looked at branches back. -/
def Clear (stmts : List Node) (k : Nat) : Prop := ∀ n ∈ stmts.drop k, isBackward n = false

theorem clear_length (stmts : List Node) : Clear stmts stmts.length := by
  rw [Clear, List.drop_length]
  exact List.forall_mem_nil _

theorem Clear.forward {stmts : List Node} {k j : Nat} (h : Clear stmts k) (hk : k ≤ j) :
    isBackward (nth stmts j) = false := by
  by_cases hj : j < stmts.length
  · refine h _ (List.mem_drop_iff_getElem.mpr ⟨j - k, by omega, ?_⟩)
    rw [nth, List.getD_eq_getElem _ _ hj]
    exact getElem_congr rfl (by omega) _
  · rw [nth, List.getD_eq_default _ _ (Nat.le_of_not_lt hj)]
    rfl

/-- The last branch back has still to be looked at. -/
theorem Clear.last_lt {stmts : List Node} {k i : Nat} (h : Clear stmts k)
    (hlast : lastBackward? stmts = some i) : i < k := by
  refine Nat.lt_of_not_le fun hk => ?_
  have hback := (lastBackward?_some hlast).2
  rw [h.forward hk] at hback
  cases hback

/-- A scan passes over statements that do not branch back. -/
theorem Scan.descend {resume : Resume} {stmts : List Node} {i k made : Nat}
    {result : Except DecompileError (List Node)} (hclear : Clear stmts i) (hle : i ≤ k)
    (h : Scan resume stmts i result made) : Scan resume stmts k result made := by
  induction hle with
  | refl => exact h
  | step hle ih => exact .pass (closingAt_of_forward (hclear.forward hle)) ih

/-- A scan comes to the last branch back. -/
theorem Scan.reach {resume : Resume} {stmts : List Node} {k i made : Nat}
    {result : Except DecompileError (List Node)} (hk : Clear stmts k)
    (hlast : lastBackward? stmts = some i) (h : Scan resume stmts (i + 1) result made) :
    Scan resume stmts k result made :=
  h.descend (forward_of_lastBackward?_some hlast) (hk.last_lt hlast)

/-! ## Loops that were made -/

/-- The branches back inside a loop, in front of it and behind it, and the one that closes it, are those
of the list. -/
theorem Closing.Sound.count_le {c : Closing} {stmts : List Node} (h : c.Sound stmts)
    (body : List Node) :
    backwardCount c.inner + 1 + backwardCount (c.apply stmts body) ≤ backwardCount stmts := by
  obtain ⟨begins, hbegins, hinner⟩ := h.inner
  have hsplit := backwardCount_take_drop stmts c.last
  have hdrop := backwardCount_drop h.last_lt h.branch
  have hfront : backwardCount (stmts.take c.first) ≤ backwardCount ((stmts.take c.last).take begins) := by
    rw [List.take_take]
    exact backwardCount_take_le stmts (Nat.le_min.mpr ⟨hbegins, h.first_le⟩)
  have hinside := backwardCount_take_drop (stmts.take c.last) begins
  have happly : backwardCount (c.apply stmts body) =
      backwardCount (stmts.take c.first) + backwardCount (stmts.drop (c.last + 1)) := by
    unfold Closing.apply splice backwardCount
    rw [List.countP_append, List.countP_cons_of_neg (by simp [h.forward body])]
  rw [hinner, slice]
  omega

/-- Wherever the scan goes on, it has looked at all that may not branch back. -/
theorem clear_left {stmts : List Node} {c : Closing} (hc : closing stmts = .ok (some c))
    (body : List Node) (resume : Resume) :
    Clear (c.apply stmts body) (resume.left c (c.apply stmts body)) := by
  cases resume with
  | atEnd => exact clear_length _
  | inFront =>
    have hsound := closing_sound hc
    have hlength : (stmts.take c.first).length = c.first := by
      have := hsound.first_le
      have := hsound.last_lt
      rw [List.length_take]
      omega
    have hdrop : (c.apply stmts body).drop c.first = c.close body :: stmts.drop (c.last + 1) := by
      unfold Closing.apply splice
      exact List.drop_left' hlength
    rw [Resume.left, Clear, hdrop, List.forall_mem_cons]
    exact ⟨hsound.forward body, forward_of_lastBackward?_some (lastBackward?_of_closing hc)⟩

/-- Every scan ends with what recovery gives, and makes as many loops as every other one. -/
theorem exists_scan (stmts : List Node) :
    ∃ made ≤ backwardCount stmts, ∀ resume k, Clear stmts k →
      Scan resume stmts k (recover stmts) made := by
  induction stmts using recover_induction with
  | step stmts ih =>
    rw [recover_eq]
    cases hc : closing stmts with
    | error e =>
      obtain ⟨i, hlast⟩ := lastBackward?_of_error hc
      rw [closing_eq hlast] at hc
      exact ⟨0, Nat.zero_le _, fun resume k hk => .reach hk hlast (.fail hc)⟩
    | ok found =>
      cases found with
      | none =>
        have hcloses := closing_closes stmts
        rw [hc] at hcloses
        cases hcloses with
        | straight hlast =>
          refine ⟨0, Nat.zero_le _, fun resume k hk => ?_⟩
          have hclear : Clear stmts 0 := forward_of_lastBackward? hlast
          exact Scan.done.descend hclear (Nat.zero_le k)
      | some c =>
        obtain ⟨⟨m, hm, hinner⟩, happly⟩ := ih c hc
        have hlast := lastBackward?_of_closing hc
        have hlook : closingAt stmts c.last = .ok (some c) := by rw [← closing_eq hlast, hc]
        have hinside : ∀ resume, Scan resume c.inner c.inner.length (recover c.inner) m :=
          fun resume => hinner resume _ (clear_length _)
        have hcount := (closing_sound hc).count_le
        dsimp only
        cases hbody : recover c.inner with
        | error e =>
          rw [hbody] at hinside
          have := hcount []
          exact ⟨m, by omega, fun resume k hk => .reach hk hlast (.failInside hlook (hinside resume))⟩
        | ok body =>
          rw [hbody] at hinside
          obtain ⟨n, hn, hrest⟩ := happly body
          have := hcount body
          refine ⟨m + 1 + n, by omega, fun resume k hk => .reach hk hlast ?_⟩
          exact .make hlook (hinside resume) (hrest resume _ (clear_left hc body resume))

/-- **To start again makes no difference, and every scan ends.** A scan of a whole list ends with what
recovery gives, whether it goes on at the end of the list or in front of the loop when it has made one,
and makes the same number of loops, at all depths together no more than there are branches back in the
list. It has no other end. -/
theorem recover_scan (stmts : List Node) :
    ∃ made ≤ backwardCount stmts, ∀ resume result n,
      Scan resume stmts stmts.length result n ↔ result = recover stmts ∧ n = made := by
  obtain ⟨made, hmade, hscan⟩ := exists_scan stmts
  refine ⟨made, hmade, fun resume result n => ⟨fun h => ?_, ?_⟩⟩
  · exact h.unique (hscan resume _ (clear_length stmts))
  · rintro ⟨rfl, rfl⟩
    exact hscan resume _ (clear_length stmts)

/-- A jump to itself becomes a block of one statement, and the list is as long as before. -/
example : recover [.jump 0 (-1)] = .ok [.block 0 [.jump 0 (-1)]] := rfl

end HavokScript.Loops
