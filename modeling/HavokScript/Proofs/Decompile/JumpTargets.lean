import HavokScript.Proofs.Decompile.Exhaustion
import HavokScript.Proofs.Decompile.Failures
import HavokScript.Proofs.Decompile.LoopSpans
import HavokScript.Proofs.Decompile.Statements

/-!
# Where jumps back lead

An instruction may have no statements, and a branch to it is meant to lead to the next statement.
Recovery takes the first statement at or behind the target, unless all that it looks at is behind the
target: then the branch leads out of the list, and recovery fails. But what is inside a region is
recovered as a list of its own, which begins at a statement, so a target just in front of that is taken
for one outside.

`Loops.recover_resolves_iff` says for functions without numeric loops when this happens. Recovery
succeeds exactly if every jump back is `Loops.Reached`: some statement of the function stands at its
target or in front, and some statement of every region that the jump is in does. A target that has a
statement is always reached if the jumps are properly nested. For one that has none this may fail even
then (`Loops.recover_sharedRegion`).
-/

namespace HavokScript

namespace Loops

/-! ## Targets that are reached -/

/-- Recovery finds where the jump back at an address leads: neither the list nor a region in it that the
jump is in begins behind the target. -/
structure Reached (stmts : List Node) (b offset : Int) : Prop where
  list : ∃ s ∈ stmts, s.address ≤ branchTarget b offset
  regions : ∀ b' offset', .jump b' offset' ∈ stmts → offset' < 0 → branchTarget b' offset' ≤ b →
    b < b' → ∃ s ∈ stmts, branchTarget b' offset' ≤ s.address ∧ s.address ≤ branchTarget b offset

/-- Every jump back of the list is reached. -/
def Resolves (stmts : List Node) : Prop :=
  ∀ b offset, .jump b offset ∈ stmts → offset < 0 → Reached stmts b offset

/-- The failure at the target of a jump back that is not reached. -/
def Unresolved (stmts : List Node) (e : DecompileError) : Prop :=
  ∃ b offset, .jump b offset ∈ stmts ∧ offset < 0 ∧ ¬ Reached stmts b offset ∧
    e = .failed (branchTarget b offset) none .locationNotFound

/-- Statements in the order of their addresses, of which only jumps branch back, and none behind
itself. -/
structure Jumping (stmts : List Node) : Prop where
  ordered : stmts.Pairwise Before
  settled : Settled stmts
  jumps : ∀ a counter offset, .forLoop a counter offset ∉ stmts

namespace Jumping

variable {stmts : List Node}

theorem sublist {ns : List Node} (h : Jumping stmts) (hns : ns.Sublist stmts) : Jumping ns :=
  ⟨h.ordered.sublist hns, fun n hn => h.settled n (hns.subset hn),
    fun a counter offset hn => h.jumps a counter offset (hns.subset hn)⟩

/-- A statement that branches back is a jump to an address at or in front of it. -/
theorem exists_jump {n : Node} (h : Jumping stmts) (hn : n ∈ stmts) (hback : isBackward n) :
    ∃ b offset, n = .jump b offset ∧ offset < 0 ∧ branchTarget b offset ≤ b := by
  have hgrounded := (h.settled n hn).2
  cases n with
  | forLoop a counter offset => exact absurd hn (h.jumps a counter offset)
  | jump b offset =>
    have hoffset : offset < 0 := by simpa [isBackward] using hback
    exact ⟨b, offset, rfl, hoffset, hgrounded hoffset⟩
  | _ => cases hback

theorem target_le (h : Jumping stmts) {b offset : Int} (hmem : .jump b offset ∈ stmts)
    (hoffset : offset < 0) : branchTarget b offset ≤ b :=
  (h.settled _ hmem).2 hoffset

end Jumping

/-! ## The last region of a list -/

/-- The last jump back of a list, the statements that it leads back over, and those in front and
behind. -/
structure LastRegion (raw before inner after : List Node) (b offset : Int) : Prop where
  split : raw = before ++ (inner ++ .jump b offset :: after)
  back : offset < 0
  below : ∀ s ∈ before, s.address < branchTarget b offset
  ranges : Ranges (branchTarget b offset) inner (.jump b offset) after
  forward : ∀ s ∈ after, isBackward s = false

namespace LastRegion

variable {raw before inner after : List Node} {b offset : Int}

theorem mem_iff (h : LastRegion raw before inner after b offset) {s : Node} :
    s ∈ raw ↔ s ∈ before ∨ s ∈ inner ∨ s = .jump b offset ∨ s ∈ after := by
  rw [h.split, List.mem_append, List.mem_append, List.mem_cons]

theorem before_sublist (h : LastRegion raw before inner after b offset) : before.Sublist raw :=
  h.split ▸ List.sublist_append_left before _

theorem inner_sublist (h : LastRegion raw before inner after b offset) : inner.Sublist raw :=
  h.split ▸ (List.sublist_append_left inner _).trans (List.sublist_append_right before _)

theorem after_sublist (h : LastRegion raw before inner after b offset) : after.Sublist raw := by
  rw [h.split]
  exact ((List.sublist_cons_self _ after).trans (List.sublist_append_right inner _)).trans
    (List.sublist_append_right before _)

/-- What is below the target stands in front. -/
theorem mem_before (h : LastRegion raw before inner after b offset) {s : Node} (hs : s ∈ raw)
    (hlt : s.address < branchTarget b offset) : s ∈ before := by
  have hle : branchTarget b offset ≤ b := h.ranges.branch
  rcases h.mem_iff.mp hs with hs | hs | rfl | hs
  · exact hs
  · exact absurd (h.ranges.inner s hs).1 (Int.not_le.mpr hlt)
  · exact absurd hle (Int.not_le.mpr hlt)
  · have : b < s.address := h.ranges.back s hs
    omega

/-- What is in the range of the jump stands inside. -/
theorem mem_inner (h : LastRegion raw before inner after b offset) {s : Node} (hs : s ∈ raw)
    (hle : branchTarget b offset ≤ s.address) (hlt : s.address < b) : s ∈ inner := by
  rcases h.mem_iff.mp hs with hs | hs | rfl | hs
  · exact absurd hle (Int.not_le.mpr (h.below s hs))
  · exact hs
  · exact absurd hlt (Int.lt_irrefl b)
  · have : b < s.address := h.ranges.back s hs
    omega

/-- The jump stands behind every other jump back. -/
theorem jump_mem_iff (h : LastRegion raw before inner after b offset) {b' offset' : Int}
    (hoffset : offset' < 0) : .jump b' offset' ∈ raw ↔
      .jump b' offset' ∈ before ∨ .jump b' offset' ∈ inner ∨ b' = b ∧ offset' = offset := by
  have hafter : Node.jump b' offset' ∉ after := fun hmem => by
    have := h.forward _ hmem
    simp [isBackward, hoffset] at this
  rw [h.mem_iff, Node.jump.injEq, iff_false_intro hafter, or_false]

/-- The last jump back is in no region but its own, so only the front of the list counts. -/
theorem reached_self (h : LastRegion raw before inner after b offset) :
    Reached raw b offset ↔ ∃ s ∈ raw, s.address ≤ branchTarget b offset := by
  refine ⟨fun hreached => hreached.list, fun hlist => ⟨hlist, ?_⟩⟩
  intro b' offset' hmem hoffset' _ hlt
  rcases (h.jump_mem_iff hoffset').mp hmem with hmem | hmem | ⟨rfl, -⟩
  · have : b' < branchTarget b offset := h.below _ hmem
    have : branchTarget b offset ≤ b := h.ranges.branch
    omega
  · have : b' < b := (h.ranges.inner _ hmem).2
    omega
  · omega

theorem reached_before (h : LastRegion raw before inner after b offset) (hraw : Jumping raw)
    {b' offset' : Int} (hmem : .jump b' offset' ∈ before) (hoffset : offset' < 0)
    (hreached : Reached raw b' offset') : Reached before b' offset' := by
  have hlt : b' < branchTarget b offset := h.below _ hmem
  have hle := hraw.target_le (h.mem_iff.mpr (.inl hmem)) hoffset
  constructor
  · obtain ⟨s, hs, hat⟩ := hreached.list
    exact ⟨s, h.mem_before hs (by omega), hat⟩
  · intro b₂ offset₂ hmem₂ hoffset₂ htarget hlt₂
    obtain ⟨s, hs, hlow, hat⟩ :=
      hreached.regions b₂ offset₂ (h.mem_iff.mpr (.inl hmem₂)) hoffset₂ htarget hlt₂
    exact ⟨s, h.mem_before hs (by omega), hlow, hat⟩

theorem reached_inner (h : LastRegion raw before inner after b offset) (hraw : Jumping raw)
    {b' offset' : Int} (hmem : .jump b' offset' ∈ inner) (hoffset : offset' < 0)
    (hreached : Reached raw b' offset') : Reached inner b' offset' := by
  obtain ⟨hge, hlt⟩ : branchTarget b offset ≤ b' ∧ b' < b := h.ranges.inner _ hmem
  have hle := hraw.target_le (h.mem_iff.mpr (.inr (.inl hmem))) hoffset
  -- The jump is in the region, and so is a statement at or in front of its target.
  obtain ⟨first, hfirst, hlow, hat⟩ :=
    hreached.regions b offset (h.mem_iff.mpr (.inr (.inr (.inl rfl)))) h.back hge hlt
  have hfirst := h.mem_inner hfirst hlow (by omega)
  refine ⟨⟨first, hfirst, hat⟩, ?_⟩
  intro b₂ offset₂ hmem₂ hoffset₂ htarget hlt₂
  obtain ⟨s, hs, hlow₂, hat₂⟩ :=
    hreached.regions b₂ offset₂ (h.mem_iff.mpr (.inr (.inl hmem₂))) hoffset₂ htarget hlt₂
  by_cases hin : branchTarget b offset ≤ s.address
  · exact ⟨s, h.mem_inner hs hin (by omega), hlow₂, hat₂⟩
  · exact ⟨first, hfirst, by omega, hat⟩

/-- The jumps of the whole are reached if the last one is, and those inside and those in front are on
their own. -/
theorem resolves (h : LastRegion raw before inner after b offset)
    (hlast : Reached raw b offset) (hinner : Resolves inner) (hbefore : Resolves before) :
    Resolves raw := by
  have hbranch : branchTarget b offset ≤ b := h.ranges.branch
  intro b₁ offset₁ hmem₁ hoffset₁
  rcases (h.jump_mem_iff hoffset₁).mp hmem₁ with hmem | hmem | ⟨rfl, rfl⟩
  · have hlt : b₁ < branchTarget b offset := h.below _ hmem
    obtain ⟨⟨s, hs, hat⟩, hregions⟩ := hbefore b₁ offset₁ hmem hoffset₁
    refine ⟨⟨s, h.mem_iff.mpr (.inl hs), hat⟩, fun b₂ offset₂ hmem₂ hoffset₂ htarget hlt₂ => ?_⟩
    rcases (h.jump_mem_iff hoffset₂).mp hmem₂ with hmem₂ | hmem₂ | ⟨rfl, rfl⟩
    · obtain ⟨s, hs, hlow, hat⟩ := hregions b₂ offset₂ hmem₂ hoffset₂ htarget hlt₂
      exact ⟨s, h.mem_iff.mpr (.inl hs), hlow, hat⟩
    · -- A jump inside that is reached there does not lead in front of the region.
      obtain ⟨s, hs, hat⟩ := (hinner b₂ offset₂ hmem₂ hoffset₂).list
      have := (h.ranges.inner s hs).1
      omega
    · omega
  · obtain ⟨hge, hlt⟩ : branchTarget b offset ≤ b₁ ∧ b₁ < b := h.ranges.inner _ hmem
    obtain ⟨⟨s, hs, hat⟩, hregions⟩ := hinner b₁ offset₁ hmem hoffset₁
    refine ⟨⟨s, h.mem_iff.mpr (.inr (.inl hs)), hat⟩, fun b₂ offset₂ hmem₂ hoffset₂ htarget hlt₂ => ?_⟩
    rcases (h.jump_mem_iff hoffset₂).mp hmem₂ with hmem₂ | hmem₂ | ⟨rfl, rfl⟩
    · have : b₂ < branchTarget b offset := h.below _ hmem₂
      omega
    · obtain ⟨s, hs, hlow, hat⟩ := hregions b₂ offset₂ hmem₂ hoffset₂ htarget hlt₂
      exact ⟨s, h.mem_iff.mpr (.inr (.inl hs)), hlow, hat⟩
    · exact ⟨s, h.mem_iff.mpr (.inr (.inl hs)), (h.ranges.inner s hs).1, hat⟩
  · exact hlast

end LastRegion

/-! ## What recovery finds -/

/-- The last branch back, if it is a jump, closes a region from where it leads. -/
theorem closing_regionEnd {stmts : List Node} {i : Nat} {b offset : Int}
    (h : RegionEnd stmts i b offset) : closing stmts =
      locate stmts (branchTarget b offset) >>= fun begins =>
        if i < begins then throw .broken else return some (region stmts begins i b offset) := by
  unfold closing
  simp only [h.last, h.node]

/-- A target at or in front of some statement is found. -/
theorem locateFrom_ne_error {target : Int} {stmts : List Node} (hstmts : ∀ n ∈ stmts, n ≠ .missing)
    {start i : Nat} (hi : i < stmts.length) (hat : target ≤ (nth stmts i).address)
    (e : DecompileError) : locateFrom target start stmts ≠ .error e := by
  induction stmts generalizing start i with
  | nil => exact absurd hi (Nat.not_lt_zero i)
  | cons s rest ih =>
    rw [List.forall_mem_cons] at hstmts
    rw [locateFrom_cons hstmts.1]
    split_ifs with hle
    · nofun
    · cases i with
      | zero => exact absurd hat hle
      | succ i => exact ih hstmts.2 (Nat.lt_of_succ_lt_succ hi) hat

/-- A target at or in front of some statement is only missed in front of all statements. -/
theorem lt_first_of_locate {stmts : List Node} {target : Int} {e : DecompileError} {i : Nat}
    (hstmts : ∀ n ∈ stmts, n ≠ .missing) (hi : i < stmts.length)
    (hat : target ≤ (nth stmts i).address) (h : locate stmts target = .error e) :
    ∀ n ∈ stmts.head?, target < n.address := by
  cases stmts with
  | nil => exact absurd hi (Nat.not_lt_zero i)
  | cons s rest =>
    rw [locate_cons (hstmts s (by simp))] at h
    split_ifs at h with hlt
    · simpa using hlt
    · exact absurd h (locateFrom_ne_error hstmts hi hat e)

/-- The first statement is below the others. -/
theorem head_le {stmts : List Node} (hordered : stmts.Pairwise Before) {s n : Node}
    (hhead : stmts.head? = some n) (hs : s ∈ stmts) : n.address ≤ s.address := by
  cases stmts with
  | nil => cases hhead
  | cons m rest =>
    cases hhead
    rcases List.mem_cons.mp hs with rfl | hs
    · exact Int.le_refl _
    · exact ((List.pairwise_cons.mp hordered).1 s hs).le

variable {raw made : List Node} {i : Nat} {b offset : Int}

/-- A jump back of which the target is missed is not reached. -/
theorem not_reached_of_locate (hraw : Jumping raw)
    (hmade : ∀ n ∈ made, n ≠ .missing ∧ isBackward n = false)
    (hend : RegionEnd (raw ++ made) i b offset) (htarget : branchTarget b offset ≤ b)
    {e : DecompileError} (h : locate (raw ++ made) (branchTarget b offset) = .error e) :
    ¬ Reached raw b offset := by
  rintro ⟨⟨s, hs, hle⟩, -⟩
  have hpresent : ∀ n ∈ raw ++ made, n ≠ .missing :=
    List.forall_mem_append.mpr ⟨fun n hn => (hraw.settled n hn).1, fun n hn => (hmade n hn).1⟩
  have hat : branchTarget b offset ≤ (nth (raw ++ made) i).address := hend.node ▸ htarget
  have hfirst := lt_first_of_locate hpresent (lastBackward?_some hend.last).1 hat h
  obtain ⟨n, rest, rfl⟩ := List.exists_cons_of_ne_nil (List.ne_nil_of_mem hs)
  have hn : branchTarget b offset < n.address := hfirst n rfl
  have := head_le hraw.ordered rfl hs
  omega

/-- Where the last jump back leads parts the list into its region and what is around. -/
theorem lastRegion_of_locate (hraw : Jumping raw) (hmade : ∀ n ∈ made, isBackward n = false)
    (hend : RegionEnd (raw ++ made) i b offset) {begins : Nat} (hle : begins ≤ i)
    (h : locate (raw ++ made) (branchTarget b offset) = .ok begins) :
    ∃ after, LastRegion raw ((raw ++ made).take begins) (slice (raw ++ made) begins i) after b offset ∧
      (raw ++ made).drop (i + 1) = after ++ made ∧
      ∀ n ∈ (raw ++ made).head?, n.address ≤ branchTarget b offset := by
  obtain ⟨hlt, hback⟩ := lastBackward?_some hend.last
  obtain ⟨after, hsplit, hdrop, hafter⟩ := last_splits hmade hend.last
  have hlands := locate_splits h hle hlt
  have hfirst := (locate_lands h).first
  rw [hend.node, hdrop] at hlands
  rw [hend.node, take_eq_append_slice hle, List.append_assoc] at hsplit
  rw [hend.node] at hback
  rw [List.take_append_drop] at hfirst
  refine ⟨after, ⟨hsplit, by simpa [isBackward] using hback, hlands.below, ?_, hafter⟩, hdrop, hfirst⟩
  have hordered := hraw.ordered
  rw [hsplit] at hordered
  exact ranges_of_ordered (List.pairwise_append.mp hordered).2.1 hback hlands.reached

namespace LastRegion

variable {before inner after : List Node}

theorem mem_jump (h : LastRegion raw before inner after b offset) : .jump b offset ∈ raw :=
  h.mem_iff.mpr (.inr (.inr (.inl rfl)))

/-- The list does not begin behind the target of the last jump, so the jump is reached. -/
theorem reached_of_first (h : LastRegion raw before inner after b offset)
    (hfirst : ∀ n ∈ (raw ++ made).head?, n.address ≤ branchTarget b offset) :
    Reached raw b offset := by
  obtain ⟨n, rest, rfl⟩ := List.exists_cons_of_ne_nil (List.ne_nil_of_mem h.mem_jump)
  exact h.reached_self.mpr ⟨n, List.mem_cons_self, hfirst n rfl⟩

/-- A jump inside that is missed on its own is not reached in the whole. -/
theorem unresolved_inner (h : LastRegion raw before inner after b offset) (hraw : Jumping raw)
    {e : DecompileError} : Unresolved inner e → Unresolved raw e := by
  rintro ⟨b', offset', hmem, hoffset, hnot, rfl⟩
  exact ⟨b', offset', h.mem_iff.mpr (.inr (.inl hmem)), hoffset,
    fun hreached => hnot (h.reached_inner hraw hmem hoffset hreached), rfl⟩

/-- Nor is one in front. -/
theorem unresolved_before (h : LastRegion raw before inner after b offset) (hraw : Jumping raw)
    {e : DecompileError} : Unresolved before e → Unresolved raw e := by
  rintro ⟨b', offset', hmem, hoffset, hnot, rfl⟩
  exact ⟨b', offset', h.mem_iff.mpr (.inl hmem), hoffset,
    fun hreached => hnot (h.reached_before hraw hmem hoffset hreached), rfl⟩

end LastRegion

/-- The last branch back is one of the jumps in front of what was made. -/
theorem regionEnd_of_last (hraw : Jumping raw) (hmade : ∀ n ∈ made, isBackward n = false)
    (hlast : lastBackward? (raw ++ made) = some i) :
    ∃ b offset, RegionEnd (raw ++ made) i b offset ∧ .jump b offset ∈ raw ∧ offset < 0 ∧
      branchTarget b offset ≤ b := by
  have hlt := last_lt hmade hlast
  have hmem : nth (raw ++ made) i ∈ raw := by
    rw [nth_append_left hlt]
    exact nth_mem hlt
  obtain ⟨b, offset, hnode, hoffset, htarget⟩ :=
    hraw.exists_jump hmem (lastBackward?_some hlast).2
  exact ⟨b, offset, ⟨hlast, hnode⟩, hnode ▸ hmem, hoffset, htarget⟩

/-- Recovery succeeds if every jump back is reached, and fails at the target of one that is not. In
front of what was made the statements are as they were. -/
theorem recover_resolves (hraw : Jumping raw)
    (hmade : ∀ n ∈ made, n ≠ .missing ∧ isBackward n = false) :
    Outcome (fun _ => Resolves raw) (Unresolved raw) (recover (raw ++ made)) := by
  generalize hstmts : raw ++ made = stmts
  induction stmts using recover_induction generalizing raw made with
  | step stmts ih =>
    subst hstmts
    have hforward : ∀ n ∈ made, isBackward n = false := fun n hn => (hmade n hn).2
    have hpresent : ∀ n ∈ raw ++ made, n ≠ .missing :=
      List.forall_mem_append.mpr ⟨fun n hn => (hraw.settled n hn).1, fun n hn => (hmade n hn).1⟩
    cases hlast : lastBackward? (raw ++ made) with
    | none =>
      have hnone := forward_of_lastBackward? hlast
      rw [recover_forward hnone]
      intro b offset hmem hoffset
      have := hnone _ (List.mem_append_left made hmem)
      simp [isBackward, hoffset] at this
    | some i =>
      obtain ⟨b, offset, hend, hmem, hoffset, htarget⟩ := regionEnd_of_last hraw hforward hlast
      rw [recover_eq]
      cases hlocate : locate (raw ++ made) (branchTarget b offset) with
      | error e =>
        rw [closing_regionEnd hend, hlocate]
        exact ⟨b, offset, hmem, hoffset, not_reached_of_locate hraw hmade hend htarget hlocate,
          locate_error hpresent hlocate⟩
      | ok begins =>
        have hle : begins ≤ i :=
          locate_le hpresent (lastBackward?_some hlast).1 (hend.node ▸ htarget) hlocate
        have hc : closing (raw ++ made) = .ok (some (region (raw ++ made) begins i b offset)) := by
          rw [closing_regionEnd hend, hlocate]
          exact if_neg (Nat.not_lt.mpr hle)
        obtain ⟨after, hregion, hdrop, hfirst⟩ := lastRegion_of_locate hraw hforward hend hle hlocate
        obtain ⟨ihinner, ihapply⟩ := ih _ hc
        have hinside := ihinner (hraw.sublist hregion.inner_sublist) (by simp) (List.append_nil _)
        rw [hc]
        dsimp only
        cases hbody : recover (region (raw ++ made) begins i b offset).inner with
        | error e =>
          rw [hbody] at hinside
          exact hregion.unresolved_inner hraw hinside
        | ok body =>
          rw [hbody] at hinside
          have happly : (raw ++ made).take begins ++
              (region (raw ++ made) begins i b offset).close body :: (after ++ made) =
                (region (raw ++ made) begins i b offset).apply (raw ++ made) body := by
            rw [← hdrop]
            rfl
          refine (ihapply body (hraw.sublist hregion.before_sublist) ?_ happly).mono
            (fun _ hbefore => hregion.resolves (hregion.reached_of_first hfirst) hinside hbefore)
            fun e => hregion.unresolved_before hraw
          simp only [List.mem_cons, List.mem_append]
          rintro n (rfl | hn | hn)
          · exact ⟨Node.noConfusion, rfl⟩
          · exact ⟨(hraw.settled n (hregion.after_sublist.subset hn)).1, hregion.forward n hn⟩
          · exact hmade n hn

end Loops

/-! ## Nested jumps -/

/-- Where a branch of the instruction leads if its first argument is the offset. -/
def Instruction.target (i : Instruction) : Int := branchTarget i.address (i.argument 0)

/-- Whether the instruction is a jump back. -/
def Instruction.jumpsBack (i : Instruction) : Bool :=
  Opcode.ofCode? i.op = some .jmp ∧ i.argument 0 < 0

/-- Every jump back leads to an instruction of the function, and of two jumps back one leads back over
the other and its target, or neither over anything of the other. -/
def Code.NestsJumps (c : Code) : Prop :=
  ∀ i ∈ c.instructions.items.filter Instruction.jumpsBack,
    (∃ j ∈ c.instructions.items, j.address = i.target) ∧
      ∀ j ∈ c.instructions.items.filter Instruction.jumpsBack,
        (i.target ≤ j.target ∧ j.address ≤ i.address) ∨
          (j.target ≤ i.target ∧ i.address ≤ j.address) ∨ i.address < j.target ∨ j.address < i.target

instance (c : Code) : Decidable c.NestsJumps :=
  inferInstanceAs (Decidable (∀ i ∈ c.instructions.items.filter Instruction.jumpsBack, _))

/-- A jump back in a lowered function is one of its instructions. -/
theorem Code.lower_jumpsBack {c : Code} {d : Declaration} (h : c.lower = .ok d) {b offset : Int}
    (hmem : .jump b offset ∈ d.body) (hoffset : offset < 0) :
    ∃ i ∈ c.instructions.items.filter Instruction.jumpsBack,
      i.address = b ∧ i.target = branchTarget b offset := by
  obtain ⟨i, hi, op, hop, hshaped⟩ := Code.lower_shaped h _ hmem
  obtain ⟨rfl, rfl, rfl⟩ := hshaped.jump b offset rfl hoffset
  exact ⟨i, List.mem_filter.mpr ⟨hi, by simp [Instruction.jumpsBack, hop, hoffset]⟩, rfl, rfl⟩

/-- If jumps are properly nested then a target that has a statement is reached: the regions around
begin at or in front of it. -/
theorem Code.NestsJumps.reached {c : Code} {d : Declaration} (hnests : c.NestsJumps)
    (h : c.lower = .ok d) {b offset : Int} (hmem : .jump b offset ∈ d.body) (hoffset : offset < 0)
    (htarget : ∃ s ∈ d.body, s.address = branchTarget b offset) : Loops.Reached d.body b offset := by
  obtain ⟨s, hs, hat⟩ := htarget
  refine ⟨⟨s, hs, Int.le_of_eq hat⟩, fun b' offset' hmem' hoffset' hle hlt => ?_⟩
  obtain ⟨i, hi, rfl, htarget⟩ := Code.lower_jumpsBack h hmem hoffset
  obtain ⟨j, hj, rfl, htarget'⟩ := Code.lower_jumpsBack h hmem' hoffset'
  have hnested := (hnests i hi).2 j hj
  refine ⟨s, hs, ?_, Int.le_of_eq hat⟩
  omega

namespace Loops

/-- The statements of a decoded function without numeric loops. -/
theorem jumping_of_decode {data : Bytes} {f : ChunkFile} {p : Prototype} {d : Declaration}
    (hdecode : ChunkFile.decode data = .ok f) (hp : p ∈ f.walk) (hlower : p.lower = .ok d)
    (hloops : ∀ i ∈ p.instructions.items, Opcode.ofCode? i.op ≠ some .forLoop) :
    Jumping d.body := by
  refine ⟨Code.lower_ordered (ChunkFile.decode_ordered hdecode hp) hlower,
    ((ChunkFile.decode_gives hdecode).2 p hp).settled hlower, fun a counter offset hmem => ?_⟩
  have hmade := p.toCode.lower_outcome
  rw [hlower] at hmade
  obtain ⟨i, hi, op, hop, hmade⟩ := hmade _ hmem
  exact hloops i hi (hop.trans (congrArg some (hmade.loop a counter offset rfl).1))

/-- **When jumps back resolve.** In a decoded function without numeric loops recovery succeeds exactly
if every jump back is reached, and all it fails with is the target of one that is not. If jumps are
properly nested, every target that has a statement is reached. -/
theorem recover_resolves_iff {data : Bytes} {f : ChunkFile} {p : Prototype} {d : Declaration}
    (hdecode : ChunkFile.decode data = .ok f) (hp : p ∈ f.walk) (hlower : p.lower = .ok d)
    (hloops : ∀ i ∈ p.instructions.items, Opcode.ofCode? i.op ≠ some .forLoop) :
    ((∃ out, recover d.body = .ok out) ↔ Resolves d.body) ∧
      (∀ e, recover d.body = .error e → Unresolved d.body e) ∧
      (p.toCode.NestsJumps → ∀ b offset, .jump b offset ∈ d.body → offset < 0 →
        (∃ s ∈ d.body, s.address = branchTarget b offset) → Reached d.body b offset) := by
  have hnone : ∀ n ∈ ([] : List Node), n ≠ .missing ∧ isBackward n = false := nofun
  have houtcome := recover_resolves (jumping_of_decode hdecode hp hlower hloops) hnone
  rw [List.append_nil] at houtcome
  refine ⟨?_, ?_, fun hnests b offset hmem hoffset => hnests.reached hlower hmem hoffset⟩
  · cases hrecover : recover d.body with
    | ok out =>
      rw [hrecover] at houtcome
      exact iff_of_true ⟨out, rfl⟩ houtcome
    | error e =>
      rw [hrecover] at houtcome
      obtain ⟨b, offset, hmem, hoffset, hnot, -⟩ := houtcome
      exact iff_of_false nofun fun hresolves => hnot (hresolves b offset hmem hoffset)
  · intro e hrecover
    rw [hrecover] at houtcome
    exact houtcome

/-- A chunk of one function with one parameter. -/
def jumpChunk (words : List Word) : Bytes :=
  Assembly.bytes ⟨.standard, some ⟨⟨0, 1, 0, 4, words, [], none⟩, []⟩⟩

/-- What was decoded and lowered, if a test of it is met. -/
theorem exists_of_lowered (data : Bytes) {P : Prototype → Declaration → Bool}
    (h : (ChunkFile.decode data).toOption.any fun f => f.walk.any fun p =>
      p.lower.toOption.any (P p)) :
    ∃ f p d, ChunkFile.decode data = .ok f ∧ p ∈ f.walk ∧ p.lower = .ok d ∧ P p d := by
  obtain ⟨f, hdecode, h⟩ := exists_ok_of_any h
  obtain ⟨p, hp, h⟩ := List.any_eq_true.mp h
  obtain ⟨d, hlower, h⟩ := exists_ok_of_any h
  exact ⟨f, p, d, hdecode, hp, hlower, h⟩

/-- A region in a region. The inner one begins at a return without statements, behind a move. -/
def nestedRegions : Bytes :=
  jumpChunk [Word.ofABC 7 1 0 0, Word.ofABC 9 0 0 0, Word.ofABC 7 2 0 0, Word.ofAsBx 28 0 (-3),
    Word.ofAsBx 28 0 (-5), Word.ofABC 9 0 1 0]

theorem recover_resolves_iff_nestedRegions :
    ∃ f p d, ChunkFile.decode nestedRegions = .ok f ∧ p ∈ f.walk ∧ p.lower = .ok d ∧
      (∀ i ∈ p.instructions.items, Opcode.ofCode? i.op ≠ some .forLoop) ∧ p.toCode.NestsJumps ∧
      backwardCount d.body = 2 ∧ Resolves d.body ∧
      ((∃ out, recover d.body = .ok out) ↔ Resolves d.body) ∧
      (∀ e, recover d.body = .error e → Unresolved d.body e) ∧
      (p.toCode.NestsJumps → ∀ b offset, .jump b offset ∈ d.body → offset < 0 →
        (∃ s ∈ d.body, s.address = branchTarget b offset) → Reached d.body b offset) := by
  obtain ⟨f, p, d, hdecode, hp, hlower, hrun⟩ := exists_of_lowered nestedRegions
    (P := fun p d => (∀ i ∈ p.instructions.items, Opcode.ofCode? i.op ≠ some .forLoop) ∧
      p.toCode.NestsJumps ∧ backwardCount d.body = 2 ∧ (recover d.body).toOption.isSome)
    (by decide +kernel)
  obtain ⟨hloops, hnests, hcount, hsome⟩ := of_decide_eq_true hrun
  have hiff := recover_resolves_iff hdecode hp hlower hloops
  have hok : ∃ out, recover d.body = .ok out := by
    cases hrecover : recover d.body with
    | ok out => exact ⟨out, rfl⟩
    | error e =>
      rw [hrecover] at hsome
      cases hsome
  exact ⟨f, p, d, hdecode, hp, hlower, hloops, hnests, hcount, hiff.1.mp hok, hiff⟩

/-- Two regions that begin at one return without statements. -/
def sharedRegion : Bytes :=
  jumpChunk [Word.ofABC 7 1 0 0, Word.ofABC 9 0 0 0, Word.ofABC 7 2 0 0, Word.ofAsBx 28 0 (-3),
    Word.ofAsBx 28 0 (-4), Word.ofABC 9 0 1 0]

/-- The outer jump leads to the statement behind the return, and the inner one, with the same target,
is missed in the list that begins there. -/
theorem recover_sharedRegion :
    ∃ f p d, ChunkFile.decode sharedRegion = .ok f ∧ p ∈ f.walk ∧ p.lower = .ok d ∧
      (∀ i ∈ p.instructions.items, Opcode.ofCode? i.op ≠ some .forLoop) ∧ p.toCode.NestsJumps ∧
      recover d.body = .error (.failed 0x2C none .locationNotFound) := by
  obtain ⟨f, p, d, hdecode, hp, hlower, hrun⟩ := exists_of_lowered sharedRegion
    (P := fun p d => (∀ i ∈ p.instructions.items, Opcode.ofCode? i.op ≠ some .forLoop) ∧
      p.toCode.NestsJumps ∧
        (recover d.body).map (fun _ => ()) = .error (.failed 0x2C none .locationNotFound))
    (by decide +kernel)
  obtain ⟨hloops, hnests, herror⟩ := of_decide_eq_true hrun
  exact ⟨f, p, d, hdecode, hp, hlower, hloops, hnests, error_of_map herror⟩

end Loops

end HavokScript
