import HavokScript.Proofs.Decompile.Unrolling

/-!
# Nothing is left to recover

Recovery looks for the last branch back, makes its loop and starts again, and the inside of a loop is
recovered on its own before. So a branch back could be missed where two of these runs meet: at the ends
of the part that is cut out, or in a list that a loop was just put into.

`Loops.recover_exhausted` says that none is. In a recovered tree no end of a numeric loop is left, a
backward jump is the last statement of a block that begins where the jump leads, every block has one
such jump, and recovery would change nothing. Only the bounds of numeric loops are left aside: recovery
takes them as they are, whatever they are.
-/

namespace HavokScript

mutual

/-- The statements at any depth of a tree, each before those inside it. The bounds of numeric loops are
left aside. -/
def Node.within : Node → List Node
  | .chunk a body => .chunk a body :: Node.withinAll body
  | .block a body => .block a body :: Node.withinAll body
  | .scope a body => .scope a body :: body.within
  | .whileLoop a c body => .whileLoop a c body :: body.within
  | .repeatLoop a body c => .repeatLoop a body c :: body.within
  | .branch a c body arms other =>
    .branch a c body arms other :: (body.within ++ Node.withinAll arms ++ other.within)
  | .arm a c body => .arm a c body :: body.within
  | .numericFor a v init limit step body => .numericFor a v init limit step body :: body.within
  | .genericFor a vars es body => .genericFor a vars es body :: body.within
  | .function a name params vararg body => .function a name params vararg body :: body.within
  | .localFunction a name params vararg body =>
    .localFunction a name params vararg body :: body.within
  | n => [n]

/-- The same for a list of statements. -/
def Node.withinAll : List Node → List Node
  | [] => []
  | n :: ns => n.within ++ Node.withinAll ns

end

/-- A statement in which every branch back closes a loop that was made for it. A block begins where the
jump at its end leads, and no other statement of its list branches back; nor does one in the body of a
numeric loop. -/
inductive Node.Exhausted : Node → Prop
  | simple {n : Node} (hsimple : n.isSimple) (hforward : Loops.isBackward n = false) : Exhausted n
  | region {a b offset : Int} {inner : List Node} (hinner : ∀ n ∈ inner, Exhausted n)
      (hback : offset < 0) (hbegins : branchTarget b offset ≤ a) :
      Exhausted (.block a (inner ++ [.jump b offset]))
  | numeric {a b : Int} {v : Register} {init limit step : Node} {body : List Node}
      (hbody : ∀ n ∈ body, Exhausted n) :
      Exhausted (.numericFor a v init limit step (.block b body))

namespace Node

theorem mem_withinAll {m : Node} {ns : List Node} : m ∈ withinAll ns ↔ ∃ n ∈ ns, m ∈ n.within := by
  induction ns with
  | nil => simp [withinAll]
  | cons n ns ih => simp [withinAll, ih]

theorem within_of_isSimple {n : Node} (h : n.isSimple) : n.within = [n] := by
  cases n <;> first | rfl | cases h

theorem Exhausted.forward {n : Node} (h : n.Exhausted) : Loops.isBackward n = false := by
  cases h with
  | simple _ hforward => exact hforward
  | region => rfl
  | numeric => rfl

/-- No end of a numeric loop is inside. -/
theorem Exhausted.no_loopEnd {n : Node} (h : n.Exhausted) (a : Int) (counter : Expr) (offset : Int) :
    .forLoop a counter offset ∉ n.within := by
  induction h with
  | simple hsimple hforward =>
    rw [within_of_isSimple hsimple, List.mem_singleton]
    rintro rfl
    cases hforward
  | @region _ b _ inner _ _ _ ih =>
    simp only [within, List.mem_cons, mem_withinAll, List.mem_append, List.not_mem_nil, or_false]
    rintro (hroot | ⟨n, hn | rfl, hmem⟩)
    · cases hroot
    · exact ih n hn hmem
    · rw [within_of_isSimple rfl, List.mem_singleton] at hmem
      cases hmem
  | numeric _ ih =>
    simp only [within, List.mem_cons, mem_withinAll]
    rintro (hroot | hblock | ⟨n, hn, hmem⟩)
    · cases hroot
    · cases hblock
    · exact ih n hn hmem

end Node

namespace Loops

/-- A list in which nothing branches back stays as it is. -/
theorem recover_forward {stmts : List Node} (h : ∀ n ∈ stmts, isBackward n = false) :
    recover stmts = .ok stmts := by
  have hcount : backwardCount stmts = 0 :=
    List.countP_eq_zero.mpr fun n hn => by simp [h n hn]
  rw [recover, hcount, recoverWith]

/-- A branch leads to an address at or behind its target. -/
theorem le_address_of_locate {stmts : List Node} {target : Int} {begins : Nat}
    (hlocate : locate stmts target = .ok begins) (hlt : begins < stmts.length) :
    target ≤ (nth stmts begins).address := by
  refine (locate_lands hlocate).reached _ ?_
  rw [drop_eq_nth_cons hlt]
  rfl

/-- The loop that is made of statements in which nothing branches back is exhausted. -/
theorem close_exhausted {stmts body : List Node} {c : Closing}
    (hc : closing stmts = .ok (some c)) (hbody : ∀ n ∈ body, n.Exhausted) :
    (c.close body).Exhausted := by
  have hcloses := closing_closes stmts
  rw [hc] at hcloses
  cases hcloses with
  | numeric => exact .numeric hbody
  | @region i begins address offset hend hlocate hle =>
    obtain ⟨hlt, hback⟩ := lastBackward?_some hend.last
    rw [hend.node] at hback
    exact .region hbody (by simpa [isBackward] using hback) (le_address_of_locate hlocate (by omega))

/-- **Recovery is exhaustive.** In what recovery makes of simple statements every branch back closes a
loop that was made for it: no end of a numeric loop is left at any depth, and a backward jump is the
last statement of a block, the only one there that branches back. Recovery leaves such a list as it
is. -/
theorem recover_exhausted {stmts out : List Node} (hstmts : ∀ n ∈ stmts, n.isSimple)
    (h : recover stmts = .ok out) :
    (∀ n ∈ out, n.Exhausted) ∧
      (∀ a counter offset, .forLoop a counter offset ∉ Node.withinAll out) ∧
      recover out = .ok out := by
  -- On the way a statement may still branch back; at the end none does.
  have hclosed := recover_closed (P := fun n => n.isSimple ∨ n.Exhausted)
    (fun {stmts body c} _ hc hbody hforward => .inr <| close_exhausted hc fun n hn =>
      (hbody n hn).elim (fun hsimple => .simple hsimple (hforward n hn)) id)
    (fun n hn => .inl (hstmts n hn)) h
  obtain ⟨hout, hforward⟩ := hclosed
  have hexhausted : ∀ n ∈ out, n.Exhausted := fun n hn =>
    (hout n hn).elim (fun hsimple => .simple hsimple (hforward n hn)) id
  refine ⟨hexhausted, fun a counter offset hmem => ?_, recover_forward hforward⟩
  obtain ⟨n, hn, hmem⟩ := Node.mem_withinAll.mp hmem
  exact (hexhausted n hn).no_loopEnd a counter offset hmem

/-- A numeric loop in two regions that begin at the same statement; the bounds of the loop are the ends
of other loops. -/
def sharedTarget : List Node :=
  [load 0 0, .forLoop 4 (Lower.reg 4 0) 2, .jump 8 (-3), .forLoop 12 (Lower.reg 12 0) (-9),
    loopStart 16 0, load 20 4, .forLoop 24 (Lower.reg 24 0) (-2), .jump 28 (-8), .jump 32 (-9)]

theorem recover_exhausted_sharedTarget :
    ∃ out, recover sharedTarget = .ok out ∧ out.length = 1 ∧ (∀ n ∈ sharedTarget, n.isSimple) ∧
      (∀ n ∈ out, n.Exhausted) ∧
      (∀ a counter offset, .forLoop a counter offset ∉ Node.withinAll out) ∧
      recover out = .ok out := by
  have hsimple : ∀ n ∈ sharedTarget, n.isSimple := by
    simp only [← List.all_eq_true]
    rfl
  have hone : (recover sharedTarget).toOption.any fun out => out.length = 1 := by decide +kernel
  obtain ⟨out, hout, hone⟩ := exists_ok_of_any hone
  exact ⟨out, hout, by simpa using hone, hsimple, recover_exhausted hsimple hout⟩

end Loops

end HavokScript
