import HavokScript.Proofs.Decompile.Accesses
import HavokScript.Proofs.Decompile.LoopBounds
import HavokScript.Proofs.Decompile.Statements
import Mathlib.Algebra.BigOperators.Group.Finset.Basic
import Mathlib.Algebra.GroupWithZero.Nat

/-!
# Use counts are exact

A read sees the last write in front of it to the same register. `Code.countUses_served` says of
lowered functions, with or without their loops recovered, that counting gives each written register node
the number of reads that see it and all others zero, and that together the counts are the number of
register nodes that a walk over the tree comes to and that are not written.

Counting performs the accesses of a function, so one half is about lists of accesses
(`Access.performAll_ok`): what is live is what was written last. The other half compares the accesses
with the walk (`Node.Recovered.count_registers`), in which every register node stands once.
-/

namespace HavokScript

namespace Access

/-! ## Which write a read sees -/

/-- The register nodes that are read. -/
def reads (as : List Access) : List Register := as.filterMap read?

/-- The last write to a register. -/
def lastWrite? (as : List Access) (index : Int) : Option Register :=
  ((as.filterMap write?).filter fun w => w.index = index).getLast?

/-- The write that the access at place `i` sees, if it is a read: the last one in front of it to the
same register. -/
def seenAt? (as : List Access) (i : Nat) : Option Register :=
  (as[i]?.bind read?).bind fun r => lastWrite? (as.take i) r.index

/-- The writes that reads see, read by read. -/
def seen (as : List Access) : List Register := (List.range as.length).filterMap (seenAt? as)

/-- How many reads see a write of the register node. -/
def served (as : List Access) (w : Register) : Nat := (seen as).count w

@[simp] theorem reads_append (as bs : List Access) : reads (as ++ bs) = reads as ++ reads bs :=
  List.filterMap_append

theorem reads_append_singleton (as : List Access) (a : Access) :
    reads (as ++ [a]) = reads as ++ a.read?.toList := by
  rw [reads_append]
  cases a <;> rfl

@[simp] theorem reads_nil : reads [] = [] := rfl

@[simp] theorem reads_cons_write (r : Register) (as : List Access) :
    reads (.write r :: as) = reads as := rfl

@[simp] theorem reads_read (rs : List Register) : reads (rs.map read) = rs := by
  induction rs with
  | nil => rfl
  | cons r rs ih => exact congrArg _ ih

@[simp] theorem reads_write (rs : List Register) : reads (rs.map write) = [] := by
  induction rs with
  | nil => rfl
  | cons r rs ih => exact ih

theorem mem_lastWrite? {as : List Access} {index : Int} {w : Register}
    (h : lastWrite? as index = some w) : .write w ∈ as := by
  obtain ⟨a, ha, hw⟩ := List.mem_filterMap.mp (List.mem_of_mem_filter (List.mem_of_getLast? h))
  cases a with
  | read r => cases hw
  | write r =>
    cases hw
    exact ha

theorem lastWrite?_append_write (as : List Access) (r : Register) (index : Int) :
    lastWrite? (as ++ [.write r]) index =
      if index = r.index then some r else lastWrite? as index := by
  unfold lastWrite?
  rw [List.filterMap_append, List.filter_append]
  by_cases h : index = r.index
  · simp [write?, h]
  · simp [write?, h, Ne.symm h]

theorem lastWrite?_append_read (as : List Access) (r : Register) (index : Int) :
    lastWrite? (as ++ [.read r]) index = lastWrite? as index := by
  unfold lastWrite?
  rw [List.filterMap_append]
  simp [List.filterMap_cons, write?]

/-- What comes behind a read does not change what it sees. -/
theorem seen_append_singleton (as : List Access) (a : Access) :
    seen (as ++ [a]) = seen as ++ (a.read?.bind fun r => lastWrite? as r.index).toList := by
  have hbefore : ∀ i ∈ List.range as.length, seenAt? (as ++ [a]) i = seenAt? as i := by
    intro i hi
    have hlt := List.mem_range.mp hi
    rw [seenAt?, seenAt?, List.getElem?_append_left hlt,
      List.take_append_of_le_length (Nat.le_of_lt hlt)]
  have hlast : seenAt? (as ++ [a]) as.length = a.read?.bind fun r => lastWrite? as r.index := by
    simp [seenAt?]
  rw [seen, List.length_append, List.length_singleton, List.range_succ, List.filterMap_append,
    List.filterMap_congr hbefore, seen]
  congr 1
  rw [List.filterMap_cons, hlast]
  cases a.read?.bind fun r => lastWrite? as r.index <;> rfl

theorem mem_seen {as : List Access} {w : Register} (h : w ∈ seen as) : .write w ∈ as := by
  obtain ⟨i, -, hi⟩ := List.mem_filterMap.mp h
  obtain ⟨r, -, hw⟩ := Option.bind_eq_some_iff.mp hi
  exact List.mem_of_mem_take (mem_lastWrite? hw)

/-- After accesses were performed the last write to each register is live, and every read saw a
write. -/
theorem performAll_ok {as : List Access} {t : Tally}
    (h : Tally.performAll as Tally.empty = .ok ((), t)) :
    (∀ index, t.live index = (lastWrite? as index).map (·.id)) ∧
      t.reads = ((seen as).map (·.id)).reverse ∧ (seen as).length = (reads as).length := by
  induction as using List.reverseRecOn generalizing t with
  | nil =>
    cases h
    exact ⟨fun _ => rfl, rfl, rfl⟩
  | append_singleton as a ih =>
    rw [Tally.performAll_append, Tally.performAll_singleton] at h
    obtain ⟨⟨⟩, s, hs, h⟩ := ok_of_bind h
    obtain ⟨hlive, hreads, hlength⟩ := ih hs
    rw [seen_append_singleton, reads_append_singleton]
    cases a with
    | write r =>
      cases h
      refine ⟨fun index => ?_, ?_, ?_⟩
      · rw [lastWrite?_append_write]
        change (if index = r.index then some r.id else s.live index) = _
        rw [hlive]
        split_ifs <;> rfl
      · simpa [read?] using hreads
      · simpa [read?] using hlength
    | read r =>
      simp only [Tally.perform, Tally.read, hlive] at h
      cases hw : lastWrite? as r.index with
      | none =>
        rw [hw] at h
        cases h
      | some w =>
        rw [hw] at h
        cases h
        refine ⟨fun index => (hlive index).trans ?_, ?_, ?_⟩
        · rw [lastWrite?_append_read]
        · simp [read?, hw, hreads]
        · simp [read?, hw, hlength]

end Access

/-! ## Accesses and the walk -/

mutual

/-- The register nodes that a recovered statement writes, each once. -/
def Node.written : Node → List Register
  | .assign _ ts _ _ => ts.filterMap Expr.register?
  | .forPrep _ _ _ _ v => [v]
  | .tForLoop _ vars => vars
  | .block _ body => Node.writtenAll body
  | .numericFor _ v init limit step body =>
    init.written ++ limit.written ++ step.written ++ v :: body.written
  | _ => []

/-- The same for statements. -/
def Node.writtenAll : List Node → List Register
  | [] => []
  | n :: ns => n.written ++ Node.writtenAll ns

end

theorem Expr.count_inputsAll (ts : List Expr) (r : Register) :
    (Expr.inputsAll ts).count r = (ts.filterMap Expr.register?).count r +
      (Access.reads (ts.flatMap Expr.targetAccesses)).count r := by
  induction ts with
  | nil => rfl
  | cons t ts ih =>
    rw [Expr.inputsAll_cons, List.count_append, ih, List.flatMap_cons, Access.reads_append,
      List.count_append]
    cases t with
    | register v =>
      have hv : (Expr.register v :: ts).filterMap Expr.register? =
          v :: ts.filterMap Expr.register? := rfl
      rw [hv, Expr.inputs_register, Expr.targetAccesses, Access.reads_cons_write, Access.reads_nil,
        List.count_singleton, List.count_cons, List.count_nil]
      omega
    | _ =>
      rw [List.filterMap_cons_none rfl, Expr.targetAccesses_of_read rfl, Access.reads_read]
      omega

theorem Expr.write_mem_targets {ts : List Expr} {r : Register} :
    .write r ∈ ts.flatMap Expr.targetAccesses ↔ r ∈ ts.filterMap Expr.register? := by
  rw [List.mem_flatMap, List.mem_filterMap]
  refine exists_congr fun t => and_congr_right fun _ => ?_
  cases t <;> simp [Expr.targetAccesses, Expr.register?, eq_comm]

namespace Node

variable {n : Node}

theorem count_registers_assign (a : Int) (ts vs : List Expr) (kept : Bool) (r : Register) :
    (assign a ts vs kept).registers.count r =
      (assign a ts vs kept).written.count r + (Access.reads (assign a ts vs kept).accesses).count r := by
  rw [registers_assign, List.count_append, Expr.count_inputsAll, written, accesses,
    Access.reads_append, List.count_append, Access.reads_read]
  omega

theorem Flat.count_registers (h : n.Flat) (r : Register) :
    n.registers.count r = n.written.count r + (Access.reads n.accesses).count r := by
  cases h with
  | assign | vararg | call => exact count_registers_assign _ _ _ _ r
  | forPrep =>
    simp only [registers_forPrep, List.count_append, written, accesses, Access.reads_append,
      Access.reads_read, Access.reads_cons_write, Access.reads_nil, List.count_nil]
    omega
  | _ => simp [written, accesses]

theorem Flat.write_mem (h : n.Flat) (r : Register) : .write r ∈ n.accesses ↔ r ∈ n.written := by
  cases n with
  | assign a ts vs kept =>
    rw [accesses, List.mem_append, Expr.write_mem_targets, written]
    simp
  | block | numericFor => cases h
  | _ => simp [accesses, written]

theorem count_registersAll {ns : List Node} {r : Register} (h : ∀ n ∈ ns,
      n.registers.count r = n.written.count r + (Access.reads n.accesses).count r) :
    (registersAll ns).count r =
      (writtenAll ns).count r + (Access.reads (accessesAll ns)).count r := by
  induction ns with
  | nil => rfl
  | cons n ns ih =>
    rw [List.forall_mem_cons] at h
    rw [registersAll_cons, List.count_append, h.1, ih h.2, writtenAll, List.count_append, accessesAll,
      Access.reads_append, List.count_append]
    omega

/-- The registers that the walk comes to are those that are written, each once, and those that are
read. -/
theorem Recovered.count_registers (h : n.Recovered) (r : Register) :
    n.registers.count r = n.written.count r + (Access.reads n.accesses).count r := by
  induction h with
  | flat h => exact h.count_registers r
  | @region a b offset inner _ _ _ ih =>
    have hall : ∀ n ∈ inner ++ [jump b offset],
        n.registers.count r = n.written.count r + (Access.reads n.accesses).count r := by
      rw [List.forall_mem_append, List.forall_mem_singleton]
      exact ⟨ih, (Flat.jump b offset).count_registers r⟩
    rw [registers_block, count_registersAll hall, written, accesses, Access.reads_append,
      Access.reads_write, List.nil_append]
  | numeric hinit hlimit hstep _ _ ih =>
    simp only [registers_numericFor, registers_block, List.count_cons, List.count_append,
      hinit.count_registers, hlimit.count_registers, hstep.count_registers, count_registersAll ih,
      written, accesses, Access.reads_append, Access.reads_cons_write, Access.reads_write,
      List.nil_append]
    omega

theorem write_memAll {ns : List Node} {r : Register}
    (h : ∀ n ∈ ns, .write r ∈ n.accesses ↔ r ∈ n.written) :
    .write r ∈ accessesAll ns ↔ r ∈ writtenAll ns := by
  induction ns with
  | nil => simp [accessesAll, writtenAll]
  | cons n ns ih =>
    rw [List.forall_mem_cons] at h
    rw [accessesAll, List.mem_append, h.1, ih h.2, writtenAll, List.mem_append]

/-- The variables of iterator calls are written at the calls too. -/
theorem writtenAll_of_iterators {ns : List Node} {r : Register} (h : r ∈ iterators ns) :
    r ∈ writtenAll ns := by
  induction ns with
  | nil => cases h
  | cons n ns ih =>
    cases n with
    | tForLoop a vars =>
      rcases List.mem_append.mp (h : r ∈ vars ++ iterators ns) with h | h
      · exact List.mem_append_left _ h
      · exact List.mem_append_right _ (ih h)
    | _ => exact List.mem_append_right _ (ih h)

theorem write_mem_block {a : Int} {ns : List Node} {r : Register}
    (h : ∀ n ∈ ns, .write r ∈ n.accesses ↔ r ∈ n.written) :
    .write r ∈ (block a ns).accesses ↔ r ∈ (block a ns).written := by
  rw [accesses, List.mem_append, write_memAll h, written]
  refine or_iff_right_of_imp fun hmem => writtenAll_of_iterators ?_
  simpa using hmem

theorem Recovered.write_mem (h : n.Recovered) (r : Register) :
    .write r ∈ n.accesses ↔ r ∈ n.written := by
  induction h with
  | flat h => exact h.write_mem r
  | @region a b offset inner _ _ _ ih =>
    refine write_mem_block ?_
    rw [List.forall_mem_append, List.forall_mem_singleton]
    exact ⟨ih, (Flat.jump b offset).write_mem r⟩
  | @numeric a b v init limit step body hinit hlimit hstep _ _ ih =>
    change .write r ∈ init.accesses ++ limit.accesses ++ step.accesses ++
      .write v :: (block b body).accesses ↔
        r ∈ init.written ++ limit.written ++ step.written ++ v :: (block b body).written
    simp only [List.mem_append, List.mem_cons, Access.write.injEq, hinit.write_mem, hlimit.write_mem,
      hstep.write_mem, write_mem_block ih]

end Node

namespace Declaration

variable {d : Declaration}

/-- The register nodes of a function that are written. -/
def written (d : Declaration) : List Register :=
  d.toNode.registers.filter fun r => .write r ∈ d.accesses

/-- The register nodes of a function that are not written. -/
def unwritten (d : Declaration) : List Register :=
  d.toNode.registers.filter fun r => .write r ∉ d.accesses

theorem registers_perm (h : ∀ n ∈ d.body, n.Recovered) :
    d.registers.Perm (d.parameters ++ Node.writtenAll d.body ++ Access.reads d.accesses) := by
  refine List.perm_iff_count.mpr fun r => ?_
  have hbody := Node.count_registersAll fun n hn => (h n hn).count_registers r
  simp only [registers, accesses, Node.accesses, List.count_append, Access.reads_append,
    Access.reads_write, List.nil_append, hbody]
  omega

theorem write_mem (h : ∀ n ∈ d.body, n.Recovered) (r : Register) :
    .write r ∈ d.accesses ↔ r ∈ d.parameters ++ Node.writtenAll d.body := by
  rw [accesses, List.mem_append, Node.write_mem_block fun n hn => (h n hn).write_mem r, Node.written,
    List.mem_append]
  simp

end Declaration

/-! ## Registers with reads added -/

namespace Node

variable {n : Node}

theorem registersAll_addReadsAll {reads : List Nat} {ns : List Node}
    (h : ∀ n ∈ ns, (n.addReads reads).registers = n.registers.map (Register.addReads reads)) :
    registersAll (addReadsAll reads ns) = (registersAll ns).map (Register.addReads reads) := by
  induction ns with
  | nil => rfl
  | cons n ns ih =>
    rw [List.forall_mem_cons] at h
    rw [addReadsAll, registersAll_cons, h.1, ih h.2, registersAll_cons, List.map_append]

theorem Flat.registers_addReads (h : n.Flat) (reads : List Nat) :
    (n.addReads reads).registers = n.registers.map (Register.addReads reads) := by
  cases n with
  | assign a ts vs kept =>
    rw [addReads, registers_assign, Expr.inputsAll_addReadsAll, Expr.inputsAll_addReadsAll,
      registers_assign, List.map_append]
  | returns a vs => rw [addReads, registers_returns, Expr.inputsAll_addReadsAll, registers_returns]
  | jump a offset => rfl
  | test a c => rw [addReads, registers_test, Expr.inputs_addReads, registers_test]
  | forPrep a x y z v =>
    rw [addReads, registers_forPrep, Expr.inputs_addReads, Expr.inputs_addReads,
      Expr.inputs_addReads, registers_forPrep, List.map_append, List.map_append, List.map_append,
      List.map_singleton]
  | forLoop a c offset => rw [addReads, registers_forLoop, Expr.inputs_addReads, registers_forLoop]
  | tForLoop a vars => rw [addReads, registers_tForLoop, registers_tForLoop]
  | _ => cases h

theorem Recovered.registers_addReads (h : n.Recovered) (reads : List Nat) :
    (n.addReads reads).registers = n.registers.map (Register.addReads reads) := by
  induction h with
  | flat h => exact h.registers_addReads reads
  | @region a b offset inner _ _ _ ih =>
    rw [Node.addReads, registers_block, registers_block]
    refine registersAll_addReadsAll ?_
    rw [List.forall_mem_append, List.forall_mem_singleton]
    exact ⟨ih, rfl⟩
  | numeric hinit hlimit hstep _ _ ih =>
    rw [Node.addReads, Node.addReads, registers_numericFor, hinit.registers_addReads,
      hlimit.registers_addReads, hstep.registers_addReads, registers_block,
      registersAll_addReadsAll ih, registers_numericFor, registers_block]
    simp only [List.map_cons, List.map_append]

end Node

theorem Declaration.registers_addReads {d : Declaration} (h : ∀ n ∈ d.body, n.Recovered)
    (reads : List Nat) :
    (d.addReads reads).registers = d.registers.map (Register.addReads reads) := by
  rw [registers, addReads, Node.registersAll_addReadsAll fun n hn => (h n hn).registers_addReads reads,
    registers, List.map_append]

/-! ## Registers of recovered functions -/

/-- Recovery only drops registers. -/
theorem Loops.Unrolls.countP_registersAll {ns flat : List Node} {ends : List Ends}
    (h : Unrolls ns ends flat) (p : Register → Bool) :
    (Node.registersAll ns).countP p ≤ (Node.registersAll flat).countP p := by
  induction h with
  | nil => exact Nat.le_refl _
  | simple _ _ ih =>
    simp only [Node.registersAll_cons, List.countP_append]
    omega
  | region _ _ ihinside ihrest =>
    simp only [Node.registersAll_cons, Node.registers_block, Node.registersAll_append,
      List.countP_append]
    omega
  | numeric _ _ _ _ _ ihinside ihrest =>
    simp only [Node.registersAll_cons, Node.registers_numericFor, Node.registers_block, Ends.start,
      Ends.finish, Node.registers_forPrep, Node.registers_forLoop, Node.registersAll_append,
      List.countP_append, List.countP_cons, List.countP_nil]
    omega

/-- The register nodes of a lowered function whose loops are recovered are all different, and none has
been read yet. -/
theorem Code.recovered_registers {c : Code} {d : Declaration} {out : List Node}
    (hlower : c.lower = .ok d) (hrecover : Loops.recover d.body = .ok out) :
    (({ d with body := out } : Declaration).registers.map (·.id)).Nodup ∧
      ∀ r ∈ ({ d with body := out } : Declaration).registers, r.uses = 0 := by
  obtain ⟨hnodup, hunread⟩ := Code.lower_registers hlower
  obtain ⟨ends, hunrolls⟩ :=
    Loops.recover_unrolls (fun n hn => (c.lower_flat hlower n hn).isSimple) hrecover
  have hle : ∀ p : Register → Bool,
      ({ d with body := out } : Declaration).registers.countP p ≤ d.registers.countP p := fun p => by
    have := hunrolls.countP_registersAll p
    simp only [Declaration.registers, List.countP_append]
    omega
  constructor
  · rw [List.nodup_iff_count_le_one] at hnodup ⊢
    intro i
    have hi := hnodup i
    rw [List.count, List.countP_map] at hi ⊢
    exact (hle _).trans hi
  · intro r hr
    have hpos : 0 < d.registers.countP (· == r) :=
      Nat.lt_of_lt_of_le (List.count_pos_iff.mpr hr) (hle (· == r))
    obtain ⟨s, hs, hrs⟩ := List.countP_pos_iff.mp hpos
    rw [← eq_of_beq hrs]
    exact hunread s hs

/-! ## The counts -/

/-- The counts of distinct things among which all of a list are add up to its length. -/
theorem sum_count {α : Type} [DecidableEq α] {all xs : List α} (hall : all.Nodup) (h : xs ⊆ all) :
    (all.map fun x => xs.count x).sum = xs.length := by
  have hcard := Multiset.sum_count_eq_card (s := all.toFinset) (m := (xs : Multiset α))
    fun x hx => List.mem_toFinset.mpr (h hx)
  rw [Multiset.coe_card] at hcard
  rw [← hcard, List.sum_toFinset _ hall]
  simp only [Multiset.coe_count]

/-- A register node is told by its number. -/
theorem Register.count_id {all rs : List Register} (hall : (all.map (·.id)).Nodup) (h : rs ⊆ all)
    {r : Register} (hr : r ∈ all) : (rs.map (·.id)).count r.id = rs.count r := by
  rw [List.count, List.countP_map, List.count]
  refine List.countP_congr fun s hs => ?_
  have hsame : s.id = r.id → s = r := List.inj_on_of_nodup_map hall (h hs) hr
  simp only [Function.comp_apply, beq_iff_eq]
  exact ⟨hsame, congrArg _⟩

namespace Declaration

variable {d : Declaration}

theorem mem_registers_of_write (h : ∀ n ∈ d.body, n.Recovered) {r : Register}
    (hr : .write r ∈ d.accesses) : r ∈ d.registers :=
  (registers_perm h).mem_iff.mpr (List.mem_append_left _ ((write_mem h r).mp hr))

/-- The register nodes that are not written are those that are read. -/
theorem unwritten_perm (h : ∀ n ∈ d.body, n.Recovered) (hnodup : (d.registers.map (·.id)).Nodup) :
    d.unwritten.Perm (Access.reads d.accesses) := by
  have hperm := registers_perm h
  have hdistinct := hperm.nodup_iff.mp (List.Nodup.of_map _ hnodup)
  have hdisjoint := (List.nodup_append'.mp hdistinct).2.2
  rw [unwritten, registers_toNode]
  refine (hperm.filter _).trans ?_
  rw [List.filter_append, List.filter_eq_nil_iff.mpr, List.filter_eq_self.mpr, List.nil_append]
  · intro r hr
    simpa [write_mem h] using fun hwritten => hdisjoint (List.mem_append.mpr hwritten) hr
  · intro r hr
    simp [(write_mem h r).mpr hr]

/-- What counting the uses of a function gives. -/
structure Served (d : Declaration) (m : Node) : Prop where
  /-- no register node stands at two places, and none has been read before -/
  distinct : (d.toNode.registers.map (·.id)).Nodup ∧ ∀ r ∈ d.toNode.registers, r.uses = 0
  /-- each count is the number of reads that see the node, as a word of 64 bits -/
  counts : m.registers = d.toNode.registers.map fun r =>
    { r with uses := wrap64 (Access.served d.accesses r) }
  /-- nodes that are not written keep zero -/
  unwritten : ∀ r ∈ d.unwritten, Access.served d.accesses r = 0
  /-- every node that is not written is a read that is counted once -/
  total : (d.written.map (Access.served d.accesses)).sum = d.unwritten.length
  /-- counts do not wrap around unless a tree has as many registers as there are words -/
  exact : d.toNode.registers.length < 2 ^ 63 →
    ∀ r ∈ d.toNode.registers, wrap64 (Access.served d.accesses r) = Access.served d.accesses r

/-- The counts of a function with distinct registers that have not been read before. -/
theorem served_of_countUses {m : Node} (h : ∀ n ∈ d.body, n.Recovered)
    (hnodup : (d.registers.map (·.id)).Nodup) (hunread : ∀ r ∈ d.registers, r.uses = 0)
    (hcount : d.toNode.countUses = .ok m) : d.Served m := by
  obtain ⟨t, hrun, rfl⟩ := countUses_ok h hcount
  obtain ⟨-, hreads, hlength⟩ := Access.performAll_ok hrun
  have hseen : Access.seen d.accesses ⊆ d.registers := fun r hr =>
    mem_registers_of_write h (Access.mem_seen hr)
  have hdistinct := List.Nodup.of_map _ hnodup
  have hreadCount := (unwritten_perm h hnodup).length_eq
  rw [← hlength] at hreadCount
  refine ⟨?_, ?_, ?_, ?_, ?_⟩
  · rw [registers_toNode]
    exact ⟨hnodup, hunread⟩
  · rw [registers_toNode, registers_addReads h, registers_toNode]
    refine List.map_congr_left fun r hr => ?_
    rw [Register.addReads, hunread r hr, hreads, List.count_reverse,
      Register.count_id hnodup hseen hr, Int.zero_add, Access.served]
  · intro r hr
    have hnot : .write r ∉ d.accesses := by simpa using List.of_mem_filter hr
    exact List.count_eq_zero.mpr fun hmem => hnot (Access.mem_seen hmem)
  · rw [hreadCount, written, registers_toNode]
    refine sum_count (hdistinct.filter _) fun r hr => List.mem_filter.mpr ⟨hseen hr, ?_⟩
    exact decide_eq_true (Access.mem_seen hr)
  · intro hfew r hr
    have hle : Access.served d.accesses r ≤ d.registers.length := by
      refine List.count_le_length.trans ?_
      rw [← hreadCount, unwritten, registers_toNode]
      exact List.length_filter_le _ _
    rw [registers_toNode] at hfew
    rw [wrap64, Int.bmod_def]
    omega

end Declaration

/-- **Use counts are exact.** After counting, in a lowered function and also when its loops were
recovered, each register node has the number of reads that see it: none if it is not written, and else
the reads behind it and in front of the next write to its register. Together these are all registers of
the tree that are not written. -/
theorem Code.countUses_served {c : Code} {d : Declaration} {out : List Node} {m : Node}
    (hlower : c.lower = .ok d) (hout : out = d.body ∨ Loops.recover d.body = .ok out)
    (hcount : ({ d with body := out } : Declaration).toNode.countUses = .ok m) :
    ({ d with body := out } : Declaration).Served m := by
  have hflat := c.lower_flat hlower
  rcases hout with rfl | hrecover
  · obtain ⟨hnodup, hunread⟩ := Code.lower_registers hlower
    exact Declaration.served_of_countUses (fun n hn => .flat (hflat n hn)) hnodup hunread hcount
  · obtain ⟨hnodup, hunread⟩ := Code.recovered_registers hlower hrecover
    exact Declaration.served_of_countUses (Loops.recover_recovered hflat hrecover).1 hnodup hunread
      hcount

/-- A numeric loop in front of a region with an iterator call. The call writes its variable at the start
of the region, so both reads of R9 see the call and none sees the assignment in the loop. -/
theorem Code.countUses_served_iterator :
    ∃ (c : Code) (d : Declaration) (out : List Node) (m : Node), c.lower = .ok d ∧
      Loops.recover d.body = .ok out ∧
      ({ d with body := out } : Declaration).toNode.countUses = .ok m ∧
      (m.registers.filter fun r => r.uses ≠ 0).map (fun r => (r.index, r.uses)) =
        [(0, 3), (4, 1), (9, 2)] ∧
      ({ d with body := out } : Declaration).Served m := by
  have hrun : (Code.ofWords 1 [Word.ofABC 7 1 0 0, Word.ofABC 7 2 0 0, Word.ofABC 7 3 0 0,
      Word.ofAsBx 62 1 1, Word.ofABC 7 9 4 0, Word.ofAsBx 63 1 (-2), Word.ofABC 7 10 9 0,
      Word.ofABC 14 6 0 1, Word.ofAsBx 28 0 (-3), Word.ofABC 9 9 2 0]).withLoops.toOption.any
        fun d => d.toNode.countUses.toOption.any fun m =>
          (m.registers.filter fun r => r.uses ≠ 0).map (fun r => (r.index, r.uses)) =
            [(0, 3), (4, 1), (9, 2)] := by decide +kernel
  obtain ⟨d', hd, hrun⟩ := exists_ok_of_any hrun
  obtain ⟨m, hcount, hcounts⟩ := exists_ok_of_any hrun
  obtain ⟨d, out, hlower, hrecover, rfl⟩ := Code.withLoops_ok hd
  exact ⟨_, d, out, m, hlower, hrecover, hcount, of_decide_eq_true hcounts,
    Code.countUses_served hlower (.inr hrecover) hcount⟩

end HavokScript
