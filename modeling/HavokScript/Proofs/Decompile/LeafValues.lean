import HavokScript.Proofs.Decompile.LoopSpans
import HavokScript.Proofs.Decompile.Runs
import HavokScript.Proofs.Decompile.Sharing

/-!
# Values without parts

A value without parts, that is a literal, a name or a closure, gets no number when it is folded, and is told
from other nodes by its kind, its address and its text alone (`Expr.part`). That is enough: no other node
that a function reads is told by the same (`Code.leaf_count`). All nodes of other instructions have other
addresses, and an instruction that gives a register such a value reads nothing else
(`Lower.Few.expressionsAll`). So inlining leaves the value at one place, as it does a value with parts
(`Code.inlined_leaf`).
-/

namespace HavokScript

/-! ## Values without parts -/

/-- Whether the expression is a node without parts, and no register. -/
def Expr.isLeaf : Expr → Bool
  | .closure .. | .identifier .. | .nil _ | .bool .. | .number .. | .string .. | .vararg _ => true
  | _ => false

/-- The value without parts that the statement gives a register. -/
def Node.leaf? : Node → Option Expr
  | .assign _ [t] [v] _ => if t.register?.isSome && v.isLeaf then some v else none
  | _ => none

namespace Expr

variable {v : Expr}

theorem part_of_isLeaf (h : v.isLeaf) : v.part = .node v.kind v.address v.label := by
  cases v <;> first | rfl | cases h

theorem parts_of_isLeaf (h : v.isLeaf) : v.parts = [v.part] := by
  cases v <;> first | rfl | cases h

end Expr

namespace Node

variable {n : Node} {v : Expr}

theorem leaf?_eq_some (h : n.leaf? = some v) :
    v.isLeaf ∧ ∃ a r kept, n = .assign a [.register r] [v] kept := by
  unfold leaf? at h
  split at h
  · rename_i a t w kept
    split_ifs at h with hw
    cases h
    rw [Bool.and_eq_true] at hw
    cases t with
    | register r => exact ⟨hw.2, a, r, kept, rfl⟩
    | _ => cases hw.1
  · cases h

theorem expressions_of_leaf? (h : n.leaf? = some v) : n.expressions = [v] := by
  obtain ⟨-, a, r, kept, rfl⟩ := leaf?_eq_some h
  rfl

end Node

/-! ## The nodes of an instruction -/

namespace Expr

/-- The address by which a node is told. What is missing has no kind, and no address. -/
def Part.address? : Part → Option Int
  | .node kind a _ => if kind = "" then none else some a
  | _ => none

theorem address?_of_isLeaf {v : Expr} (h : v.isLeaf) : v.part.address? = some v.address := by
  cases v <;> first | rfl | cases h

theorem Part.addresses_cons {p : Part} {ps : List Part} {a : Int} {as : List Int}
    (hp : p.address? = some a) (hps : ps.filterMap address? ⊆ as) :
    (p :: ps).filterMap address? ⊆ a :: as := by
  rw [List.filterMap_cons_some hp]
  exact List.cons_subset_cons a hps

theorem Part.addresses_append {ps qs : List Part} {as bs : List Int}
    (hps : ps.filterMap address? ⊆ as) (hqs : qs.filterMap address? ⊆ bs) :
    (ps ++ qs).filterMap address? ⊆ as ++ bs := by
  rw [List.filterMap_append]
  exact append_subset_append hps hqs

end Expr

mutual

/-- The nodes of an expression are told by addresses in it. -/
theorem Expr.addresses_parts (e : Expr) : e.parts.filterMap Part.address? ⊆ e.addresses := by
  cases e with
  | call a f args =>
    rw [addresses_call]
    exact Part.addresses_cons rfl
      (Part.addresses_append f.addresses_parts (Expr.addressesAll_partsAll args))
  | binary a op l r =>
    rw [addresses_binary]
    exact Part.addresses_cons rfl (Part.addresses_append l.addresses_parts r.addresses_parts)
  | unary a op e =>
    rw [addresses_unary]
    exact Part.addresses_cons rfl e.addresses_parts
  | table a ks vs =>
    rw [addresses_table]
    exact Part.addresses_cons rfl
      (Part.addresses_append (Expr.addressesAll_partsAll ks) (Expr.addressesAll_partsAll vs))
  | index a t k =>
    rw [addresses_index]
    exact Part.addresses_cons rfl (Part.addresses_append t.addresses_parts k.addresses_parts)
  | shared n e => exact e.addresses_parts
  | missing | register => exact List.nil_subset _
  | _ => exact List.Subset.refl _

theorem Expr.addressesAll_partsAll (es : List Expr) :
    (Expr.partsAll es).filterMap Part.address? ⊆ Expr.addressesAll es := by
  cases es with
  | nil => exact List.nil_subset _
  | cons e es =>
    rw [addressesAll_cons]
    exact Part.addresses_append e.addresses_parts (Expr.addressesAll_partsAll es)

end

/-- What a flat statement reads has addresses of the statement. -/
theorem Node.Flat.addresses_operands {n : Node} (h : n.Flat) :
    ∀ e ∈ n.operands, e.addresses ⊆ n.addresses := by
  have hall : ∀ {es : List Expr} {e : Expr}, e ∈ es → e.addresses ⊆ Expr.addressesAll es :=
    fun he _ ha => Expr.mem_addressesAll.mpr ⟨_, he, ha⟩
  intro e he
  cases n with
  | assign a ts vs kept =>
    rw [addresses_assign]
    refine List.Subset.trans ?_ (List.subset_cons_self a _)
    rcases List.mem_append.mp he with he | he
    · exact List.subset_append_of_subset_right _ (hall he)
    · exact List.subset_append_of_subset_left _ (hall (List.mem_of_mem_filter he))
  | returns a vs =>
    rw [addresses_returns]
    exact List.subset_cons_of_subset a (hall he)
  | test a c =>
    cases List.mem_singleton.mp he
    rw [addresses_test]
    exact List.subset_cons_self a _
  | forLoop a c offset =>
    cases List.mem_singleton.mp he
    rw [addresses_forLoop]
    exact List.subset_cons_self a _
  | forPrep a x y z v =>
    rw [addresses_forPrep]
    refine List.subset_cons_of_subset a (List.subset_append_of_subset_left _ ?_)
    simp only [operands, List.mem_cons, List.not_mem_nil, or_false] at he
    rcases he with rfl | rfl | rfl
    · exact List.subset_append_of_subset_left _ (List.subset_append_left ..)
    · exact List.subset_append_of_subset_left _ (List.subset_append_right ..)
    · exact List.subset_append_right ..
  | jump | tForLoop => cases he
  | _ => cases h

/-- A statement reads the value that it gives a register. -/
theorem Node.leaf_mem {ns : List Node} {n : Node} {v : Expr} (hn : n ∈ ns) (hv : n.leaf? = some v) :
    v.part ∈ Expr.partsAll (expressionsAll ns) := by
  rw [expressionsAll_eq_flatMap]
  refine Expr.mem_partsAll.mpr ⟨v, List.mem_flatMap.mpr ⟨n, hn, ?_⟩, ?_⟩
  · rw [expressions_of_leaf? hv]
    exact List.mem_singleton_self v
  · rw [Expr.parts_of_isLeaf (leaf?_eq_some hv).1]
    exact List.mem_singleton_self _

/-- The nodes that an instruction reads are told by its address. -/
theorem Instruction.Run.address_part {i : Instruction} {ns : List Node} (h : i.Run ns) {p : Expr.Part}
    (hp : p ∈ Expr.partsAll (Node.expressionsAll ns)) {a : Int} (ha : p.address? = some a) :
    a = i.address := by
  obtain ⟨e, he, hp⟩ := Expr.mem_partsAll.mp hp
  rw [Node.expressionsAll_eq_flatMap] at he
  obtain ⟨n, hn, he⟩ := List.mem_flatMap.mp he
  rw [(h.flat n hn).expressions] at he
  have hmem : a ∈ e.addresses := e.addresses_parts (List.mem_filterMap.mpr ⟨p, hp, ha⟩)
  exact h.address n hn a ((h.flat n hn).addresses_operands e he hmem)

namespace Lower

/-- Numbering registers leaves few statements few. -/
theorem Few.renumber {ns : List Node} (h : Few ns) (k : Nat) : Few (Node.renumberAll ns k).1 := by
  cases h with
  | none => exact .none
  | one n => exact .one _
  | tests => exact .tests ..
  | skips => exact .skips ..
  | fetches => exact .fetches ..

/-- An instruction that gives a register a value without parts reads nothing else. -/
theorem Few.expressionsAll {ns : List Node} (h : Few ns) {n : Node} {v : Expr} (hn : n ∈ ns)
    (hv : n.leaf? = some v) : Node.expressionsAll ns = [v] := by
  cases h with
  | none => cases hn
  | one m =>
    cases List.mem_singleton.mp hn
    rw [Node.expressionsAll, Node.expressions_of_leaf? hv]
    rfl
  | skips =>
    rcases List.mem_pair.mp hn with rfl | rfl
    · rw [Node.expressionsAll, Node.expressions_of_leaf? hv]
      rfl
    · cases hv
  | tests | fetches =>
    rcases List.mem_pair.mp hn with rfl | rfl
    · cases hv
    · cases hv

variable {is : List Instruction} {runs : List (List Node)}

/-- The nodes that instructions read are told by their addresses. -/
theorem address_part (h : List.Forall₂ (fun i ns => i.Run ns ∧ Few ns) is runs) {p : Expr.Part}
    (hp : p ∈ Expr.partsAll (Node.expressionsAll runs.flatten)) {a : Int} (ha : p.address? = some a) :
    ∃ i ∈ is, a = i.address := by
  induction h with
  | nil => cases hp
  | @cons i run is runs hrun _ ih =>
    rw [List.flatten_cons, Node.expressionsAll_append, Expr.partsAll_append, List.mem_append] at hp
    rcases hp with hp | hp
    · exact ⟨i, List.mem_cons_self, hrun.1.address_part hp ha⟩
    · obtain ⟨j, hj, hja⟩ := ih hp
      exact ⟨j, List.mem_cons_of_mem _ hj, hja⟩

/-- A value without parts is told by the address of the instruction that gives it to a register, and nothing
else that this instruction reads is told by the same. -/
theorem leaf_count (h : List.Forall₂ (fun i ns => i.Run ns ∧ Few ns) is runs)
    (his : is.Pairwise (·.address < ·.address)) {n : Node} {v : Expr} (hn : n ∈ runs.flatten)
    (hv : n.leaf? = some v) :
    (Expr.partsAll (Node.expressionsAll runs.flatten)).count v.part = 1 := by
  have hleaf := (Node.leaf?_eq_some hv).1
  have haddress := Expr.address?_of_isLeaf hleaf
  induction h with
  | nil => cases hn
  | @cons i run is runs hrun hrest ih =>
    rw [List.pairwise_cons] at his
    rw [List.flatten_cons, List.mem_append] at hn
    rw [List.flatten_cons, Node.expressionsAll_append, Expr.partsAll_append, List.count_append]
    -- Both would have to be told by the address of one instruction.
    have hapart : v.part ∈ Expr.partsAll (Node.expressionsAll run) →
        v.part ∉ Expr.partsAll (Node.expressionsAll runs.flatten) := by
      intro hfirst hothers
      have hi := hrun.1.address_part hfirst haddress
      obtain ⟨j, hj, hja⟩ := address_part hrest hothers haddress
      have hlt := his.1 j hj
      omega
    rcases hn with hn | hn
    · have hothers := List.count_eq_zero.mpr (hapart (Node.leaf_mem hn hv))
      rw [hothers, hrun.2.expressionsAll hn hv, Expr.partsAll, Expr.parts_of_isLeaf hleaf]
      exact List.count_singleton_self
    · have hfirst := List.count_eq_zero.mpr fun hmem => hapart hmem (Node.leaf_mem hn hv)
      rw [hfirst, ih his.2 hn]

end Lower

/-! ## Recovered and counted functions -/

mutual

/-- A recovered tree reads what its simple statements read. -/
theorem Node.expressionsAll_simples (n : Node) : expressionsAll n.simples = n.expressions := by
  cases n with
  | block a body => exact Node.expressionsAll_simplesAll body
  | numericFor a v init limit step body =>
    rw [simples, expressionsAll, expressionsAll, expressionsAll, Node.expressionsAll_simples body,
      expressions, List.append_assoc, List.append_assoc]
  | _ => exact List.append_nil _

theorem Node.expressionsAll_simplesAll (ns : List Node) :
    expressionsAll (simplesAll ns) = expressionsAll ns := by
  cases ns with
  | nil => rfl
  | cons n ns =>
    rw [simplesAll, expressionsAll_append, Node.expressionsAll_simples n,
      Node.expressionsAll_simplesAll ns, expressionsAll]

end

theorem Loops.Ends.leaf?_marks {ends : List Ends} {n : Node} (hn : n ∈ ends.flatMap Ends.marks) :
    n.leaf? = none := by
  obtain ⟨e, -, hn⟩ := List.mem_flatMap.mp hn
  rcases List.mem_pair.mp hn with rfl | rfl <;> rfl

/-- Recovery leaves a value without parts told by what it was told by. -/
theorem Loops.Unrolls.leaf_count {ns flat : List Node} {ends : List Ends} (h : Unrolls ns ends flat)
    {n : Node} {v : Expr} (hn : n ∈ flat) (hv : n.leaf? = some v)
    (hcount : (Expr.partsAll (Node.expressionsAll flat)).count v.part = 1) :
    (Expr.partsAll (Node.expressionsAll ns)).count v.part = 1 := by
  have hperm := Expr.partsAll_perm (h.perm.flatMap_right Node.expressions)
  rw [← Node.expressionsAll_eq_flatMap, ← Node.expressionsAll_eq_flatMap, Node.expressionsAll_append,
    Node.expressionsAll_simplesAll, Expr.partsAll_append] at hperm
  rw [hperm.count_eq, List.count_append] at hcount
  have hmem : v.part ∈ Expr.partsAll (Node.expressionsAll ns) := by
    rw [← Node.expressionsAll_simplesAll]
    refine Node.leaf_mem ?_ hv
    refine (List.mem_append.mp (h.perm.mem_iff.mp hn)).resolve_right fun hmark => ?_
    rw [Ends.leaf?_marks hmark] at hv
    cases hv
  have hpos := List.count_pos_iff.mpr hmem
  omega

mutual

/-- Counting leaves a part what it was. -/
theorem Expr.parts_addReads (reads : List Nat) (e : Expr) : (e.addReads reads).parts = e.parts := by
  cases e with
  | call a f args =>
    have hroot : (call a (f.addReads reads) (addReadsAll reads args)).part = (call a f args).part := by
      simp only [part, kind, address, label, length_addReadsAll]
    rw [addReads, parts, f.parts_addReads, Expr.partsAll_addReadsAll reads args, hroot, parts]
  | binary a op l r =>
    rw [addReads, parts, l.parts_addReads, r.parts_addReads, parts]
    rfl
  | unary a op e =>
    rw [addReads, parts, e.parts_addReads, parts]
    rfl
  | table a ks vs =>
    rw [addReads, parts, Expr.partsAll_addReadsAll reads ks, Expr.partsAll_addReadsAll reads vs, parts]
    rfl
  | index a t k =>
    rw [addReads, parts, t.parts_addReads, k.parts_addReads, parts]
    rfl
  | shared n e => rw [addReads, parts, e.parts_addReads, parts]
  | _ => rfl

theorem Expr.partsAll_addReadsAll (reads : List Nat) (es : List Expr) :
    Expr.partsAll (Expr.addReadsAll reads es) = Expr.partsAll es := by
  cases es with
  | nil => rfl
  | cons e es => rw [addReadsAll, partsAll, e.parts_addReads, Expr.partsAll_addReadsAll reads es, partsAll]

end

theorem Expr.places_addReadsAll (reads : List Nat) (ts : List Expr) :
    places (addReadsAll reads ts) = addReadsAll reads (places ts) := by
  induction ts with
  | nil => rfl
  | cons t ts ih =>
    unfold places at ih ⊢
    have ht : (t.addReads reads).register?.isNone = t.register?.isNone := by cases t <;> rfl
    rw [addReadsAll, List.filter_cons, List.filter_cons, ht, ih]
    split_ifs <;> rfl

mutual

theorem Node.partsAll_expressions_addReads (reads : List Nat) (n : Node) :
    Expr.partsAll (n.addReads reads).expressions = Expr.partsAll n.expressions := by
  cases n with
  | block a body => exact Node.partsAll_expressionsAll_addReadsAll reads body
  | numericFor a v init limit step body =>
    simp only [addReads, expressions, Expr.partsAll_append, Node.partsAll_expressions_addReads]
  | function a name params vararg body => exact Node.partsAll_expressions_addReads _ body
  | expr e => exact congrArg (· ++ []) (e.parts_addReads reads)
  | assign a ts vs kept =>
    change Expr.partsAll (Expr.addReadsAll reads vs ++ Expr.places (Expr.addReadsAll reads ts)) =
      Expr.partsAll (vs ++ Expr.places ts)
    rw [Expr.places_addReadsAll, Expr.partsAll_append, Expr.partsAll_addReadsAll,
      Expr.partsAll_addReadsAll, Expr.partsAll_append]
  | returns a vs => exact Expr.partsAll_addReadsAll reads vs
  | test a c | forLoop a c offset => exact congrArg (· ++ []) (c.parts_addReads reads)
  | forPrep a x y z v => exact Expr.partsAll_addReadsAll reads [x, y, z]
  | _ => rfl

theorem Node.partsAll_expressionsAll_addReadsAll (reads : List Nat) (ns : List Node) :
    Expr.partsAll (expressionsAll (addReadsAll reads ns)) = Expr.partsAll (expressionsAll ns) := by
  cases ns with
  | nil => rfl
  | cons n ns =>
    rw [addReadsAll, expressionsAll, Expr.partsAll_append, Node.partsAll_expressions_addReads reads n,
      Node.partsAll_expressionsAll_addReadsAll reads ns, expressionsAll, Expr.partsAll_append]

end

/-! ## Functions -/

section

variable {data : Bytes} {f : ChunkFile} {p : Prototype} {d : Declaration} {out : List Node}

/-- **A value without parts is told apart.** If a decoded function gives a register such a value, then no
other node that it reads is told by the same, recovered or not. -/
theorem Code.leaf_count (hdecode : ChunkFile.decode data = .ok f) (hp : p ∈ f.walk)
    (hlower : p.lower = .ok d) (hout : out = d.body ∨ Loops.recover d.body = .ok out) {n : Node} {v : Expr}
    (hn : n ∈ d.body) (hv : n.leaf? = some v) :
    (Expr.partsAll (Node.expressionsAll out)).count v.part = 1 := by
  have hlowered : (Expr.partsAll (Node.expressionsAll d.body)).count v.part = 1 := by
    obtain ⟨runs, hruns, hbody⟩ := Code.lower_forall₂ (R := fun i ns => i.Run ns ∧ Lower.Few ns)
      (fun i ns h => ⟨Lower.instruction_run h, Lower.instruction_few h⟩)
      (fun i ns k h => ⟨h.1.renumber k, h.2.renumber k⟩) hlower
    rw [hbody] at hn ⊢
    exact Lower.leaf_count hruns (ChunkFile.decode_ordered hdecode hp) hn hv
  rcases hout with rfl | hrecover
  · exact hlowered
  · obtain ⟨ends, hunrolls⟩ :=
      Loops.recover_unrolls (fun n hn => (p.lower_flat hlower n hn).isSimple) hrecover
    exact hunrolls.leaf_count hn hv hlowered

/-- **A value without parts stays at one place.** Inlining leaves it at one place at most outside of bounds
of which the value is read again, and at one in each of these. -/
theorem Code.inlined_leaf {counted tree : Node} (hdecode : ChunkFile.decode data = .ok f) (hp : p ∈ f.walk)
    (hlower : p.lower = .ok d)
    (hout : out = d.body ∨
      Loops.recover d.body = .ok out ∧ ∀ n ∈ Node.numericLoops out, n.boundsAssigned)
    (hcount : ({ d with body := out } : Declaration).toNode.countUses = .ok counted)
    (hfew : counted.registers.length < 2 ^ 63) (hinline : counted.inlined = .ok tree) :
    ∃ (e : Declaration) (body : List Node), counted = e.toNode ∧
      tree = ({ e with body } : Declaration).toNode ∧ ∀ n ∈ d.body, ∀ v, n.leaf? = some v →
        (Expr.partsAll (Node.readsAll false e.body body)).count v.part ≤ 1 ∧
        ∀ x ∈ Node.readsAll true e.body body, x.parts.count v.part ≤ 1 := by
  obtain ⟨reads, e, body, -, rfl, hcounted, htree, -, heconomical⟩ :=
    Code.inlined_economical hlower hout hcount hfew hinline
  refine ⟨_, body, hcounted, htree, fun n hn v hv => ?_⟩
  have hone := Code.leaf_count hdecode hp hlower (hout.imp_right And.left) hn hv
  rw [← Node.partsAll_expressionsAll_addReadsAll reads out] at hone
  rw [Expr.part_of_isLeaf (Node.leaf?_eq_some hv).1] at hone ⊢
  refine ⟨(heconomical.outside.nodes _ _ _).trans hone.le, fun x hx => ?_⟩
  have hbound := (heconomical.bounds x hx).nodes v.kind v.address v.label
  rw [Expr.partsAll, Expr.partsAll, List.append_nil] at hbound
  exact hbound.trans hone.le

end

end HavokScript
