import HavokScript.Proofs.Chunk.Extent
import HavokScript.Proofs.Decompile.Modular
import HavokScript.Proofs.Decompile.Payment
import HavokScript.Proofs.Decompile.Runs
import Mathlib.Algebra.BigOperators.Ring.List
import Mathlib.Algebra.Ring.Nat

/-!
# The size of a tree

A file is as large as its instructions are (`ChunkFile.extent_le`), lowering makes at most 2050 nodes of an
instruction (`Instruction.runs_size_le`) and recovery at most one more for each statement
(`Loops.Recovers.size_le`). Inlining makes no new nodes, it only puts one node at several places
(`Turns.compactSize_le`). So the compact size of a tree is bounded for each byte of its file, with one node
more for each declared parameter (`ChunkFile.decompile_size`).

A walk over a tree meets an expression with parts at each of its places, and there may be more than one of
them if loops were recovered and registers inlined: a value is folded although its register is read more
often than its use count says. So it is with a loop bound that is read again, and also with an assignment
behind a loop that has an iterator call for its step, which counting takes for a write of the register. If
such an assignment reads its own register twice, each loop doubles what a walk comes to
(`ChunkFile.decompile_outgrows`).
-/

namespace HavokScript

/-! ## Lowered and recovered functions -/

/-- A run has few nodes. -/
theorem Instruction.Run.size_le {i : Instruction} {ns : List Node} (h : i.Run ns) (hi : i.Decoded) :
    Node.sizeAll ns ≤ 2050 := by
  have hall : ∀ ns : List Node, (∀ n ∈ ns, n.addresses.length ≤ 1025) →
      Node.sizeAll ns ≤ 1025 * ns.length := by
    intro ns hns
    induction ns with
    | nil => exact Nat.zero_le _
    | cons n ns ih =>
      rw [List.forall_mem_cons, Node.length_addresses] at hns
      have := ih hns.2
      rw [Node.sizeAll, List.length_cons]
      omega
  have := hall ns (h.size hi)
  have := h.length
  omega

theorem Instruction.runs_size_le {is : List Instruction} {runs : List (List Node)}
    (h : List.Forall₂ Instruction.Run is runs) (his : ∀ i ∈ is, i.Decoded) :
    runs.flatten.length ≤ 2 * is.length ∧
      Node.sizeAll runs.flatten ≤ 2050 * is.length := by
  induction h with
  | nil => exact ⟨Nat.le_refl 0, Nat.le_refl 0⟩
  | @cons i run is runs hrun _ ih =>
    rw [List.forall_mem_cons] at his
    obtain ⟨hlength, hsize⟩ := ih his.2
    have := hrun.length
    have := hrun.size_le his.1
    rw [List.flatten_cons, List.length_append, Node.sizeAll_append, List.length_cons]
    omega

/-- Recovery makes at most one node for each statement. -/
theorem Loops.Recovers.size_le {raw made out : List Node} (h : Recovers raw made out) :
    Node.sizeAll out ≤ Node.sizeAll raw + raw.length + Node.sizeAll made := by
  induction h with
  | straight =>
    rw [Node.sizeAll_append]
    omega
  | numeric _ _ _ _ ihinside ihrest =>
    simp only [Node.sizeAll_append, Node.sizeAll, Node.size, List.length_append, List.length_cons]
      at ihinside ihrest ⊢
    simp only [Ends.start, Ends.finish, Node.size]
    omega
  | region _ _ _ _ _ ihinside ihrest =>
    simp only [Node.sizeAll_append, Node.sizeAll, Node.size, List.length_append, List.length_cons]
      at ihinside ihrest ⊢
    omega

/-- The statements of a function have few nodes for each instruction, recovered or not. -/
theorem Code.lower_size_le {c : Code} {d : Declaration} {out : List Node}
    (hc : ∀ i ∈ c.instructions.items, i.Decoded) (hlower : c.lower = .ok d)
    (hout : out = d.body ∨ Loops.recover d.body = .ok out) :
    Node.sizeAll out ≤ 2052 * c.instructions.items.length := by
  obtain ⟨runs, hruns, hbody⟩ := Code.lower_runs hlower
  obtain ⟨hlength, hsize⟩ := Instruction.runs_size_le hruns hc
  rw [← hbody] at hlength hsize
  rcases hout with rfl | hrecover
  · omega
  · rw [← List.append_nil d.body] at hrecover
    have hrecovers : Node.sizeAll out ≤ Node.sizeAll d.body + d.body.length :=
      (Loops.recovers_of_recover (by simp) hrecover).size_le
    omega

theorem Code.lower_parameters {c : Code} {d : Declaration} (h : c.lower = .ok d) :
    d.parameters.length = c.parameters.toNat := by
  unfold Code.lower at h
  cases hbody : Lower.instructions c c.instructions.items with
  | error e =>
    rw [hbody] at h
    cases h
  | ok body =>
    rw [hbody] at h
    cases h
    have hnumbered := Register.mapM_renumber
      ((List.range c.parameters.toNat).map fun (i : Nat) => ⟨0, c.address, i, 0⟩) 0
    have hlength : ∀ rs : List Register, (Register.numberFrom 0 rs).length = rs.length := fun rs => by
      simpa using congrArg List.length (Register.map_address_numberFrom 0 rs)
    simp only [Declaration.numbered, hnumbered, hlength, List.length_map, List.length_range]

/-! ## Functions alone -/

/-- The compact size of the statements of a function. -/
def Declaration.compactSize (d : Declaration) : Nat := (Node.onceAll d.body []).1

theorem Declaration.Unshared.compactSize {d : Declaration} (h : d.Unshared) :
    d.compactSize = Node.sizeAll d.body :=
  (Node.exactAll_of_unshared h [] List.nodup_nil (List.disjoint_nil_right _)).1

/-- No pass changes how many parameters a function has. -/
theorem Code.alone_parameters {o : Options} (h : o.stages = []) {c : Code} {d : Declaration}
    (hd : c.alone o = some d) : d.parameters.length = c.parameters.toNat := by
  obtain ⟨l, out, hlower, hout, hcases⟩ := Code.alone_passes h hd
  have hparameters := Code.lower_parameters hlower
  rcases hcases with ⟨-, rfl⟩ | ⟨-, counted, hcount, hinline⟩
  · exact hparameters
  · obtain ⟨-, t, body, s, -, rfl, -, htree⟩ :=
      Code.inlined_turns hlower (hout.imp_right And.right) hcount hinline
    rw [Declaration.toNode_inj htree]
    exact (List.length_map _).trans hparameters

/-- The compact size of a function alone is bounded for each of its instructions. -/
theorem Code.alone_compactSize {o : Options} (h : o.stages = []) {c : Code} {d : Declaration}
    (hc : ∀ i ∈ c.instructions.items, i.Decoded) (hd : c.alone o = some d) :
    d.compactSize ≤ 2052 * c.instructions.items.length := by
  obtain ⟨l, out, hlower, hout, hcases⟩ := Code.alone_passes h hd
  have hout' : out = l.body ∨ Loops.recover l.body = .ok out := hout.imp_right And.right
  have hsize := Code.lower_size_le hc hlower hout'
  rcases hcases with ⟨-, rfl⟩ | ⟨-, counted, hcount, hinline⟩
  · have hunshared : ({ l with body := out } : Declaration).Unshared :=
      Declaration.unshared_of_recovered (Code.recovered hlower hout')
    rw [hunshared.compactSize]
    exact hsize
  · obtain ⟨hrecovered, t, body, s, -, rfl, hturns, htree⟩ :=
      Code.inlined_turns hlower hout' hcount hinline
    have hunshared : (({ l with body := out } : Declaration).addReads t.reads).Unshared :=
      Declaration.unshared_of_recovered (Declaration.recovered_addReads hrecovered t.reads)
    have hle := hturns.compactSize_le hunshared
    have hsame : Node.sizeAll (({ l with body := out } : Declaration).addReads t.reads).body =
        Node.sizeAll out := Node.sizeAll_addReadsAll t.reads out
    rw [hsame] at hle
    rw [Declaration.toNode_inj htree]
    exact hle.trans hsize

/-- How many nodes the statements of a function have, shared ones at each place. -/
def Declaration.size (d : Declaration) : Nat := Node.sizeAll d.body

theorem Node.length_registersAll_le (ns : List Node) :
    (Node.registersAll ns).length ≤ Node.sizeAll ns := by
  rw [← Node.length_addressesAll, Node.addressesAll, Outline.addresses, List.length_map]
  exact List.length_filterMap_le ..

/-- No shared expression of a function stands at two places if it was not inlined or has its markers. -/
theorem Code.alone_size {o : Options} (h : o.stages = []) {c : Code} {d : Declaration}
    (hc : ∀ i ∈ c.instructions.items, i.Decoded) (hd : c.alone o = some d)
    (honce : o.inlined = false ∨ o.structured = false ∧ c.instructions.items.length < 2 ^ 50) :
    d.compactSize = d.size := by
  obtain ⟨l, out, hlower, hout, hcases⟩ := Code.alone_passes h hd
  rcases hcases with ⟨-, rfl⟩ | ⟨hinlined, counted, hcount, hinline⟩
  · have hunshared : ({ l with body := out } : Declaration).Unshared :=
      Declaration.unshared_of_recovered (Code.recovered hlower (hout.imp_right And.right))
    exact hunshared.compactSize
  rw [hinlined] at honce
  obtain ⟨hmarkers, hfew⟩ := honce.resolve_left (by decide)
  have hbody : out = l.body := hout.resolve_right fun hrecovered => by
    rw [hmarkers] at hrecovered
    exact absurd hrecovered.1 (by decide)
  subst hbody
  have hregisters : counted.registers.length < 2 ^ 63 := by
    obtain ⟨hrecovered, t, -, -, -, rfl, -⟩ := Code.inlined_turns hlower (.inl rfl) hcount hinline
    rw [Declaration.registers_toNode, Declaration.registers_addReads hrecovered, List.length_map]
    have hsize := Code.lower_size_le hc hlower (.inl rfl)
    have hle := Node.length_registersAll_le l.body
    have hparameters := Code.lower_parameters hlower
    have := c.parameters.toNat_lt
    rw [Declaration.registers, List.length_append]
    omega
  obtain ⟨reads, e, body, s, rfl, -, htree, hturns, heconomical⟩ :=
    Code.inlined_economical hlower (.inl rfl) hcount hregisters hinline
  rw [Declaration.toNode_inj htree]
  exact heconomical.compactSize
    (forall_addReadsAll fun n hn => flat_addReads (c.lower_flat hlower n hn) reads) hturns

/-! ## Closures -/

namespace Declaration

/-- The compact size of a declaration with a name: two more nodes are the declaration and its block. -/
def weight (d : Declaration) : Nat := 3 + d.parameters.length + d.compactSize

theorem onceAll_locals (ds : List Declaration) (i : Nat) (ns : List Node) (seen : List Nat) :
    Node.onceAll (locals i ds ++ ns) seen =
      ((ds.map weight).sum + (Node.onceAll ns seen).1, (Node.onceAll ns seen).2) := by
  induction ds generalizing i with
  | nil =>
    rw [List.map_nil, List.sum_nil, Nat.zero_add]
    rfl
  | cons d ds ih =>
    have hlocal : (d.toLocal i).once seen = (d.weight, seen) := by
      refine Prod.ext ?_ rfl
      change 1 + d.parameters.length + (d.compactSize + 1) + 1 = d.weight
      unfold weight
      omega
    rw [locals, List.cons_append, Node.onceAll, Walk.and, hlocal, ih (i + 1), List.map_cons,
      List.sum_cons, Nat.add_assoc]

theorem compactSize_enclose (d : Declaration) (ds : List Declaration) :
    (d.enclose ds).compactSize = (ds.map weight).sum + d.compactSize :=
  congrArg Prod.fst (onceAll_locals ds 0 d.body [])

theorem size_enclose (d : Declaration) (ds : List Declaration) :
    (d.enclose ds).size = (ds.map fun e => 3 + e.parameters.length + e.size).sum + d.size := by
  have hlocals : ∀ i, Node.sizeAll (locals i ds) =
      (ds.map fun e => 3 + e.parameters.length + e.size).sum := by
    induction ds with
    | nil => exact fun i => rfl
    | cons e ds ih =>
      intro i
      have hlocal : (e.toLocal i).size = 1 + e.parameters.length + (e.size + 1) + 1 := rfl
      rw [locals, Node.sizeAll, ih (i + 1), hlocal, List.map_cons, List.sum_cons]
      omega
  rw [size, enclose, Node.sizeAll_append, hlocals, size]

theorem compactSize_toFile (d : Declaration) : d.toFile.compactSize = d.weight := by
  change 0 + d.parameters.length + (d.compactSize + 1) + 1 + 0 + 1 = d.weight
  unfold weight
  omega

theorem visited_toFile (d : Declaration) :
    (d.toFile.visited fun _ => true).length = 3 + d.parameters.length + d.size := by
  have hsize : d.toFile.size = 0 + d.parameters.length + (d.size + 1) + 1 + 0 + 1 := rfl
  rw [Node.length_visited, hsize]
  omega

end Declaration

/-- What a function weighs alone, against the bytes that it takes in a file. -/
theorem Code.alone_weight {o : Options} (hdr : Header) (h : o.stages = []) {c : Code} {d : Declaration}
    (hc : ∀ i ∈ c.instructions.items, i.Decoded) (hd : c.alone o = some d) :
    d.weight ≤ 1024 * c.extent hdr + c.parameters.toNat := by
  have hcompact := Code.alone_compactSize h hc hd
  have hparameters := Code.alone_parameters h hd
  unfold Declaration.weight extent
  omega

namespace Prototype

theorem sum_weight_le {cost : Prototype → Nat} {ps : List Prototype} {ds : List Declaration}
    (h : List.Forall₂ (fun p d => d.weight ≤ (p.walk.map cost).sum) ps ds) :
    (ds.map Declaration.weight).sum ≤ ((walkAll ps).map cost).sum := by
  induction h with
  | nil => exact Nat.le_refl 0
  | cons hfirst _ ih =>
    rw [walkAll, List.map_append, List.sum_append, List.map_cons, List.sum_cons]
    exact Nat.add_le_add hfirst ih

/-- What a prototype is put together to weighs no more than its functions cost. -/
theorem weight_assembled {alone : Code → Option Declaration} {cost : Prototype → Nat} {p : Prototype}
    (h : ∀ q ∈ p.walk, ∀ e, alone q.toCode = some e → e.weight ≤ cost q) {d : Declaration}
    (hd : p.assembled alone = some d) : d.weight ≤ (p.walk.map cost).sum := by
  refine assembled_induction (P := fun p d => d.weight ≤ (p.walk.map cost).sum) ?_ p h hd
  intro p d ds hd hown hds
  have henclose : (d.enclose ds).weight = d.weight + (ds.map Declaration.weight).sum := by
    unfold Declaration.weight
    rw [d.compactSize_enclose ds]
    change 3 + d.parameters.length + _ = _
    unfold Declaration.weight
    omega
  rw [henclose, walk_eq, List.map_cons, List.sum_cons]
  exact Nat.add_le_add (hown d hd) (sum_weight_le hds)

theorem parameters_assembled {o : Options} (h : o.stages = []) {p : Prototype} {d : Declaration}
    (hd : p.assembled (Code.alone o) = some d) : d.parameters.length = p.parameters.toNat := by
  refine assembled_induction (Q := fun _ => True)
    (P := fun p d => d.parameters.length = p.parameters.toNat) ?_ p (fun _ _ => trivial) hd
  intro p d ds hd _ _
  change d.parameters.length = _
  exact Code.alone_parameters h hd

/-- If in no function alone a shared expression stands at two places, it does in none that is put
together. -/
theorem size_assembled {alone : Code → Option Declaration} {p : Prototype}
    (h : ∀ q ∈ p.walk, ∀ e, alone q.toCode = some e → e.compactSize = e.size) {d : Declaration}
    (hd : p.assembled alone = some d) : d.compactSize = d.size := by
  refine assembled_induction (P := fun _ d => d.compactSize = d.size) ?_ p h hd
  intro p d ds hd hown hds
  have hall : ds.map Declaration.weight = ds.map fun e => 3 + e.parameters.length + e.size := by
    generalize p.inner = ps at hds
    induction hds with
    | nil => rfl
    | cons hfirst _ ih => rw [List.map_cons, ih, List.map_cons, Declaration.weight, hfirst]
  rw [d.compactSize_enclose, d.size_enclose, hown d hd, hall]

end Prototype

/-! ## Files -/

namespace ChunkFile

/-- The tree of a file is that of its main function, put together from what its functions are alone. -/
theorem assembled_of_decompile {f : ChunkFile} {o : Options} {tree : Node} (hstages : o.stages = [])
    (h : f.decompile o = .ok tree) :
    ∃ p d, f.root = some p ∧ p.assembled (Code.alone o) = some d ∧ tree = d.toFile := by
  cases hroot : f.root with
  | none =>
    unfold decompile at h
    rw [hroot] at h
    cases h
  | some p =>
    have hassembled := f.decompile_assembled hstages p
    rw [← hroot] at hassembled
    change (f.decompile o).toOption = _ at hassembled
    rw [h] at hassembled
    obtain ⟨d, hd, rfl⟩ := Option.map_eq_some_iff.mp hassembled.symm
    exact ⟨p, d, rfl, hd, rfl⟩

/-- **A tree has not many more nodes than its file has bytes.** Each byte of a file makes at most 1024 nodes,
if an expression with parts counts at its first place only, and each declared parameter is one more. A walk
comes to more nodes than these only if loops were recovered and registers inlined. -/
theorem decompile_size {data : Bytes} {f : ChunkFile} {o : Options} {tree : Node}
    (hdecode : decode data = .ok f) (hstages : o.stages = []) (htree : f.decompile o = .ok tree) :
    tree.compactSize ≤ 1024 * data.length + (f.walk.map fun p => p.parameters.toNat).sum ∧
      (o.inlined = false ∨ o.structured = false ∧ data.length < 2 ^ 52 →
        (tree.visited fun _ => true).length = tree.compactSize) := by
  obtain ⟨p, d, hroot, hd, rfl⟩ := assembled_of_decompile hstages htree
  obtain ⟨-, hdecoded⟩ := decode_gives hdecode
  have hcodes := sum_extent_le hdecode
  have hwalk : f.walk = p.walk := by
    unfold walk
    rw [hroot]
  rw [hwalk] at hdecoded hcodes ⊢
  constructor
  · have hweight := Prototype.weight_assembled
      (fun q hq e he => Code.alone_weight f.header hstages (hdecoded q hq) he) hd
    have hsplit : (p.walk.map fun q => 1024 * q.toCode.extent f.header + q.parameters.toNat).sum =
        1024 * (p.walk.map fun q => q.toCode.extent f.header).sum +
          (p.walk.map fun q => q.parameters.toNat).sum := by
      rw [List.sum_map_add, List.sum_map_mul_left]
    rw [d.compactSize_toFile]
    omega
  · intro honce
    have hsame : d.compactSize = d.size := by
      refine Prototype.size_assembled (fun q hq e he => ?_) hd
      refine Code.alone_size hstages (hdecoded q hq) he (honce.imp_right fun hmarkers => ?_)
      have hextent := extent_le_of_mem hdecode (hwalk ▸ hq)
      unfold Code.extent at hextent
      exact ⟨hmarkers.1, by omega⟩
    rw [d.visited_toFile, d.compactSize_toFile, Declaration.weight, hsame]

/-- Each declared parameter is a node of the tree. -/
theorem parameters_lt_visited {f : ChunkFile} {p : Prototype} {o : Options} {tree : Node}
    (hroot : f.root = some p) (hstages : o.stages = []) (htree : f.decompile o = .ok tree) :
    p.parameters.toNat < (tree.visited fun _ => true).length := by
  obtain ⟨q, d, hq, hd, rfl⟩ := assembled_of_decompile hstages htree
  cases hroot.symm.trans hq
  have hparameters := Prototype.parameters_assembled hstages hd
  rw [d.visited_toFile]
  omega

end ChunkFile

/-- A file with an empty function for which as many parameters are declared as the file could have nodes
with 1024 for each byte. -/
def crowdedChunk : Bytes :=
  Assembly.bytes ⟨{ Header.standard with sizeSize := 4 }, some ⟨⟨0, 49152, 0, 0, [], [], none⟩, []⟩⟩

/-- A file in which R5 is doubled so often. The loop between two doublings has an iterator call as its step,
which counting takes for a write of R5 and inlining does not; so what is doubled is folded, and stands at
both places where it is read. -/
def doubledChunk (times : Nat) : Bytes :=
  let twice := [Word.ofABC 7 1 0 0, Word.ofABC 7 2 0 0, Word.ofABC 14 2 0 1, Word.ofAsBx 62 1 0,
    Word.ofAsBx 63 1 (-1), Word.ofABC 40 5 5 5]
  Assembly.bytes ⟨{ Header.standard with sizeSize := 4 }, some ⟨⟨0, 1, 0, 10,
    [Word.ofABC 7 5 0 0] ++ (List.replicate times twice).flatten ++ [Word.ofABC 9 5 2 0], [], none⟩, []⟩⟩

/-- With two doublings a walk comes to more nodes than the compact size. Without any, and without recovery,
it comes to as many. -/
theorem ChunkFile.decompile_size_doubledChunk :
    (∃ f tree, decode (doubledChunk 2) = .ok f ∧ f.decompile .standard = .ok tree ∧
      tree.compactSize ≤ 1024 * (doubledChunk 2).length + (f.walk.map fun p => p.parameters.toNat).sum ∧
      tree.compactSize < (tree.visited fun _ => true).length) ∧
    ∃ f tree, decode (doubledChunk 0) = .ok f ∧ f.decompile ⟨false, true, []⟩ = .ok tree ∧
      (tree.visited fun _ => true).length = tree.compactSize := by
  constructor
  · have hrun : (decode (doubledChunk 2)).toOption.any fun f =>
        (f.decompile .standard).toOption.any fun tree => tree.compactSize < tree.size := by
      decide +kernel
    obtain ⟨f, hdecode, hrun⟩ := exists_ok_of_any hrun
    obtain ⟨tree, htree, hrun⟩ := exists_ok_of_any hrun
    refine ⟨f, tree, hdecode, htree, (decompile_size hdecode rfl htree).1, ?_⟩
    rw [tree.length_visited]
    exact of_decide_eq_true hrun
  · have hrun : (decode (doubledChunk 0)).toOption.any fun f =>
        (f.decompile ⟨false, true, []⟩).toOption.any fun tree => 0 < tree.size := by
      decide +kernel
    have hlength : (doubledChunk 0).length = 56 := by decide +kernel
    obtain ⟨f, hdecode, hrun⟩ := exists_ok_of_any hrun
    obtain ⟨tree, htree, -⟩ := exists_ok_of_any hrun
    refine ⟨f, tree, hdecode, htree, (decompile_size hdecode rfl htree).2 (.inr ⟨rfl, ?_⟩)⟩
    rw [hlength]
    omega

/-- A walk comes to more than 1024 nodes for each byte of a file, if it declares many parameters, and also
if it does not, if shared expressions stand inside one another. -/
theorem ChunkFile.decompile_outgrows :
    (∃ f tree, decode crowdedChunk = .ok f ∧ f.decompile ⟨false, false, []⟩ = .ok tree ∧
      1024 * crowdedChunk.length < (tree.visited fun _ => true).length) ∧
    ∃ f tree, decode (doubledChunk 18) = .ok f ∧ f.decompile .standard = .ok tree ∧
      1024 * (doubledChunk 18).length + (f.walk.map fun p => p.parameters.toNat).sum <
        (tree.visited fun _ => true).length := by
  constructor
  · have hrun : (decode crowdedChunk).toOption.any fun f =>
        (f.root.any fun p => p.parameters = 49152) && (f.decompile ⟨false, false, []⟩).isOk := by
      decide +kernel
    obtain ⟨f, hdecode, hrun⟩ := exists_ok_of_any hrun
    rw [Bool.and_eq_true, Option.any_eq_true] at hrun
    obtain ⟨⟨p, hroot, hparameters⟩, hok⟩ := hrun
    cases htree : f.decompile ⟨false, false, []⟩ with
    | error e =>
      rw [htree] at hok
      cases hok
    | ok tree =>
      refine ⟨f, tree, hdecode, htree, ?_⟩
      have hlength : crowdedChunk.length = 48 := by decide +kernel
      have hlt := parameters_lt_visited hroot rfl htree
      rw [of_decide_eq_true hparameters] at hlt
      rw [hlength]
      exact hlt
  · have hrun : (decode (doubledChunk 18)).toOption.any fun f =>
        (f.decompile .standard).toOption.any fun tree =>
          1024 * (doubledChunk 18).length + (f.walk.map fun p => p.parameters.toNat).sum < tree.size := by
      decide +kernel
    obtain ⟨f, hdecode, hrun⟩ := exists_ok_of_any hrun
    obtain ⟨tree, htree, hrun⟩ := exists_ok_of_any hrun
    refine ⟨f, tree, hdecode, htree, ?_⟩
    rw [tree.length_visited]
    exact of_decide_eq_true hrun

end HavokScript
