import HavokScript.Proofs.Decompile.Lowering
import HavokScript.Proofs.Tree.Addresses

/-!
# What an instruction becomes

Lowering makes a run of statements of each instruction, and the statements of a function are these runs
one behind the other (`Code.lower_runs`). A run has at most two statements. All nodes in them, at any
depth, have the address of the instruction, and there are not more than the operands of an instruction
can count: an operand that counts has at most nine bits (`Instruction.argument_range`).
-/

namespace HavokScript

/-! ## Operands that count -/

theorem Operand.ofField_range {a : Argument} {x : Nat} (hx : x ≤ 511) :
    ∀ o ∈ Operand.ofField a x, 0 ≤ o.value ∧ o.value ≤ 511 := by
  intro o ho
  cases a with
  | unused => cases ho
  | registerOrConstant =>
    rw [List.mem_singleton.mp ho, ofRegisterOrConstant]
    split_ifs
    · exact ⟨by dsimp only; omega, by dsimp only; omega⟩
    · exact ⟨by dsimp only; omega, by dsimp only; omega⟩
  | _ =>
    rw [List.mem_singleton.mp ho]
    exact ⟨by dsimp only; omega, by dsimp only; omega⟩

/-- The operands of an instruction with three fields have at most nine bits. -/
theorem Instruction.argument_range {i : Instruction} {op : Opcode} {a b c : Argument}
    (hop : Opcode.ofCode? i.op = some op) (hlayout : op.layout = .abc a b c) (hi : i.Decoded) (n : Nat) :
    0 ≤ i.argument n ∧ i.argument n ≤ 511 := by
  have hfields : ∀ o ∈ i.operands.items, 0 ≤ o.value ∧ o.value ≤ 511 := by
    rw [Lower.decoded_operands hi hop, hlayout]
    simp only [operandsOf, List.forall_mem_append]
    exact ⟨⟨Operand.ofField_range (by unfold Word.a; omega),
      Operand.ofField_range (by unfold Word.b; omega)⟩, Operand.ofField_range (by unfold Word.c; omega)⟩
  unfold argument
  split
  · rename_i o ho
    exact hfields o (List.mem_of_getElem? ho)
  · exact ⟨Int.le_refl 0, by omega⟩

/-! ## Statements at one address -/

theorem Expr.addressesAll_of_leaves {a : Int} {es : List Expr} (h : ∀ e ∈ es, e.addresses = [a]) :
    Expr.addressesAll es = List.replicate es.length a := by
  induction es with
  | nil => rfl
  | cons e es ih =>
    rw [List.forall_mem_cons] at h
    rw [addressesAll_cons, h.1, ih h.2]
    rfl

/-- The statements of an instruction: at most two, all nodes of which have the address of the
instruction, and if it was decoded they are not many. -/
structure Instruction.Run (i : Instruction) (ns : List Node) : Prop where
  length : ns.length ≤ 2
  flat : ∀ n ∈ ns, n.Flat
  address : ∀ n ∈ ns, ∀ a ∈ n.addresses, a = i.address
  size : i.Decoded → ∀ n ∈ ns, n.addresses.length ≤ 1025

namespace Lower

/-- All nodes of the statement have the address of the instruction, and if it was decoded they are not
many. -/
def Stamped (i : Instruction) (n : Node) : Prop :=
  ∃ k, n.addresses = List.replicate k i.address ∧ (i.Decoded → k ≤ 1025)

theorem addressesAll_regs (address first : Int) (count : Nat) :
    Expr.addressesAll (regs address first count) = List.replicate count address := by
  have hleaves : ∀ e ∈ regs address first count, e.addresses = [address] := by
    intro e he
    obtain ⟨i, -, rfl⟩ := List.mem_map.mp he
    rfl
  rw [Expr.addressesAll_of_leaves hleaves, regs, List.length_map, List.length_range]

theorem literal_leaf (c : Code) (address index : Int) :
    Outcome (fun e => e.addresses = [address]) (fun _ => True) (literal c address index) := by
  refine (outcome_any _).bind fun k _ => ?_
  split_ifs
  all_goals first
    | exact Outcome.pure rfl
    | exact trivial

theorem name_leaf (c : Code) (address index : Int) :
    Outcome (fun e => e.addresses = [address]) (fun _ => True) (name c address index) := by
  refine (outcome_any _).bind fun k _ => ?_
  cases k.string? with
  | none => exact trivial
  | some s => exact Outcome.pure rfl

theorem operand_leaf (c : Code) (i : Instruction) (n : Nat) :
    Outcome (fun e => e.addresses = [i.address]) (fun _ => True) (operand c i n) := by
  unfold operand
  split
  · exact trivial
  · split_ifs
    · exact Outcome.pure rfl
    · exact literal_leaf c _ _
    · exact Outcome.pure rfl

theorem addresses_condition (i : Instruction) (register : Int) (n : Nat) :
    ∃ k ≤ 2, (condition i register n).addresses = List.replicate k i.address := by
  unfold condition
  split_ifs
  · exact ⟨2, Nat.le_refl 2, rfl⟩
  · exact ⟨1, by omega, rfl⟩

theorem addresses_foldl {a : Int} {op : Bytes} {rs : List Expr} (hrs : ∀ r ∈ rs, r.addresses = [a])
    {e : Expr} {k : Nat} (he : e.addresses = List.replicate k a) :
    (rs.foldl (fun e r => .binary a op e r) e).addresses = List.replicate (k + 2 * rs.length) a := by
  induction rs generalizing e k with
  | nil => exact he
  | cons r rs ih =>
    rw [List.forall_mem_cons] at hrs
    have hnext : (Expr.binary a op e r).addresses = List.replicate (k + 2) a := by
      rw [Expr.addresses_binary, he, hrs.1, ← List.replicate_succ', ← List.replicate_succ]
    rw [List.foldl_cons, ih hrs.2 hnext, List.length_cons]
    congr 1
    omega

/-- A chain of as many operators as there are registers behind the first one. -/
theorem addresses_concat (i : Instruction) :
    (concat i).addresses = List.replicate
      (1 + 2 * (i.argument 2 - wrap64 (i.argument 1 + 1) + 1).toNat) i.address := by
  unfold concat
  dsimp only
  rw [addresses_foldl (k := 1) ?_ rfl, regs, List.length_map, List.length_range]
  intro r hr
  obtain ⟨j, -, rfl⟩ := List.mem_map.mp hr
  rfl

/-- What holds of the statements of an instruction. -/
abbrev Runs (i : Instruction) (x : Except DecompileCause (List Node)) : Prop :=
  Outcome (fun ns => ns.length ≤ 2 ∧ ∀ n ∈ ns, Stamped i n) (fun _ => True) x

section

variable {i : Instruction}

theorem Runs.none : Runs i (.ok []) := ⟨Nat.zero_le 2, nofun⟩

theorem Runs.one {n : Node} (h : Stamped i n) : Runs i (.ok [n]) :=
  ⟨Nat.le_succ 1, List.forall_mem_singleton.mpr h⟩

theorem Runs.two {m n : Node} (hm : Stamped i m) (hn : Stamped i n) : Runs i (.ok [m, n]) :=
  ⟨Nat.le_refl 2, List.forall_mem_cons.mpr ⟨hm, List.forall_mem_singleton.mpr hn⟩⟩

theorem Stamped.few {n : Node} (k : Nat) (h : n.addresses = List.replicate k i.address)
    (hk : k ≤ 1025) : Stamped i n := ⟨k, h, fun _ => hk⟩

theorem Stamped.assign {target value : Expr} {k l : Nat}
    (ht : target.addresses = List.replicate k i.address)
    (hv : value.addresses = List.replicate l i.address) (hkl : i.Decoded → k + l ≤ 1024) :
    Stamped i (assign i.address target value) := by
  refine ⟨k + l + 1, ?_, fun hi => Nat.succ_le_succ (hkl hi)⟩
  rw [Lower.assign, Node.addresses_assign, Expr.addressesAll_cons, Expr.addressesAll_cons,
    Expr.addressesAll_nil, List.append_nil, List.append_nil, ht, hv, List.replicate_append_replicate,
    List.replicate_succ]

/-- A target and a value that have one or a few nodes each. -/
theorem Stamped.small {target value : Expr} {k l : Nat}
    (ht : target.addresses = List.replicate k i.address)
    (hv : value.addresses = List.replicate l i.address) (hk : k ≤ 3) (hl : l ≤ 3) :
    Stamped i (Lower.assign i.address target value) := .assign ht hv fun _ => by omega

section

variable {target value table key : Expr}

theorem Stamped.leaves (ht : target.addresses = [i.address]) (hv : value.addresses = [i.address]) :
    Stamped i (Lower.assign i.address target value) :=
  .small (k := 1) (l := 1) ht hv (by omega) (by omega)

theorem addresses_index_leaf (ht : table.addresses = [i.address]) (hk : key.addresses = [i.address]) :
    (Expr.index i.address table key).addresses = List.replicate 3 i.address := by
  rw [Expr.addresses_index, ht, hk]
  rfl

theorem Stamped.fetch (htarget : target.addresses = [i.address]) (ht : table.addresses = [i.address])
    (hk : key.addresses = [i.address]) :
    Stamped i (Lower.assign i.address target (.index i.address table key)) :=
  .small (k := 1) htarget (addresses_index_leaf ht hk) (by omega) (by omega)

theorem Stamped.store (ht : table.addresses = [i.address]) (hk : key.addresses = [i.address])
    (hv : value.addresses = [i.address]) :
    Stamped i (Lower.assign i.address (.index i.address table key) value) :=
  .small (l := 1) (addresses_index_leaf ht hk) hv (by omega) (by omega)

end

theorem arithmetic_runs (c : Code) (op : String) : Runs i (arithmetic c i op) := by
  refine (operand_leaf c i 1).bind fun left hleft => (operand_leaf c i 2).bind fun right hright => ?_
  have hvalue : (Expr.binary i.address (utf8 op) left right).addresses =
      List.replicate 3 i.address := by
    rw [Expr.addresses_binary, hleft, hright]
    rfl
  exact Runs.one (.small (k := 1) rfl hvalue (by omega) (by omega))

theorem unary_runs (op : String) : Runs i (unary i op) :=
  Runs.one (.small (k := 1) (l := 2) rfl rfl (by omega) (by omega))

theorem comparison_runs (c : Code) (op whenOne : String) : Runs i (comparison c i op whenOne) := by
  refine (operand_leaf c i 1).bind fun left hleft => (operand_leaf c i 2).bind fun right hright => ?_
  exact Runs.one (.few 4 (by simp [hleft, hright, List.replicate_succ]) (by omega))

theorem addresses_call (i : Instruction) :
    (call i).addresses = List.replicate ((i.argument 1 - 1).toNat + 2) i.address := by
  rw [call, Expr.addresses_call, addressesAll_regs]
  rfl

theorem call_runs (hrange : i.Decoded → ∀ n, 0 ≤ i.argument n ∧ i.argument n ≤ 511) :
    Runs i (.ok [.assign i.address (regs i.address (i.argument 0) (i.argument 2 - 1).toNat) [call i]
      false]) := by
  refine Runs.one ⟨(i.argument 2 - 1).toNat + ((i.argument 1 - 1).toNat + 2) + 1, ?_, fun hi => ?_⟩
  · rw [Node.addresses_assign, Expr.addressesAll_cons, Expr.addressesAll_nil, List.append_nil,
      addressesAll_regs, addresses_call, List.replicate_append_replicate, List.replicate_succ]
  · have := hrange hi 1
    have := hrange hi 2
    omega

theorem tailCall_runs (hrange : i.Decoded → ∀ n, 0 ≤ i.argument n ∧ i.argument n ≤ 511) :
    Runs i (.ok [.returns i.address [call i]]) := by
  refine Runs.one ⟨(i.argument 1 - 1).toNat + 2 + 1, ?_, fun hi => ?_⟩
  · rw [Node.addresses_returns, Expr.addressesAll_cons, Expr.addressesAll_nil, List.append_nil,
      addresses_call, List.replicate_succ]
    rfl
  · have := hrange hi 1
    omega

/-- A leaf that is stored or with which something is stored. -/
theorem bind_assign_runs {x : Except DecompileCause Expr} {target value : Expr → Expr}
    (hx : Outcome (fun e => e.addresses = [i.address]) (fun _ => True) x)
    (h : ∀ e, e.addresses = [i.address] → Stamped i (Lower.assign i.address (target e) (value e))) :
    Runs i (do let e ← x; return [Lower.assign i.address (target e) (value e)]) :=
  hx.bind fun e he => Runs.one (h e he)

theorem opcode_runs (c : Code) {op : Opcode} (hop : Opcode.ofCode? i.op = some op) :
    Runs i (opcode c i op) := by
  cases op
  case add | sub | mul | div | mod | pow | addBK | subBK | mulBK | divBK | modBK | powBK =>
    exact arithmetic_runs c _
  case unm | not | notR1 | len => exact unary_runs _
  case eq | lt | le | eqBK | ltBK | leBK => exact comparison_runs c _ _
  case call | callI | callIR1 | callC | callM => exact call_runs (Instruction.argument_range hop rfl)
  case tailCall | tailCallI | tailCallIR1 | tailCallC | tailCallM =>
    exact tailCall_runs (Instruction.argument_range hop rfl)
  case jmp => exact Runs.one (.few 1 rfl (by omega))
  case forPrep => exact Runs.one (.few 5 rfl (by omega))
  case forLoop => exact Runs.one (.few 2 rfl (by omega))
  case tForLoop =>
    refine Runs.one ⟨(i.argument 1).toNat + 1, ?_, fun hi => ?_⟩
    · rw [Node.addresses_tForLoop, List.map_map, List.replicate_succ, Function.comp_def, List.map_const',
        List.length_range]
    · have := Instruction.argument_range hop rfl hi 1
      omega
  case test | testR1 =>
    obtain ⟨k, hk, hcondition⟩ := addresses_condition i (i.argument 0) 1
    exact Runs.one (.few (k + 1) (by rw [Node.addresses_test, hcondition, List.replicate_succ]) (by omega))
  case testSet =>
    obtain ⟨k, hk, hcondition⟩ := addresses_condition i (i.argument 1) 2
    refine Runs.two (.few (k + 1) ?_ (by omega)) (.leaves rfl rfl)
    rw [Node.addresses_test, hcondition, List.replicate_succ]
  case loadBool =>
    have hvalue : Stamped i (Lower.assign i.address (reg i.address (i.argument 0))
        (.bool i.address (i.argument 1 ≠ 0))) := .leaves rfl rfl
    by_cases hskip : i.argument 2 = 0
    · simp only [opcode, if_pos hskip]
      exact Runs.one hvalue
    · simp only [opcode, if_neg hskip]
      exact Runs.two hvalue (.few 1 rfl (by omega))
  case loadNil =>
    refine Runs.one ⟨2 * max 1 (i.argument 1 - i.argument 0 + 1).toNat + 1, ?_, fun hi => ?_⟩
    · have hnils : ∀ count, Expr.addressesAll (List.replicate count (.nil i.address)) =
          List.replicate count i.address := fun count => by
        rw [Expr.addressesAll_of_leaves (a := i.address) fun e he => by
          rw [List.eq_of_mem_replicate he]; rfl, List.length_replicate]
      rw [Node.addresses_assign, addressesAll_regs, hnils, List.replicate_append_replicate,
        List.replicate_succ, Nat.two_mul]
    · have := Instruction.argument_range hop rfl hi 0
      have := Instruction.argument_range hop rfl hi 1
      omega
  case loadK => exact bind_assign_runs (operand_leaf c i 1) fun _ h => .leaves rfl h
  case getGlobal | getGlobalMem =>
    exact bind_assign_runs (name_leaf c _ _) fun _ h => .leaves rfl h
  case setGlobal => exact bind_assign_runs (name_leaf c _ _) fun _ h => .leaves h rfl
  case move => exact Runs.one (.leaves rfl rfl)
  case concat =>
    refine Runs.one (.assign (k := 1) rfl (addresses_concat i) fun hi => ?_)
    have := Instruction.argument_range hop rfl hi 1
    have := Instruction.argument_range hop rfl hi 2
    rw [wrap64, Int.bmod_eq_of_le (by omega) (by omega)]
    omega
  case vararg =>
    refine Runs.one ⟨max 1 (i.argument 1 - 1).toNat + 1 + 1, ?_, fun hi => ?_⟩
    · rw [Node.addresses_assign, addressesAll_regs, List.replicate_succ, List.replicate_succ']
      rfl
    · have := Instruction.argument_range hop rfl hi 1
      omega
  case ret =>
    by_cases hcount : i.argument 1 ≤ 0
    · simp only [opcode, if_pos hcount]
      exact Runs.none
    · simp only [opcode, if_neg hcount]
      refine Runs.one ⟨(i.argument 1 - 1).toNat + 1, ?_, fun hi => ?_⟩
      · rw [Node.addresses_returns, addressesAll_regs, List.replicate_succ]
      · have := Instruction.argument_range hop rfl hi 1
        omega
  case closure | newTable | getUpval | setUpval | setUpvalR1 => exact Runs.one (.leaves rfl rfl)
  case getField | getFieldR1 | getFieldMM =>
    exact bind_assign_runs (name_leaf c _ _) fun _ h => .fetch rfl rfl h
  case setField | setFieldR1 =>
    refine (name_leaf c _ _).bind fun key hkey => ?_
    exact bind_assign_runs (operand_leaf c i 2) fun _ h => .store rfl hkey h
  case getTable | getTableS | getTableN =>
    exact bind_assign_runs (operand_leaf c i 2) fun _ h => .fetch rfl rfl h
  case setTable | setTableS | setTableN | setTableBK | setTableSBK | setTableNBK =>
    refine (operand_leaf c i 1).bind fun key hkey => ?_
    exact bind_assign_runs (operand_leaf c i 2) fun _ h => .store rfl hkey h
  case self =>
    refine (operand_leaf c i 2).bind fun key hkey => ?_
    exact Runs.two (.leaves rfl rfl) (.fetch rfl rfl hkey)
  all_goals exact Runs.none

end

/-! ## Functions -/

theorem instruction_run {c : Code} {i : Instruction} {ns : List Node}
    (h : instruction c i = .ok ns) : i.Run ns := by
  have hflat : ∀ n ∈ ns, n.Flat := by
    have hmade := instruction_outcome c i
    rw [h] at hmade
    intro n hn
    obtain ⟨_, _, op, -, hstatement⟩ := hmade n hn
    exact hstatement.flat
  unfold instruction at h
  split at h
  · cases h
    exact ⟨Nat.zero_le 2, nofun, nofun, fun _ => nofun⟩
  · rename_i op hop
    have hruns := opcode_runs c hop
    split at h
    · rename_i ns' hns
      cases h
      rw [hns] at hruns
      refine ⟨hruns.1, hflat, fun n hn a ha => ?_, fun hi n hn => ?_⟩
      · obtain ⟨k, hk, -⟩ := hruns.2 n hn
        rw [hk] at ha
        exact List.eq_of_mem_replicate ha
      · obtain ⟨k, hk, hle⟩ := hruns.2 n hn
        rw [hk, List.length_replicate]
        exact hle hi
    · cases h

theorem instructions_runs {c : Code} {R : Instruction → List Node → Prop}
    (hmade : ∀ i ns, instruction c i = .ok ns → R i ns) {is : List Instruction} {ns : List Node}
    (h : instructions c is = .ok ns) :
    ∃ runs, List.Forall₂ R is runs ∧ ns = runs.flatten := by
  induction is generalizing ns with
  | nil =>
    cases h
    exact ⟨[], .nil, rfl⟩
  | cons i is ih =>
    rw [instructions] at h
    cases hfirst : instruction c i with
    | error e =>
      rw [hfirst] at h
      cases h
    | ok first =>
      rw [hfirst] at h
      cases hrest : instructions c is with
      | error e =>
        rw [hrest] at h
        cases h
      | ok rest =>
        rw [hrest] at h
        cases h
        obtain ⟨runs, hruns, rfl⟩ := ih hrest
        exact ⟨first :: runs, .cons (hmade i first hfirst) hruns, rfl⟩

end Lower

theorem Node.renumberAll_append (xs ys : List Node) (k : Nat) :
    (Node.renumberAll (xs ++ ys) k).1 =
      (Node.renumberAll xs k).1 ++ (Node.renumberAll ys (Node.renumberAll xs k).2).1 := by
  induction xs generalizing k with
  | nil => rfl
  | cons x xs ih => exact congrArg (List.cons _) (ih (x.renumber k).2)

theorem Node.length_renumberAll (ns : List Node) (k : Nat) :
    (Node.renumberAll ns k).1.length = ns.length := by
  induction ns generalizing k with
  | nil => rfl
  | cons n ns ih => exact congrArg Nat.succ (ih (n.renumber k).2)

/-- Numbering registers leaves a run a run. -/
theorem Instruction.Run.renumber {i : Instruction} {ns : List Node} (h : i.Run ns) (k : Nat) :
    i.Run (Node.renumberAll ns k).1 := by
  refine ⟨(Node.length_renumberAll ns k).symm ▸ h.length, ?_, ?_, fun hi => ?_⟩
  all_goals
    intro n hn
    obtain ⟨m, hm, l, rfl⟩ := Lower.mem_renumberAll hn
  · exact Lower.flat_renumber (h.flat m hm) l
  · rw [(h.flat m hm).addresses_renumber]
    exact h.address m hm
  · rw [(h.flat m hm).addresses_renumber]
    exact h.size hi m hm

theorem Node.renumberAll_runs {R : Instruction → List Node → Prop}
    (hnumbered : ∀ i ns k, R i ns → R i (Node.renumberAll ns k).1) {is : List Instruction}
    {runs : List (List Node)} (h : List.Forall₂ R is runs) (k : Nat) :
    ∃ runs', List.Forall₂ R is runs' ∧ (Node.renumberAll runs.flatten k).1 = runs'.flatten := by
  induction h generalizing k with
  | nil => exact ⟨[], .nil, rfl⟩
  | @cons i run is runs hrun _ ih =>
    obtain ⟨runs', hruns, hflatten⟩ := ih (Node.renumberAll run k).2
    refine ⟨_ :: runs', .cons (hnumbered i run k hrun) hruns, ?_⟩
    rw [List.flatten_cons, Node.renumberAll_append, hflatten, List.flatten_cons]

/-- What holds of the statements of each instruction, and still does when their registers are numbered, holds
of those of a function, instruction by instruction. -/
theorem Code.lower_forall₂ {c : Code} {R : Instruction → List Node → Prop}
    (hmade : ∀ i ns, Lower.instruction c i = .ok ns → R i ns)
    (hnumbered : ∀ i ns k, R i ns → R i (Node.renumberAll ns k).1) {d : Declaration}
    (h : c.lower = .ok d) :
    ∃ runs, List.Forall₂ R c.instructions.items runs ∧ d.body = runs.flatten := by
  unfold Code.lower at h
  cases hbody : Lower.instructions c c.instructions.items with
  | error e =>
    rw [hbody] at h
    cases h
  | ok body =>
    rw [hbody] at h
    cases h
    obtain ⟨runs, hruns, rfl⟩ := Lower.instructions_runs hmade hbody
    exact Node.renumberAll_runs hnumbered hruns _

/-- The statements of a function are those of its instructions, instruction by instruction. -/
theorem Code.lower_runs {c : Code} {d : Declaration} (h : c.lower = .ok d) :
    ∃ runs, List.Forall₂ Instruction.Run c.instructions.items runs ∧ d.body = runs.flatten :=
  Code.lower_forall₂ (fun _ _ => Lower.instruction_run) (fun _ _ k hrun => hrun.renumber k) h

end HavokScript
