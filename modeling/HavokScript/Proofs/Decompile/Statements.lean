import HavokScript.Proofs.Decompile.Lowering
import HavokScript.Proofs.Tree.Registers

/-!
# Statements as they are made

What lowering makes of an instruction is more than flat. An assignment writes registers only, or it has
one target; a jump back is one that the instruction asks for; and no register has been read yet
(`Code.lower_shaped`). The register nodes of a lowered function are all different
(`Code.lower_registers`).
-/

namespace HavokScript

/-- Whether an assignment only writes registers or has one target. -/
def Node.isApart : Node → Bool
  | .assign _ ts _ _ => ts.length == 1 || ts.all fun t => t.register?.isSome
  | _ => true

namespace Lower

/-- What holds of the form of a statement that an instruction becomes. -/
structure Shaped (i : Instruction) (op : Opcode) (n : Node) : Prop where
  apart : n.isApart
  jump : ∀ a offset, n = .jump a offset → offset < 0 →
    op = .jmp ∧ a = i.address ∧ offset = i.argument 0
  unread : ∀ r ∈ n.registers, r.uses = 0
  simple : n.isSimple

/-- No register that the expression is computed from has been read. -/
def Unread (e : Expr) : Prop := ∀ r ∈ e.inputs, r.uses = 0

theorem unread_reg (address index : Int) : Unread (reg address index) := by
  simp [Unread, reg]

theorem unread_regs (address first : Int) (count : Nat) :
    ∀ r ∈ Expr.inputsAll (regs address first count), r.uses = 0 := by
  intro r hr
  obtain ⟨e, he, hr⟩ := Expr.mem_inputsAll.mp hr
  obtain ⟨k, -, rfl⟩ := List.mem_map.mp he
  exact unread_reg _ _ r hr

theorem unread_index {a : Int} {t k : Expr} (ht : Unread t) (hk : Unread k) :
    Unread (.index a t k) := by
  unfold Unread
  rw [Expr.inputs_index, List.forall_mem_append]
  exact ⟨ht, hk⟩

theorem unread_binary {a : Int} {op : Bytes} {l r : Expr} (hl : Unread l) (hr : Unread r) :
    Unread (.binary a op l r) := by
  unfold Unread
  rw [Expr.inputs_binary, List.forall_mem_append]
  exact ⟨hl, hr⟩

theorem unread_call (i : Instruction) : Unread (call i) := by
  unfold Unread call
  rw [Expr.inputs_call, List.forall_mem_append]
  exact ⟨unread_reg _ _, unread_regs _ _ _⟩

theorem unread_only {e : Expr} (h : Unread e) : ∀ r ∈ Expr.inputsAll [e], r.uses = 0 := by
  rw [Expr.inputsAll_cons, Expr.inputsAll_nil, List.append_nil]
  exact h

theorem unread_condition (i : Instruction) (register : Int) (n : Nat) :
    Unread (condition i register n) := by
  unfold condition Unread
  split
  · rw [Expr.inputs_unary]
    exact unread_reg _ _
  · exact unread_reg _ _

theorem unread_concat (i : Instruction) : Unread (concat i) := by
  unfold concat
  have hall : ∀ e ∈ regs i.address (wrap64 (i.argument 1 + 1))
      (i.argument 2 - wrap64 (i.argument 1 + 1) + 1).toNat, Unread e := fun e he r hr =>
    unread_regs _ _ _ r (Expr.mem_inputsAll.mpr ⟨e, he, hr⟩)
  dsimp only
  generalize regs i.address _ _ = rest at hall
  generalize hfirst : reg i.address (i.argument 1) = e
  have he : Unread e := hfirst ▸ unread_reg _ _
  clear hfirst
  induction rest generalizing e with
  | nil => exact he
  | cons r rest ih =>
    rw [List.forall_mem_cons] at hall
    exact ih hall.2 _ (unread_binary he hall.1)

theorem literal_unread (c : Code) (address index : Int) :
    Outcome Unread (fun _ => True) (literal c address index) := by
  refine (outcome_any _).bind fun k _ => ?_
  split_ifs
  all_goals first
    | exact List.forall_mem_nil _
    | trivial

theorem name_unread (c : Code) (address index : Int) :
    Outcome Unread (fun _ => True) (name c address index) := by
  refine (outcome_any _).bind fun k _ => ?_
  split
  · exact List.forall_mem_nil _
  · trivial

theorem operand_unread (c : Code) (i : Instruction) (n : Nat) :
    Outcome Unread (fun _ => True) (operand c i n) := by
  unfold operand
  split
  · trivial
  · split_ifs
    · exact unread_reg _ _
    · exact literal_unread c _ _
    · exact List.forall_mem_nil _

/-! ## Statements -/

namespace Shaped

variable {i : Instruction} {op : Opcode}

/-- A statement that is no jump. -/
theorem of_forward {n : Node} (hjump : ∀ a offset, n ≠ .jump a offset) (hapart : n.isApart)
    (hunread : ∀ r ∈ n.registers, r.uses = 0) (hsimple : n.isSimple) : Shaped i op n :=
  ⟨hapart, fun a offset hn => absurd hn (hjump a offset), hunread, hsimple⟩

theorem assign {target value : Expr} (ht : Unread target) (hv : Unread value) :
    Shaped i op (Lower.assign i.address target value) := by
  refine of_forward nofun rfl ?_ rfl
  simp only [Lower.assign, Node.registers_assign, Expr.inputsAll_cons, Expr.inputsAll_nil,
    List.append_nil, List.forall_mem_append]
  exact ⟨ht, hv⟩

theorem registers {a first : Int} {count : Nat} {vs : List Expr}
    (hvs : ∀ r ∈ Expr.inputsAll vs, r.uses = 0) :
    Shaped i op (.assign a (regs a first count) vs false) := by
  refine of_forward nofun ?_ ?_ rfl
  · rw [Node.isApart, Bool.or_eq_true]
    exact .inr (List.all_eq_true.mpr fun e he => by
      obtain ⟨k, -, rfl⟩ := List.mem_map.mp he
      rfl)
  · rw [Node.registers_assign, List.forall_mem_append]
    exact ⟨unread_regs _ _ _, hvs⟩

theorem test {a : Int} {e : Expr} (h : Unread e) : Shaped i op (.test a e) :=
  of_forward nofun rfl (by rwa [Node.registers_test]) rfl

theorem returns {a : Int} {es : List Expr} (h : ∀ r ∈ Expr.inputsAll es, r.uses = 0) :
    Shaped i op (.returns a es) :=
  of_forward nofun rfl (by rwa [Node.registers_returns]) rfl

end Shaped

/-- What holds of the form of all statements of an instruction. -/
abbrev Shapes (i : Instruction) (op : Opcode) (x : Except DecompileCause (List Node)) : Prop :=
  Outcome (fun ns => ∀ n ∈ ns, Shaped i op n) (fun _ => True) x

theorem single_shapes {i : Instruction} {op : Opcode} {n : Node} (h : Shaped i op n) :
    Shapes i op (.ok [n]) :=
  List.forall_mem_singleton.mpr h

theorem pair_shapes {i : Instruction} {op : Opcode} {m n : Node} (hm : Shaped i op m)
    (hn : Shaped i op n) : Shapes i op (.ok [m, n]) :=
  List.forall_mem_cons.mpr ⟨hm, List.forall_mem_singleton.mpr hn⟩

theorem arithmetic_shapes (c : Code) (i : Instruction) (op : Opcode) (symbol : String) :
    Shapes i op (arithmetic c i symbol) :=
  (operand_unread c i 1).bind fun _ hl => (operand_unread c i 2).bind fun _ hr =>
    single_shapes (.assign (unread_reg _ _) (unread_binary hl hr))

theorem comparison_shapes (c : Code) (i : Instruction) (op : Opcode) (symbol whenOne : String) :
    Shapes i op (comparison c i symbol whenOne) :=
  (operand_unread c i 1).bind fun _ hl => (operand_unread c i 2).bind fun _ hr =>
    single_shapes (.test (unread_binary hl hr))

theorem unary_shapes (i : Instruction) (op : Opcode) (symbol : String) :
    Shapes i op (unary i symbol) :=
  single_shapes (.assign (unread_reg _ _) (unread_reg _ _))

theorem opcode_shapes (c : Code) (i : Instruction) (op : Opcode) : Shapes i op (opcode c i op) := by
  have hreg : ∀ index, Unread (reg i.address index) := unread_reg i.address
  have hnone : ∀ e : Expr, e.inputs = [] → Unread e := fun e he r hr => by
    rw [he] at hr
    cases hr
  cases op
  case add | sub | mul | div | mod | pow | addBK | subBK | mulBK | divBK | modBK | powBK =>
    exact arithmetic_shapes c i _ _
  case unm | not | notR1 | len => exact unary_shapes i _ _
  case eq | lt | le | eqBK | ltBK | leBK => exact comparison_shapes c i _ _ _
  case call | callI | callIR1 | callC | callM =>
    exact single_shapes (.registers (unread_only (unread_call i)))
  case tailCall | tailCallI | tailCallIR1 | tailCallC | tailCallM =>
    exact single_shapes (.returns (unread_only (unread_call i)))
  case jmp =>
    refine single_shapes ⟨rfl, ?_, List.forall_mem_nil _, rfl⟩
    rintro a offset ⟨⟩ -
    exact ⟨rfl, rfl, rfl⟩
  case forPrep => exact single_shapes (.of_forward nofun rfl (by simp [reg]) rfl)
  case forLoop =>
    refine single_shapes (.of_forward nofun rfl ?_ rfl)
    rw [Node.registers_forLoop]
    exact hreg _
  case tForLoop =>
    refine single_shapes (.of_forward nofun rfl ?_ rfl)
    rw [Node.registers_tForLoop]
    intro r hr
    obtain ⟨k, -, rfl⟩ := List.mem_map.mp hr
    rfl
  case test | testR1 => exact single_shapes (.test (unread_condition _ _ _))
  case testSet =>
    exact pair_shapes (.test (unread_condition _ _ _)) (.assign (hreg _) (hreg _))
  case loadBool =>
    refine List.forall_mem_cons.mpr ⟨.assign (hreg _) (hnone _ rfl), ?_⟩
    split_ifs
    · simp
    · refine List.forall_mem_singleton.mpr ⟨rfl, ?_, List.forall_mem_nil _, rfl⟩
      rintro a offset ⟨⟩ hoffset
      exact absurd hoffset (by decide)
  case loadNil =>
    refine single_shapes (.registers fun r hr => ?_)
    obtain ⟨e, he, hr⟩ := Expr.mem_inputsAll.mp hr
    rw [List.eq_of_mem_replicate he] at hr
    cases hr
  case loadK =>
    exact (operand_unread c i 1).bind fun _ h => single_shapes (.assign (hreg _) h)
  case getGlobal | getGlobalMem =>
    exact (name_unread c _ _).bind fun _ h => single_shapes (.assign (hreg _) h)
  case setGlobal =>
    exact (name_unread c _ _).bind fun _ h => single_shapes (.assign h (hreg _))
  case move => exact single_shapes (.assign (hreg _) (hreg _))
  case concat => exact single_shapes (.assign (hreg _) (unread_concat i))
  case vararg => exact single_shapes (.registers (List.forall_mem_nil _))
  case ret =>
    by_cases hcount : i.argument 1 ≤ 0
    · simp only [opcode, if_pos hcount]
      exact List.forall_mem_nil _
    · simp only [opcode, if_neg hcount]
      exact single_shapes (.returns (unread_regs _ _ _))
  case closure | newTable | getUpval => exact single_shapes (.assign (hreg _) (hnone _ rfl))
  case setUpval | setUpvalR1 => exact single_shapes (.assign (hnone _ rfl) (hreg _))
  case getField | getFieldR1 | getFieldMM =>
    exact (name_unread c _ _).bind fun _ h =>
      single_shapes (.assign (hreg _) (unread_index (hreg _) h))
  case setField | setFieldR1 =>
    exact (name_unread c _ _).bind fun _ hk => (operand_unread c i 2).bind fun _ hv =>
      single_shapes (.assign (unread_index (hreg _) hk) hv)
  case getTable | getTableS | getTableN =>
    exact (operand_unread c i 2).bind fun _ h =>
      single_shapes (.assign (hreg _) (unread_index (hreg _) h))
  case setTable | setTableS | setTableN | setTableBK | setTableSBK | setTableNBK =>
    exact (operand_unread c i 1).bind fun _ hk => (operand_unread c i 2).bind fun _ hv =>
      single_shapes (.assign (unread_index (hreg _) hk) hv)
  case self =>
    exact (operand_unread c i 2).bind fun _ h =>
      pair_shapes (.assign (hreg _) (hreg _)) (.assign (hreg _) (unread_index (hreg _) h))
  all_goals exact List.forall_mem_nil _

/-! ## Numbered statements -/

theorem all_register?_renumberAll (es : List Expr) (k : Nat) :
    ((Expr.renumberAll es k).1.all fun e => e.register?.isSome) =
      es.all fun e => e.register?.isSome := by
  induction es generalizing k with
  | nil => rfl
  | cons e es ih =>
    have he : (e.renumber k).1.register?.isSome = e.register?.isSome := by
      cases e <;> rfl
    exact congrArg₂ and he (ih _)

theorem isApart_renumber (n : Node) (k : Nat) : (n.renumber k).1.isApart = n.isApart := by
  cases n with
  | assign a ts vs kept =>
    change (_ == 1 || _) = _
    rw [length_renumberAll, all_register?_renumberAll, Node.isApart]
  | _ => rfl

theorem isSimple_renumber (n : Node) (k : Nat) : (n.renumber k).1.isSimple = n.isSimple := by
  cases n <;> rfl

theorem Shaped.renumber {i : Instruction} {op : Opcode} {n : Node} (h : Shaped i op n) (k : Nat) :
    Shaped i op (n.renumber k).1 := by
  refine ⟨(isApart_renumber n k).trans h.apart, fun a offset hn => h.jump a offset ?_, ?_,
    (isSimple_renumber n k).trans h.simple⟩
  · cases n with
    | jump b offset' => exact hn
    | _ => cases hn
  · rw [((Node.registers_renumber h.simple) k).1, List.nil_append]
    intro r hr
    obtain ⟨s, hs, j, rfl⟩ := Register.mem_numberFrom hr
    exact h.unread s hs

end Lower

/-- Every statement of a lowered function has the form that its instruction gives it. -/
theorem Code.lower_shaped {c : Code} {d : Declaration} (h : c.lower = .ok d) :
    ∀ n ∈ d.body, ∃ i ∈ c.instructions.items, ∃ op,
      Opcode.ofCode? i.op = some op ∧ Lower.Shaped i op n :=
  Code.lower_forall (fun i op _ => Lower.opcode_shapes c i op) (fun _ _ _ k h => h.renumber k) h

/-- The register nodes of a lowered function are all different, and none has been read yet. -/
theorem Code.lower_registers {c : Code} {d : Declaration} (h : c.lower = .ok d) :
    (d.registers.map (·.id)).Nodup ∧ ∀ r ∈ d.registers, r.uses = 0 := by
  have hshaped := Lower.instructions_forall (fun i op _ => Lower.opcode_shapes c i op)
    c.instructions.items
  unfold Code.lower at h
  cases hbody : Lower.instructions c c.instructions.items with
  | error e =>
    rw [hbody] at h
    cases h
  | ok body =>
    rw [hbody] at h hshaped
    cases h
    have hsimple : ∀ n ∈ body, n.isSimple := fun n hn => by
      obtain ⟨i, -, op, -, hn⟩ := hshaped n hn
      exact hn.simple
    refine ⟨Declaration.nodup_numbered hsimple, fun r hr => ?_⟩
    rw [Declaration.registers_numbered hsimple] at hr
    obtain ⟨s, hs, k, rfl⟩ := Register.mem_numberFrom hr
    rcases List.mem_append.mp hs with hs | hs
    · obtain ⟨j, -, rfl⟩ := List.mem_map.mp hs
      rfl
    · obtain ⟨n, hn, hs⟩ := Node.mem_registersAll.mp hs
      obtain ⟨i, -, op, -, hn⟩ := hshaped n hn
      exact hn.unread s hs

end HavokScript
