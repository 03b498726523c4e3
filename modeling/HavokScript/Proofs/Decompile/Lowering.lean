import HavokScript.Decompile.Lower
import HavokScript.Proofs.Chunk.Decoded
import Mathlib.Tactic.SplitIfs

/-!
# What lowering gives

Every statement of a lowered function is flat: it has no statement inside, its expressions have no
call in them, and a call stands alone as the value of an assignment or of a return. A branch back
of a decoded function never leads behind itself, since an offset has 17 bits and cannot wrap around.
-/

namespace HavokScript

/-! ## Flat statements -/

mutual

/-- The expression has no call in it, and no shared expression. -/
def Expr.plain : Expr → Bool
  | .call .. | .shared .. => false
  | .binary _ _ l r => l.plain && r.plain
  | .unary _ _ e => e.plain
  | .table _ ks vs => Expr.plainAll ks && Expr.plainAll vs
  | .index _ t k => t.plain && k.plain
  | _ => true

/-- All expressions are plain. -/
def Expr.plainAll : List Expr → Bool
  | [] => true
  | e :: es => e.plain && Expr.plainAll es

end

/-- A statement without statements inside. Its expressions are plain, but an assignment or a return
may have a call as its only value. Targets have a value each, unless a call or `...` gives all. -/
inductive Node.Flat : Node → Prop
  | assign {a : Int} {ts vs : List Expr} (targets : Expr.plainAll ts) (values : Expr.plainAll vs)
      (nonempty : vs ≠ []) (balanced : ts.length = vs.length) : Flat (.assign a ts vs false)
  | vararg {a b : Int} {ts : List Expr} (targets : Expr.plainAll ts) :
      Flat (.assign a ts [.vararg b] false)
  | call {a b : Int} {ts args : List Expr} {f : Expr} (targets : Expr.plainAll ts)
      (function : f.plain) (arguments : Expr.plainAll args) :
      Flat (.assign a ts [.call b f args] false)
  | returns {a : Int} {vs : List Expr} (values : Expr.plainAll vs) : Flat (.returns a vs)
  | tailCall {a b : Int} {f : Expr} {args : List Expr} (function : f.plain)
      (arguments : Expr.plainAll args) : Flat (.returns a [.call b f args])
  | jump (a offset : Int) : Flat (.jump a offset)
  | test {a : Int} {c : Expr} (condition : c.plain) : Flat (.test a c)
  | forPrep {a : Int} {x y z : Expr} {v : Register} (init : x.plain) (limit : y.plain)
      (step : z.plain) : Flat (.forPrep a x y z v)
  | forLoop {a offset : Int} {c : Expr} (counter : c.plain) : Flat (.forLoop a c offset)
  | tForLoop (a : Int) (vars : List Register) : Flat (.tForLoop a vars)

/-- A statement that branches back does not branch behind itself. -/
def Node.Grounded : Node → Prop
  | .jump a offset | .forLoop a _ offset => offset < 0 → branchTarget a offset ≤ a
  | _ => True

/-- A branch leads no further than the words of an instruction can say. -/
def Node.Near : Node → Prop
  | .jump _ offset | .forLoop _ _ offset => -0xFFFF ≤ offset ∧ offset ≤ 0x10000
  | _ => True

/-- The causes of failures that a decoded function can have. -/
def DecompileCause.Declared : DecompileCause → Prop
  | missingOperand _ => False
  | _ => True

namespace Lower

/-! ## Expressions -/

@[simp] theorem plain_reg (address index : Int) : (reg address index).plain := rfl

theorem plainAll_iff {es : List Expr} : Expr.plainAll es ↔ ∀ e ∈ es, e.plain := by
  induction es with
  | nil => simp [Expr.plainAll]
  | cons e es ih => simp [Expr.plainAll, ih]

@[simp] theorem plainAll_regs (address first : Int) (count : Nat) :
    Expr.plainAll (regs address first count) := by
  rw [plainAll_iff]
  intro e he
  obtain ⟨i, _, rfl⟩ := List.mem_map.mp he
  rfl

theorem plain_concat (i : Instruction) : (concat i).plain := by
  unfold concat
  have hall := plainAll_iff.mp (plainAll_regs i.address (wrap64 (i.argument 1 + 1))
    (i.argument 2 - wrap64 (i.argument 1 + 1) + 1).toNat)
  dsimp only
  generalize regs i.address _ _ = rest at hall
  generalize hfirst : reg i.address (i.argument 1) = e
  have he : e.plain := by rw [← hfirst, plain_reg]
  clear hfirst
  induction rest generalizing e with
  | nil => exact he
  | cons r rest ih =>
    refine ih (fun x hx => hall x (by simp [hx])) (.binary i.address (utf8 "..") e r) ?_
    simp [Expr.plain, he, hall r (by simp)]

theorem plain_condition (i : Instruction) (register : Int) (n : Nat) :
    (condition i register n).plain := by
  unfold condition
  split <;> rfl

theorem literal_outcome (c : Code) (address index : Int) :
    Outcome (fun e => e.plain) DecompileCause.Declared (literal c address index) := by
  unfold literal constant
  cases c.constant? index with
  | none => exact trivial
  | some k =>
    simp only [bind, Except.bind]
    split_ifs
    all_goals trivial

theorem name_outcome (c : Code) (address index : Int) :
    Outcome (fun e => e.plain) DecompileCause.Declared (name c address index) := by
  unfold name constant
  cases c.constant? index with
  | none => exact trivial
  | some k =>
    simp only [bind, Except.bind]
    cases k.string? with
    | none => exact trivial
    | some s => exact rfl

/-- An operand that the instruction has. -/
theorem operand_outcome (c : Code) (i : Instruction) (n : Nat) {D : Prop}
    (hn : D → n < i.operands.items.length) :
    Outcome (fun e => e.plain) (fun cause => D → cause.Declared) (operand c i n) := by
  unfold operand
  cases ho : i.operands.items[n]? with
  | none =>
    intro hD
    have := List.getElem?_eq_none_iff.mp ho
    have := hn hD
    omega
  | some o =>
    dsimp only
    split_ifs
    · exact plain_reg _ _
    · exact (literal_outcome c i.address o.value).mono (fun _ h => h) fun _ h _ => h
    · exact rfl

/-! ## Statements -/

/-- What holds of a statement that an instruction becomes. -/
structure Made (i : Instruction) (op : Opcode) (n : Node) : Prop where
  flat : n.Flat
  address : n.address = i.address
  near : i.Decoded → n.Near
  loop : ∀ a counter offset, n = .forLoop a counter offset → op = .forLoop ∧ offset = i.argument 1

/-- Only jumps and the ends of numeric loops branch. -/
theorem Made.of_flat {i : Instruction} {op : Opcode} {n : Node} (h : n.Flat)
    (haddress : n.address = i.address) (hjump : ∀ a offset, n ≠ .jump a offset)
    (hloop : ∀ a counter offset, n ≠ .forLoop a counter offset) : Made i op n := by
  refine ⟨h, haddress, fun _ => ?_, fun a counter offset hn => absurd hn (hloop a counter offset)⟩
  cases n with
  | jump a offset => exact absurd rfl (hjump a offset)
  | forLoop a counter offset => exact absurd rfl (hloop a counter offset)
  | _ => trivial

theorem Made.assign {i : Instruction} {op : Opcode} {target value : Expr} (ht : target.plain)
    (hv : value.plain) : Made i op (assign i.address target value) :=
  .of_flat (.assign (by simp [Expr.plainAll, ht]) (by simp [Expr.plainAll, hv]) (by simp) rfl)
    rfl (by simp [Lower.assign]) (by simp [Lower.assign])

/-- What holds of the statements of an instruction, and of its failures. -/
abbrev Makes (i : Instruction) (op : Opcode) (x : Except DecompileCause (List Node)) : Prop :=
  Outcome (fun ns => ∀ n ∈ ns, Made i op n) (fun cause => i.Decoded → cause.Declared) x

theorem arithmetic_makes {c : Code} {i : Instruction} {op : Opcode} (symbol : String)
    (hi : i.Decoded → 2 < i.operands.items.length) : Makes i op (arithmetic c i symbol) := by
  refine (operand_outcome c i 1 fun h => by have := hi h; omega).bind fun left hleft => ?_
  refine (operand_outcome c i 2 hi).bind fun right hright => Outcome.pure ?_
  rw [List.forall_mem_singleton]
  exact .assign (plain_reg _ _) (by simp [Expr.plain, hleft, hright])

theorem comparison_makes {c : Code} {i : Instruction} {op : Opcode} (symbol whenOne : String)
    (hi : i.Decoded → 2 < i.operands.items.length) :
    Makes i op (comparison c i symbol whenOne) := by
  refine (operand_outcome c i 1 fun h => by have := hi h; omega).bind fun left hleft => ?_
  refine (operand_outcome c i 2 hi).bind fun right hright => Outcome.pure ?_
  rw [List.forall_mem_singleton]
  exact .of_flat (.test (by simp [Expr.plain, hleft, hright])) rfl (by simp) (by simp)

theorem unary_makes {i : Instruction} {op : Opcode} (symbol : String) :
    Makes i op (unary i symbol) := by
  refine Outcome.pure ?_
  rw [List.forall_mem_singleton]
  exact .assign (plain_reg _ _) rfl

theorem call_makes {i : Instruction} {op : Opcode} (count : Nat) :
    Makes i op (.ok [.assign i.address (regs i.address (i.argument 0) count) [call i] false]) := by
  refine List.forall_mem_singleton.mpr (.of_flat (.call ?_ ?_ ?_) rfl (by simp) (by simp))
  · exact plainAll_regs _ _ _
  · exact plain_reg _ _
  · exact plainAll_regs _ _ _

theorem tailCall_makes {i : Instruction} {op : Opcode} :
    Makes i op (.ok [.returns i.address [call i]]) :=
  List.forall_mem_singleton.mpr
    (.of_flat (.tailCall (plain_reg _ _) (plainAll_regs _ _ _)) rfl (by simp) (by simp))

theorem assign_makes {i : Instruction} {op : Opcode} {target value : Expr} (ht : target.plain)
    (hv : value.plain) : Makes i op (.ok [assign i.address target value]) :=
  List.forall_mem_singleton.mpr (.assign ht hv)

/-- A value that is computed from an operand and stored. -/
theorem bind_assign_makes {i : Instruction} {op : Opcode} {x : Except DecompileCause Expr}
    {target value : Expr → Expr}
    (hx : Outcome (fun e => e.plain) (fun cause => i.Decoded → cause.Declared) x)
    (ht : ∀ e, e.plain → (target e).plain) (hv : ∀ e, e.plain → (value e).plain) :
    Makes i op (do let e ← x; return [assign i.address (target e) (value e)]) :=
  hx.bind fun e he => assign_makes (ht e he) (hv e he)

/-! ## Decoded instructions -/

/-- How many operands an argument field gives. -/
def arity (a : Argument) : Nat := if a = .unused then 0 else 1

/-- How many operands the words of a layout have. -/
def layoutArity : Layout → Nat
  | .abc a b c => arity a + arity b + arity c
  | .abx a b => arity a + arity b
  | .asbx a => arity a + 1

theorem length_ofField (a : Argument) (x : Nat) : (Operand.ofField a x).length = arity a := by
  cases a <;> rfl

theorem length_operandsOf (layout : Layout) (w : Word) :
    (Instruction.operandsOf layout w).length = layoutArity layout := by
  cases layout <;> simp [Instruction.operandsOf, layoutArity, length_ofField, Nat.add_assoc]

theorem decoded_operands {i : Instruction} {op : Opcode} (hi : i.Decoded)
    (hop : Opcode.ofCode? i.op = some op) :
    i.operands.items = Instruction.operandsOf op.layout i.raw := by
  obtain ⟨address, hdecode⟩ := hi
  obtain ⟨op', hop', hx⟩ := Option.map_eq_some_iff.mp hdecode
  have hcode : i.op = i.raw.op := by rw [← hx]
  rw [hcode, hop'] at hop
  cases hop
  have hoperands := congrArg Instruction.operands hx
  rw [← hoperands, Section.items_ofItems]

theorem decoded_has {i : Instruction} {op : Opcode} (hop : Opcode.ofCode? i.op = some op) (n : Nat)
    (hn : n < layoutArity op.layout) (hi : i.Decoded) : n < i.operands.items.length := by
  rwa [decoded_operands hi hop, length_operandsOf]

theorem sbx_range (w : Word) : -0xFFFF ≤ w.sbx ∧ w.sbx ≤ 0x10000 := by
  unfold Word.sbx Word.bias Word.bx
  omega

theorem forLoop_argument {i : Instruction} (hi : i.Decoded)
    (hop : Opcode.ofCode? i.op = some .forLoop) : i.argument 1 = i.raw.sbx := by
  rw [Instruction.argument, decoded_operands hi hop]
  rfl

/-- An offset of a word branches back over at most the words of a function. -/
theorem branchTarget_le {a offset : Int} (ha : 0 ≤ a) (hlow : -0xFFFF ≤ offset)
    (hback : offset < 0) : branchTarget a offset ≤ a := by
  unfold branchTarget wrap64
  rw [Int.bmod_def]
  omega

theorem Made.grounded {i : Instruction} {op : Opcode} {n : Node} (h : Made i op n)
    (hi : i.Decoded) : n.Grounded := by
  have hnear := h.near hi
  have haddress : 0 ≤ n.address := h.address ▸ hi.address_nonneg
  cases n with
  | jump a offset | forLoop a counter offset => exact branchTarget_le haddress hnear.1
  | _ => trivial

/-! ## Opcodes -/

theorem opcode_makes (c : Code) (i : Instruction) (op : Opcode)
    (hop : Opcode.ofCode? i.op = some op) : Makes i op (opcode c i op) := by
  have hhas := decoded_has hop
  cases op
  case add | sub | mul | div | mod | pow | addBK | subBK | mulBK | divBK | modBK | powBK =>
    exact arithmetic_makes _ (hhas _ (by decide))
  case unm | not | notR1 | len => exact unary_makes _
  case eq | lt | le | eqBK | ltBK | leBK =>
    exact comparison_makes _ _ (hhas _ (by decide))
  case call | callI | callIR1 | callC | callM => exact call_makes _
  case tailCall | tailCallI | tailCallIR1 | tailCallC | tailCallM => exact tailCall_makes
  case jmp =>
    refine List.forall_mem_singleton.mpr ⟨.jump _ _, rfl, fun hi => ?_, by simp⟩
    have hargument : i.argument 0 = i.raw.sbx := by
      rw [Instruction.argument, decoded_operands hi hop]
      rfl
    exact hargument ▸ sbx_range i.raw
  case forPrep =>
    exact List.forall_mem_singleton.mpr (.of_flat (.forPrep rfl rfl rfl) rfl (by simp) (by simp))
  case forLoop =>
    exact List.forall_mem_singleton.mpr ⟨.forLoop rfl, rfl,
      fun hi => forLoop_argument hi hop ▸ sbx_range i.raw, by simp⟩
  case tForLoop =>
    exact List.forall_mem_singleton.mpr (.of_flat (.tForLoop _ _) rfl (by simp) (by simp))
  case test | testR1 =>
    exact List.forall_mem_singleton.mpr
      (.of_flat (.test (plain_condition _ _ _)) rfl (by simp) (by simp))
  case testSet =>
    refine List.forall_mem_cons.mpr ⟨?_, List.forall_mem_singleton.mpr (.assign rfl rfl)⟩
    exact .of_flat (.test (plain_condition _ _ _)) rfl (by simp) (by simp)
  case loadBool =>
    refine List.forall_mem_cons.mpr ⟨.assign rfl rfl, ?_⟩
    split_ifs
    · simp
    · exact List.forall_mem_singleton.mpr ⟨.jump _ _, rfl, fun _ => ⟨by decide, by decide⟩, by simp⟩
  case loadNil =>
    refine List.forall_mem_singleton.mpr (.of_flat (.assign (plainAll_regs _ _ _) ?_ ?_ ?_)
      rfl (by simp) (by simp))
    · exact plainAll_iff.mpr fun e he => by rw [List.eq_of_mem_replicate he]; rfl
    · rw [ne_eq, List.replicate_eq_nil_iff]
      omega
    · simp [regs]
  case loadK =>
    exact bind_assign_makes (operand_outcome c i 1 (hhas 1 (by decide)))
      (fun _ _ => rfl) fun _ h => h
  case getGlobal | getGlobalMem =>
    exact bind_assign_makes ((name_outcome c _ _).mono (fun _ h => h) fun _ h _ => h)
      (fun _ _ => rfl) fun _ h => h
  case setGlobal =>
    exact bind_assign_makes ((name_outcome c _ _).mono (fun _ h => h) fun _ h _ => h)
      (fun _ h => h) fun _ _ => rfl
  case move => exact assign_makes rfl rfl
  case concat => exact assign_makes rfl (plain_concat i)
  case vararg =>
    exact List.forall_mem_singleton.mpr
      (.of_flat (.vararg (plainAll_regs _ _ _)) rfl (by simp) (by simp))
  case ret =>
    by_cases hcount : i.argument 1 ≤ 0
    · simp only [opcode, if_pos hcount]
      exact fun _ h => absurd h List.not_mem_nil
    · simp only [opcode, if_neg hcount]
      exact List.forall_mem_singleton.mpr
        (.of_flat (.returns (plainAll_regs _ _ _)) rfl (by simp) (by simp))
  case closure | newTable | getUpval | setUpval | setUpvalR1 => exact assign_makes rfl rfl
  case getField | getFieldR1 | getFieldMM =>
    exact bind_assign_makes ((name_outcome c _ _).mono (fun _ h => h) fun _ h _ => h)
      (fun _ _ => rfl) fun e h => by simp [Expr.plain, h]
  case setField | setFieldR1 =>
    refine ((name_outcome c _ _).mono (fun _ h => h) fun _ h _ => h).bind fun key hkey => ?_
    exact bind_assign_makes (operand_outcome c i 2 (hhas 2 (by decide)))
      (fun _ _ => by simp [Expr.plain, hkey]) fun _ h => h
  case getTable | getTableS | getTableN =>
    exact bind_assign_makes (operand_outcome c i 2 (hhas 2 (by decide)))
      (fun _ _ => rfl) fun e h => by simp [Expr.plain, h]
  case setTable | setTableS | setTableN | setTableBK | setTableSBK | setTableNBK =>
    refine (operand_outcome c i 1 (hhas 1 (by decide))).bind fun key hkey => ?_
    exact bind_assign_makes (operand_outcome c i 2 (hhas 2 (by decide)))
      (fun _ _ => by simp [Expr.plain, hkey]) fun _ h => h
  case self =>
    refine (operand_outcome c i 2 (hhas 2 (by decide))).bind fun key hkey => Outcome.pure ?_
    refine List.forall_mem_cons.mpr ⟨.assign rfl rfl, List.forall_mem_singleton.mpr ?_⟩
    exact .assign rfl (by simp [Expr.plain, hkey])
  all_goals exact fun _ h => absurd h List.not_mem_nil

/-! ## Numbered statements -/

mutual

theorem plain_renumber (e : Expr) (k : Nat) : (e.renumber k).1.plain = e.plain := by
  cases e with
  | call a f args => rfl
  | binary a op l r =>
    show ((l.renumber k).1.plain && (r.renumber (l.renumber k).2).1.plain) = _
    rw [plain_renumber l, plain_renumber r, Expr.plain]
  | unary a op e => exact plain_renumber e k
  | table a ks vs =>
    show (Expr.plainAll (Expr.renumberAll ks k).1 &&
      Expr.plainAll (Expr.renumberAll vs (Expr.renumberAll ks k).2).1) = _
    rw [plainAll_renumberAll ks, plainAll_renumberAll vs, Expr.plain]
  | index a t e =>
    show ((t.renumber k).1.plain && (e.renumber (t.renumber k).2).1.plain) = _
    rw [plain_renumber t, plain_renumber e, Expr.plain]
  | _ => rfl

theorem plainAll_renumberAll (es : List Expr) (k : Nat) :
    Expr.plainAll (Expr.renumberAll es k).1 = Expr.plainAll es := by
  cases es with
  | nil => rfl
  | cons e es =>
    show ((e.renumber k).1.plain && Expr.plainAll (Expr.renumberAll es (e.renumber k).2).1) = _
    rw [plain_renumber e, plainAll_renumberAll es, Expr.plainAll]

end

theorem length_renumberAll (es : List Expr) (k : Nat) :
    (Expr.renumberAll es k).1.length = es.length := by
  induction es generalizing k with
  | nil => rfl
  | cons e es ih =>
    show (Expr.renumberAll es (e.renumber k).2).1.length + 1 = _
    rw [ih, List.length_cons]

theorem flat_renumber {n : Node} (h : n.Flat) (k : Nat) : (n.renumber k).1.Flat := by
  cases h with
  | @assign a ts vs hts hvs hne hlen =>
    refine .assign ((plainAll_renumberAll ts _).trans hts) ((plainAll_renumberAll vs _).trans hvs)
      ?_ ?_
    · rw [ne_eq, ← List.length_eq_zero_iff, length_renumberAll, List.length_eq_zero_iff]
      exact hne
    · rw [length_renumberAll, length_renumberAll, hlen]
  | vararg hts => exact .vararg ((plainAll_renumberAll _ _).trans hts)
  | call hts hf hargs =>
    exact .call ((plainAll_renumberAll _ _).trans hts) ((plain_renumber _ _).trans hf)
      ((plainAll_renumberAll _ _).trans hargs)
  | returns hvs => exact .returns ((plainAll_renumberAll _ _).trans hvs)
  | tailCall hf hargs =>
    exact .tailCall ((plain_renumber _ _).trans hf) ((plainAll_renumberAll _ _).trans hargs)
  | jump a offset => exact .jump a offset
  | test hc => exact .test ((plain_renumber _ _).trans hc)
  | forPrep hx hy hz =>
    exact .forPrep ((plain_renumber _ _).trans hx) ((plain_renumber _ _).trans hy)
      ((plain_renumber _ _).trans hz)
  | forLoop hc => exact .forLoop ((plain_renumber _ _).trans hc)
  | tForLoop a vars => exact .tForLoop a _

theorem Made.renumber {i : Instruction} {op : Opcode} {n : Node} (h : Made i op n) (k : Nat) :
    Made i op (n.renumber k).1 := by
  refine ⟨flat_renumber h.flat k, ?_, ?_, ?_⟩
  · have haddress := h.address
    cases h.flat <;> exact haddress
  · intro hi
    have hnear := h.near hi
    cases h.flat <;> exact hnear
  · intro a counter offset hn
    cases h.flat
    case forLoop =>
      injection hn with ha hcounter hoffset
      exact hoffset ▸ h.loop _ _ _ rfl
    all_goals nomatch hn

theorem mem_renumberAll {ns : List Node} {n : Node} {k : Nat}
    (h : n ∈ (Node.renumberAll ns k).1) : ∃ m ∈ ns, ∃ l, n = (m.renumber l).1 := by
  induction ns generalizing k with
  | nil => exact absurd h List.not_mem_nil
  | cons m ns ih =>
    rcases List.mem_cons.mp (h : n ∈ (m.renumber k).1 :: (Node.renumberAll ns (m.renumber k).2).1)
      with rfl | h
    · exact ⟨m, by simp, k, rfl⟩
    · obtain ⟨m', hm', l, hl⟩ := ih h
      exact ⟨m', by simp [hm'], l, hl⟩

/-! ## Functions -/

/-- The statement comes from an instruction of the list. -/
def MadeFrom (is : List Instruction) (n : Node) : Prop :=
  ∃ i ∈ is, ∃ op, Opcode.ofCode? i.op = some op ∧ Made i op n

/-- The failure is that of an instruction of the list. -/
def FailedIn (is : List Instruction) (e : DecompileError) : Prop :=
  ∃ i ∈ is, ∃ cause, e = .failed i.address (some i.op) cause ∧ (i.Decoded → cause.Declared)

theorem instruction_outcome (c : Code) (i : Instruction) :
    Outcome (fun ns => ∀ n ∈ ns, MadeFrom [i] n) (FailedIn [i]) (instruction c i) := by
  unfold instruction
  cases hop : Opcode.ofCode? i.op with
  | none => exact fun _ h => absurd h List.not_mem_nil
  | some op =>
    have hmakes := opcode_makes c i op hop
    dsimp only
    cases hns : opcode c i op with
    | ok ns =>
      rw [hns] at hmakes
      exact fun n hn => ⟨i, by simp, op, hop, hmakes n hn⟩
    | error cause =>
      rw [hns] at hmakes
      exact ⟨i, by simp, cause, rfl, hmakes⟩

theorem MadeFrom.mono {is js : List Instruction} {n : Node} (h : is ⊆ js) :
    MadeFrom is n → MadeFrom js n := by
  rintro ⟨i, hi, hmade⟩
  exact ⟨i, h hi, hmade⟩

theorem FailedIn.mono {is js : List Instruction} {e : DecompileError} (h : is ⊆ js) :
    FailedIn is e → FailedIn js e := by
  rintro ⟨i, hi, hfailed⟩
  exact ⟨i, h hi, hfailed⟩

theorem instructions_outcome (c : Code) (is : List Instruction) :
    Outcome (fun ns => ∀ n ∈ ns, MadeFrom is n) (FailedIn is) (instructions c is) := by
  induction is with
  | nil => exact fun _ h => absurd h List.not_mem_nil
  | cons i is ih =>
    have hhead : [i] ⊆ i :: is := by simp
    have htail : is ⊆ i :: is := by simp
    refine ((instruction_outcome c i).mono (fun ns h n hn => (h n hn).mono hhead)
      fun e h => h.mono hhead).bind fun ns hns => ?_
    refine (ih.mono (fun ns h n hn => (h n hn).mono htail) fun e h => h.mono htail).bind
      fun rest hrest => Outcome.pure fun n hn => ?_
    exact (List.mem_append.mp hn).elim (hns n) (hrest n)

/-- What holds of the statements of every opcode holds of those of all instructions. -/
theorem instructions_forall {c : Code} {P : Instruction → Opcode → Node → Prop}
    (hopcode : ∀ i op, Opcode.ofCode? i.op = some op →
      Outcome (fun ns => ∀ n ∈ ns, P i op n) (fun _ => True) (opcode c i op))
    (is : List Instruction) :
    Outcome (fun ns => ∀ n ∈ ns, ∃ i ∈ is, ∃ op, Opcode.ofCode? i.op = some op ∧ P i op n)
      (fun _ => True) (instructions c is) := by
  induction is with
  | nil => exact fun _ h => absurd h List.not_mem_nil
  | cons i is ih =>
    have hone : Outcome (fun ns => ∀ n ∈ ns, ∃ op, Opcode.ofCode? i.op = some op ∧ P i op n)
        (fun _ => True) (instruction c i) := by
      unfold instruction
      cases hop : Opcode.ofCode? i.op with
      | none => exact fun _ h => absurd h List.not_mem_nil
      | some op =>
        have hns := hopcode i op hop
        dsimp only
        cases hrun : opcode c i op with
        | ok ns =>
          rw [hrun] at hns
          exact fun n hn => ⟨op, rfl, hns n hn⟩
        | error cause => trivial
    refine hone.bind fun ns hns => ih.bind fun rest hrest => Outcome.pure fun n hn => ?_
    rcases List.mem_append.mp hn with hn | hn
    · exact ⟨i, List.mem_cons_self, hns n hn⟩
    · obtain ⟨j, hj, hn⟩ := hrest n hn
      exact ⟨j, List.mem_cons_of_mem i hj, hn⟩

end Lower

theorem Code.lower_outcome (c : Code) :
    Outcome (fun d => ∀ n ∈ d.body, Lower.MadeFrom c.instructions.items n)
      (Lower.FailedIn c.instructions.items) c.lower := by
  refine (Lower.instructions_outcome c c.instructions.items).bind fun body hbody => Outcome.pure ?_
  intro n hn
  obtain ⟨m, hm, k, rfl⟩ := Lower.mem_renumberAll hn
  obtain ⟨i, hi, op, hop, hmade⟩ := hbody m hm
  exact ⟨i, hi, op, hop, hmade.renumber k⟩

/-- The statements of a lowered function are flat. -/
theorem Code.lower_flat {c : Code} {d : Declaration} (h : c.lower = .ok d) :
    ∀ n ∈ d.body, n.Flat := by
  intro n hn
  have hbody := c.lower_outcome
  rw [h] at hbody
  obtain ⟨i, -, op, -, hmade⟩ := hbody n hn
  exact hmade.flat

/-- What holds of the statements of every opcode, and whatever their registers are numbered, holds of the
statements of a lowered function. -/
theorem Code.lower_forall {c : Code} {d : Declaration} {P : Instruction → Opcode → Node → Prop}
    (hopcode : ∀ i op, Opcode.ofCode? i.op = some op →
      Outcome (fun ns => ∀ n ∈ ns, P i op n) (fun _ => True) (Lower.opcode c i op))
    (hrenumber : ∀ i op n k, P i op n → P i op (n.renumber k).1) (h : c.lower = .ok d) :
    ∀ n ∈ d.body, ∃ i ∈ c.instructions.items, ∃ op,
      Opcode.ofCode? i.op = some op ∧ P i op n := by
  have hlower : Outcome (fun d => ∀ n ∈ d.body, ∃ i ∈ c.instructions.items, ∃ op,
      Opcode.ofCode? i.op = some op ∧ P i op n) (fun _ => True) c.lower := by
    refine (Lower.instructions_forall hopcode _).bind fun body hbody => Outcome.pure fun n hn => ?_
    obtain ⟨m, hm, k, rfl⟩ := Lower.mem_renumberAll hn
    obtain ⟨i, hi, op, hop, hmade⟩ := hbody m hm
    exact ⟨i, hi, op, hop, hrenumber i op m k hmade⟩
  rw [h] at hlower
  exact hlower

/-- A function with these words from address 0 on, and no constants. -/
def Code.ofWords (parameters : UInt32) (words : List Word) : Code where
  address := 0
  upvalues := 0
  parameters
  varargFlags := 0
  registers := 0
  instructions := some (words.zipIdx.filterMap fun (w, i) => Instruction.decode (4 * i : Nat) w)
  constants := none
  debug := none

theorem Code.ofWords_decoded (parameters : UInt32) (words : List Word) :
    ∀ i ∈ (Code.ofWords parameters words).instructions.items, i.Decoded := by
  intro i hi
  obtain ⟨⟨w, k⟩, -, hdecode⟩ := List.mem_filterMap.mp hi
  change Instruction.decode (4 * k : Nat) w = some i at hdecode
  exact ⟨4 * k, by rw [Instruction.decode_raw hdecode, hdecode]⟩

end HavokScript
