import HavokScript.Proofs.Decompile.Lowering

/-!
# Which operands lowering takes

Lowering takes operands by their place, and which places there are depends on the fields that the
layout of an opcode leaves unused. `Opcode.uses` lists what lowering takes each place for; lowering
depends on no other place (`opcode_congr`), and the table agrees with the layouts (`uses_agree`),
so a decoded instruction has every operand that lowering takes, in the role it is taken for.

Only an operand that is looked up among the constants can be unusable. `Use.fault?` says what lowering
fails with at one operand, and lowering a function fails with the first fault of its first
instruction that has one (`instructions_failure`).
-/

namespace HavokScript

/-! ## The table of uses -/

/-- What lowering takes an operand for. -/
inductive Use where
  /-- a register that is named by the value -/
  | register
  /-- the value itself -/
  | number
  /-- the constant that the value names, which is to be a string -/
  | name
  /-- a register or a constant, as the role says -/
  | value
  deriving DecidableEq

/-- What lowering takes the operands of an instruction for, from the first place on. Lowering has no
statements for the opcodes without places. -/
def Opcode.uses : Opcode → List Use
  | .add | .sub | .mul | .div | .mod | .pow => [.register, .value, .value]
  | .addBK | .subBK | .mulBK | .divBK | .modBK | .powBK => [.register, .value, .value]
  | .unm | .not | .notR1 | .len | .move | .loadNil => [.register, .register]
  | .eq | .lt | .le | .eqBK | .ltBK | .leBK => [.number, .value, .value]
  | .call | .callI | .callIR1 | .callC | .callM => [.register, .number, .number]
  | .tailCall | .tailCallI | .tailCallIR1 | .tailCallC | .tailCallM => [.register, .number]
  | .jmp => [.number]
  | .forPrep | .newTable => [.register]
  | .forLoop | .tForLoop | .test | .testR1 => [.register, .number]
  | .testSet => [.register, .register, .number]
  | .loadBool => [.register, .number, .number]
  | .loadK => [.register, .value]
  | .getGlobal | .getGlobalMem | .setGlobal => [.register, .name]
  | .concat => [.register, .register, .register]
  | .vararg | .ret | .closure | .getUpval | .setUpval | .setUpvalR1 => [.register, .number]
  | .getField | .getFieldR1 | .getFieldMM => [.register, .register, .name]
  | .setField | .setFieldR1 => [.register, .name, .value]
  | .getTable | .getTableS | .getTableN | .self => [.register, .register, .value]
  | .setTable | .setTableS | .setTableN | .setTableBK | .setTableSBK | .setTableNBK =>
    [.register, .value, .value]
  | _ => []

/-- The operands that lowering takes from an instruction, each with what it is taken for. -/
def Instruction.used (i : Instruction) : List (Use × Operand) :=
  match Opcode.ofCode? i.op with
  | none => []
  | some op => op.uses.zip i.operands.items

/-- An operand of this role can be taken for it. -/
def Use.Fits : Use → Role → Prop
  | register, r => r = .register
  | number, r => r = .number
  | name, r => r = .constant
  | value, r => r = .register ∨ r = .constant

/-! ## The two tables agree -/

/-- The argument field, if it holds an operand. -/
def Argument.listed (a : Argument) : List Argument := if a = .unused then [] else [a]

/-- The argument fields of a layout that hold an operand. -/
def Layout.arguments : Layout → List Argument
  | .abc a b c => a.listed ++ b.listed ++ c.listed
  | .abx a b => a.listed ++ b.listed
  | .asbx a => a.listed ++ [.offset]

/-- What the operand of an argument field can be taken for. -/
def Use.accepts : Use → Argument → Bool
  | register, .register | number, .number | number, .offset | name, .constant => true
  | value, .register | value, .constant | value, .registerOrConstant => true
  | _, _ => false

/-- The operand can be taken for whatever its argument field can be taken for. -/
def Argument.Holds (a : Argument) (o : Operand) : Prop :=
  ∀ u : Use, u.accepts a = true → u.Fits o.role

/-- Every place that lowering takes is a field of the layout that can be taken so. -/
theorem Opcode.uses_agree (op : Opcode) : op.uses.length ≤ op.layout.arguments.length ∧
    ∀ x ∈ op.uses.zip op.layout.arguments, x.1.accepts x.2 = true := by
  cases op <;> decide

theorem ofField_holds (a : Argument) (x : Nat) :
    List.Forall₂ Argument.Holds a.listed (Operand.ofField a x) := by
  cases a with
  | unused => exact .nil
  | registerOrConstant =>
    refine .cons (fun u hu => ?_) .nil
    cases u with
    | value =>
      unfold Operand.ofRegisterOrConstant
      split
      · exact .inr rfl
      · exact .inl rfl
    | _ => cases hu
  | _ =>
    refine .cons (fun u hu => ?_) .nil
    cases u <;> first | exact rfl | exact .inl rfl | exact .inr rfl | cases hu

theorem offset_holds {x : Int} : Argument.Holds .offset ⟨.number, x⟩ := by
  intro u hu
  cases u <;> first | exact rfl | cases hu

theorem operandsOf_holds (layout : Layout) (w : Word) :
    List.Forall₂ Argument.Holds layout.arguments (Instruction.operandsOf layout w) := by
  cases layout with
  | abc a b c =>
    exact List.rel_append (List.rel_append (ofField_holds a _) (ofField_holds b _))
      (ofField_holds c _)
  | abx a b => exact List.rel_append (ofField_holds a _) (ofField_holds b _)
  | asbx a => exact List.rel_append (ofField_holds a _) (.cons offset_holds .nil)

/-- The instruction has all operands that lowering takes, each in a role it can be taken for. -/
def Instruction.Readable (i : Instruction) (op : Opcode) : Prop :=
  ∀ (n : Nat) (u : Use), op.uses[n]? = some u →
    ∃ o, i.operands.items[n]? = some o ∧ u.Fits o.role

theorem Instruction.Decoded.opcode {i : Instruction} (hi : i.Decoded) :
    ∃ op, Opcode.ofCode? i.op = some op := by
  obtain ⟨address, hdecode⟩ := hi
  obtain ⟨op, hop, hx⟩ := Option.map_eq_some_iff.mp hdecode
  exact ⟨op, by rwa [← hx]⟩

theorem Instruction.Decoded.readable {i : Instruction} {op : Opcode} (hi : i.Decoded)
    (hop : Opcode.ofCode? i.op = some op) : i.Readable op := by
  intro n u hu
  have hn : n < op.uses.length := (List.getElem?_eq_some_iff.mp hu).1
  have hholds := operandsOf_holds op.layout i.raw
  rw [← Lower.decoded_operands hi hop, List.forall₂_iff_get] at hholds
  obtain ⟨hlength, hholds⟩ := hholds
  have ha : n < op.layout.arguments.length := Nat.lt_of_lt_of_le hn op.uses_agree.1
  have ho : n < i.operands.items.length := hlength ▸ ha
  refine ⟨_, List.getElem?_eq_getElem ho, hholds n ha ho u (op.uses_agree.2 (u, _) ?_)⟩
  rw [List.mem_iff_getElem?]
  exact ⟨n, List.getElem?_zip_eq_some.mpr ⟨hu, List.getElem?_eq_getElem ha⟩⟩

/-! ## No other operand is taken -/

namespace Lower

/-- The instructions have the same address, and the same operands at the first places. -/
structure SameOperands (count : Nat) (i j : Instruction) : Prop where
  address : i.address = j.address
  operand : ∀ n < count, i.operands.items[n]? = j.operands.items[n]?

namespace SameOperands

variable {count : Nat} {i j : Instruction}

theorem argument (h : SameOperands count i j) {n : Nat} (hn : n < count) :
    i.argument n = j.argument n := by
  rw [Instruction.argument, h.operand n hn, ← Instruction.argument]

theorem operandOf (h : SameOperands count i j) (c : Code) {n : Nat} (hn : n < count) :
    Lower.operand c i n = Lower.operand c j n := by
  unfold Lower.operand
  rw [h.operand n hn, h.address]

end SameOperands

/-- Lowering depends on the operands of the table only. -/
theorem opcode_congr {c : Code} {op : Opcode} {i j : Instruction}
    (h : SameOperands op.uses.length i j) : opcode c i op = opcode c j op := by
  have haddress := h.address
  have hargument (n : Nat) (hn : n < op.uses.length) := h.argument hn
  have hoperand (n : Nat) (hn : n < op.uses.length) := h.operandOf c hn
  cases op <;>
    simp (disch := decide) only [opcode, arithmetic, unary, comparison, call, condition, loadNil,
      concat, haddress, hargument, hoperand]

end Lower

/-! ## Unusable operands -/

/-- The operand is looked up among the constants. -/
def Use.Names (u : Use) (o : Operand) : Prop := u = .name ∨ u = .value ∧ o.role = .constant

/-- Lowering cannot use the operand for it, and why. -/
inductive Unusable (c : Code) : Use → Operand → DecompileCause → Prop
  | outOfRange {u : Use} {o : Operand} (names : u.Names o)
      (range : o.value < 0 ∨ (c.constants.items.length : Int) ≤ o.value) :
      Unusable c u o (.constantIndex o.value c.constants.items.length c.label)
  | noString {o : Operand} {k : Constant} (found : c.constant? o.value = some k)
      (tag : k.tag ≠ .string) : Unusable c .name o (.globalKey o.value k.tag)
  | noLiteral {o : Operand} {k : Constant} (role : o.role = .constant)
      (found : c.constant? o.value = some k) (tag : k.tag = .lightUserdata ∨ k.tag = .ui64) :
      Unusable c .value o (.constantKind o.value k.tag)

namespace Instruction

/-- No operand that lowering takes is unusable. -/
def Usable (c : Code) (i : Instruction) : Prop :=
  ∀ x ∈ i.used, ∀ cause, ¬ Unusable c x.1 x.2 cause

/-- The cause is that of the first unusable operand that lowering takes. -/
def FirstFault (c : Code) (i : Instruction) (cause : DecompileCause) : Prop :=
  ∃ before u o after, i.used = before ++ (u, o) :: after ∧
    (∀ x ∈ before, ∀ cause, ¬ Unusable c x.1 x.2 cause) ∧ Unusable c u o cause

end Instruction

/-- Why an operand cannot be used. -/
def Use.fault? (c : Code) : Use → Operand → Option DecompileCause
  | .name, o =>
    match c.constant? o.value with
    | none => some (.constantIndex o.value c.constants.items.length c.label)
    | some k => if k.tag = .string then none else some (.globalKey o.value k.tag)
  | .value, o =>
    if o.role = .constant then
      match c.constant? o.value with
      | none => some (.constantIndex o.value c.constants.items.length c.label)
      | some k =>
        if k.tag = .lightUserdata ∨ k.tag = .ui64 then some (.constantKind o.value k.tag) else none
    else none
  | _, _ => none

theorem Code.constant?_eq_none {c : Code} {x : Int} :
    c.constant? x = none ↔ x < 0 ∨ (c.constants.items.length : Int) ≤ x := by
  unfold Code.constant?
  split
  · simp [*]
  · rw [List.getElem?_eq_none_iff]
    omega

theorem Use.fault?_eq_some {c : Code} {u : Use} {o : Operand} {cause : DecompileCause} :
    u.fault? c o = some cause ↔ Unusable c u o cause := by
  constructor
  · intro h
    unfold Use.fault? at h
    split at h
    · split at h
      · cases h
        exact .outOfRange (.inl rfl) (Code.constant?_eq_none.mp ‹_›)
      · split at h
        · cases h
        · cases h
          exact .noString ‹_› ‹_›
    · split at h
      · split at h
        · cases h
          exact .outOfRange (.inr ⟨rfl, ‹_›⟩) (Code.constant?_eq_none.mp ‹_›)
        · split at h
          · cases h
            exact .noLiteral ‹_› ‹_› ‹_›
          · cases h
      · cases h
    · cases h
  · rintro (⟨rfl | ⟨rfl, hrole⟩, hrange⟩ | ⟨hfound, htag⟩ | ⟨hrole, hfound, htag⟩)
    · rw [Use.fault?, Code.constant?_eq_none.mpr hrange]
    · rw [Use.fault?, if_pos hrole, Code.constant?_eq_none.mpr hrange]
    · rw [Use.fault?, hfound]
      exact if_neg htag
    · rw [Use.fault?, if_pos hrole, hfound]
      exact if_pos htag

theorem Use.fault?_eq_none {c : Code} {u : Use} {o : Operand} :
    u.fault? c o = none ↔ ∀ cause, ¬ Unusable c u o cause := by
  rw [Option.eq_none_iff_forall_ne_some]
  exact forall_congr' fun cause => not_congr Use.fault?_eq_some

namespace Instruction

/-- Why the first unusable operand of an instruction cannot be used. -/
def fault? (c : Code) (i : Instruction) : Option DecompileCause :=
  i.used.findSome? fun x => x.1.fault? c x.2

theorem fault?_eq_some {c : Code} {i : Instruction} {cause : DecompileCause} :
    i.fault? c = some cause ↔ i.FirstFault c cause := by
  rw [fault?, List.findSome?_eq_some_iff]
  constructor
  · rintro ⟨before, ⟨u, o⟩, after, hused, hfault, hbefore⟩
    exact ⟨before, u, o, after, hused, fun x hx => Use.fault?_eq_none.mp (hbefore x hx),
      Use.fault?_eq_some.mp hfault⟩
  · rintro ⟨before, u, o, after, hused, hbefore, hfault⟩
    exact ⟨before, (u, o), after, hused, Use.fault?_eq_some.mpr hfault,
      fun x hx => Use.fault?_eq_none.mpr (hbefore x hx)⟩

theorem fault?_eq_none {c : Code} {i : Instruction} : i.fault? c = none ↔ i.Usable c := by
  rw [fault?, List.findSome?_eq_none_iff]
  exact forall₂_congr fun x _ => Use.fault?_eq_none

end Instruction

/-! ## What lowering fails with -/

/-- Why the operand at a place cannot be used. -/
def Instruction.faultAt? (c : Code) (i : Instruction) (u : Use) (n : Nat) : Option DecompileCause :=
  i.operands.items[n]?.bind (u.fault? c)

/-- Why the first unusable operand from a place on cannot be used. -/
def Instruction.faultFrom? (c : Code) (i : Instruction) : Nat → List Use → Option DecompileCause
  | _, [] => none
  | n, u :: us => (i.faultAt? c u n).or (i.faultFrom? c (n + 1) us)

/-- The operand at a place stands in front of those from the next one on. -/
theorem Instruction.zip_drop (i : Instruction) (n : Nat) (u : Use) (us : List Use) :
    (u :: us).zip (i.operands.items.drop n) =
      (i.operands.items[n]?.map (u, ·)).toList ++ us.zip (i.operands.items.drop (n + 1)) := by
  by_cases hn : n < i.operands.items.length
  · rw [List.drop_eq_getElem_cons hn, List.getElem?_eq_getElem hn]
    rfl
  · rw [List.drop_of_length_le (by omega), List.drop_of_length_le (by omega),
      List.getElem?_eq_none (by omega), List.zip_nil_right, List.zip_nil_right]
    rfl

theorem Instruction.findSome?_used (c : Code) (i : Instruction) (n : Nat) (us : List Use) :
    ((us.zip (i.operands.items.drop n)).findSome? fun x => x.1.fault? c x.2) =
      i.faultFrom? c n us := by
  induction us generalizing n with
  | nil => rfl
  | cons u us ih =>
    rw [zip_drop, List.findSome?_append, ih, faultFrom?, faultAt?]
    cases i.operands.items[n]? with
    | none => rfl
    | some o => simp

/-- Taken so, an operand is not looked up among the constants. -/
def Use.Quiet (u : Use) : Prop := u = .register ∨ u = .number

instance (u : Use) : Decidable u.Quiet := inferInstanceAs (Decidable (_ ∨ _))

theorem Instruction.faultAt?_quiet {c : Code} {i : Instruction} {u : Use} (hu : u.Quiet) (n : Nat) :
    i.faultAt? c u n = none := by
  rcases hu with rfl | rfl <;> exact Option.bind_fun_none _

theorem Instruction.faultFrom?_quiet {c : Code} {i : Instruction} {us : List Use}
    (hus : ∀ u ∈ us, u.Quiet) (n : Nat) : i.faultFrom? c n us = none := by
  induction us generalizing n with
  | nil => rfl
  | cons u us ih =>
    rw [List.forall_mem_cons] at hus
    rw [faultFrom?, faultAt?_quiet hus.1, ih hus.2]
    rfl

theorem Instruction.fault?_eq {c : Code} {i : Instruction} {op : Opcode}
    (hop : Opcode.ofCode? i.op = some op) : i.fault? c = i.faultFrom? c 0 op.uses := by
  rw [fault?, used, hop]
  exact i.findSome?_used c 0 op.uses

theorem Code.mem_of_constant? {c : Code} {x : Int} {k : Constant} (h : c.constant? x = some k) :
    k ∈ c.constants.items := by
  unfold Code.constant? at h
  split at h
  · cases h
  · exact List.mem_of_getElem? h

namespace Lower

variable {c : Code} {i : Instruction}

theorem failure?_literal (hc : ∀ k ∈ c.constants.items, k.Supported) (a x : Int) :
    failure? (literal c a x) = Use.fault? c .value ⟨.constant, x⟩ := by
  unfold literal constant
  cases hk : c.constant? x with
  | none => simp only [Use.fault?, hk]; rfl
  | some k =>
    have hmem := Code.mem_of_constant? hk
    simp only [Use.fault?, hk]
    cases hc k hmem <;> rfl

theorem failure?_name (hc : ∀ k ∈ c.constants.items, k.Supported) (a : Int) (o : Operand) :
    failure? (name c a o.value) = Use.fault? c .name o := by
  unfold name constant
  cases hk : c.constant? o.value with
  | none => simp only [Use.fault?, hk]; rfl
  | some k =>
    have hmem := Code.mem_of_constant? hk
    simp only [Use.fault?, hk]
    cases hc k hmem <;> rfl

theorem failure?_operand (hc : ∀ k ∈ c.constants.items, k.Supported) {n : Nat}
    (hn : n < i.operands.items.length) : failure? (operand c i n) = i.faultAt? c .value n := by
  unfold operand Instruction.faultAt?
  rw [List.getElem?_eq_getElem hn, Option.bind_some]
  dsimp only
  split_ifs with hregister hconstant
  · rw [Use.fault?, if_neg (by rw [hregister]; decide)]
    rfl
  · rw [failure?_literal hc, Use.fault?, Use.fault?, if_pos hconstant, if_pos rfl]
  · rw [Use.fault?, if_neg hconstant]
    rfl

theorem failure?_nameAt (hc : ∀ k ∈ c.constants.items, k.Supported) {n : Nat}
    (hn : n < i.operands.items.length) :
    failure? (name c i.address (i.argument n)) = i.faultAt? c .name n := by
  unfold Instruction.argument Instruction.faultAt?
  rw [List.getElem?_eq_getElem hn, Option.bind_some]
  exact failure?_name hc _ _

/-- Lowering an instruction fails with its first fault. -/
theorem opcode_failure {op : Opcode} (hc : ∀ k ∈ c.constants.items, k.Supported)
    (hi : i.Decoded) (hop : Opcode.ofCode? i.op = some op) :
    failure? (opcode c i op) = i.fault? c := by
  have hhas (n : Nat) (hn : n < op.uses.length) : n < i.operands.items.length := by
    obtain ⟨o, ho, -⟩ := hi.readable hop n _ (List.getElem?_eq_getElem hn)
    exact (List.getElem?_eq_some_iff.mp ho).1
  have hoperand (n : Nat) (hn : n < op.uses.length) := failure?_operand hc (hhas n hn)
  have hname (n : Nat) (hn : n < op.uses.length) := failure?_nameAt hc (hhas n hn)
  have hone {α β : Type} (x : Except DecompileCause α) (g : α → β) :
      failure? (do let a ← x; return g a) = failure? x := failure?_map x g
  have htwo {α β γ : Type} (x : Except DecompileCause α) (y : Except DecompileCause β)
      (g : α → β → γ) : failure? (do let a ← x; let b ← y; return g a b) =
        (failure? x).or (failure? y) := failure?_bind fun a => failure?_map y (g a)
  rw [Instruction.fault?_eq hop]
  cases op
  case add | sub | mul | div | mod | pow | addBK | subBK | mulBK | divBK | modBK | powBK |
      eq | lt | le | eqBK | ltBK | leBK | setField | setFieldR1 |
      setTable | setTableS | setTableN | setTableBK | setTableSBK | setTableNBK =>
    change _ = (i.faultAt? c _ 0).or ((i.faultAt? c _ 1).or ((i.faultAt? c _ 2).or none))
    simp (disch := decide) only [opcode, arithmetic, comparison, htwo, hoperand, hname,
      Instruction.faultAt?_quiet, Option.none_or, Option.or_none]
  case getField | getFieldR1 | getFieldMM | getTable | getTableS | getTableN | self =>
    change _ = (i.faultAt? c _ 0).or ((i.faultAt? c _ 1).or ((i.faultAt? c _ 2).or none))
    simp (disch := decide) only [opcode, hone, hoperand, hname, Instruction.faultAt?_quiet,
      Option.none_or, Option.or_none]
  case loadK | getGlobal | getGlobalMem | setGlobal =>
    change _ = (i.faultAt? c _ 0).or ((i.faultAt? c _ 1).or none)
    simp (disch := decide) only [opcode, hone, hoperand, hname, Instruction.faultAt?_quiet,
      Option.none_or, Option.or_none]
  all_goals
    rw [Instruction.faultFrom?_quiet (by decide)]
  case loadBool | ret =>
    rw [opcode]
    split <;> rfl
  all_goals rfl

/-- Lowering instructions fails with the first fault of the first instruction that has one. -/
theorem instructions_failure (hc : ∀ k ∈ c.constants.items, k.Supported) {is : List Instruction}
    (his : ∀ i ∈ is, i.Decoded) : failure? (instructions c is) =
      is.findSome? fun i => (i.fault? c).map (.failed i.address (some i.op)) := by
  induction is with
  | nil => rfl
  | cons i is ih =>
    rw [List.forall_mem_cons] at his
    have hhead : failure? (instruction c i) =
        (i.fault? c).map (.failed i.address (some i.op)) := by
      obtain ⟨op, hop⟩ := his.1.opcode
      rw [← opcode_failure hc his.1 hop, instruction, hop]
      dsimp only
      cases opcode c i op <;> rfl
    have htail (ns : List Node) := failure?_map (instructions c is) (ns ++ ·)
    rw [instructions, failure?_bind htail, hhead, ih his.2, List.findSome?_cons]
    cases i.fault? c <;> rfl

end Lower

theorem Code.lower_failure {c : Code} (hc : c.Decoded) :
    failure? c.lower = c.instructions.items.findSome? fun i =>
      (i.fault? c).map (.failed i.address (some i.op)) := by
  rw [← Lower.instructions_failure hc.constants hc.instructions, lower, failure?_map]

theorem Code.lower_fails_iff {c : Code} (hc : c.Decoded) :
    (∃ e, c.lower = .error e) ↔
      ∃ i ∈ c.instructions.items, ∃ x ∈ i.used, ∃ cause, Unusable c x.1 x.2 cause := by
  have hnone : c.instructions.items.findSome? (fun i =>
      (i.fault? c).map (DecompileError.failed i.address (some i.op))) = none ↔
      ∀ i ∈ c.instructions.items, i.Usable c := by
    simp only [List.findSome?_eq_none_iff, Option.map_eq_none_iff, Instruction.fault?_eq_none]
  simp only [← failure?_eq_some, lower_failure hc, ← Option.isSome_iff_exists]
  rw [← Option.ne_none_iff_isSome, ne_eq, hnone]
  unfold Instruction.Usable
  simp only [not_forall, not_not, exists_prop]

/-- Lowering a function fails as its first instruction with an unusable operand does. -/
theorem Code.lower_error_iff {c : Code} (hc : c.Decoded) {e : DecompileError} :
    c.lower = .error e ↔ ∃ before i after cause, c.instructions.items = before ++ i :: after ∧
      (∀ j ∈ before, j.Usable c) ∧ i.FirstFault c cause ∧
      e = .failed i.address (some i.op) cause := by
  rw [← failure?_eq_some, lower_failure hc, List.findSome?_eq_some_iff]
  simp only [Option.map_eq_some_iff, Option.map_eq_none_iff, Instruction.fault?_eq_some,
    Instruction.fault?_eq_none]
  constructor
  · rintro ⟨before, i, after, hitems, ⟨cause, hcause, rfl⟩, hbefore⟩
    exact ⟨before, i, after, cause, hitems, hbefore, hcause, rfl⟩
  · rintro ⟨before, i, after, cause, hitems, hbefore, hcause, rfl⟩
    exact ⟨before, i, after, hitems, ⟨cause, hcause, rfl⟩, hbefore⟩

/-- Lowering a decoded function fails exactly if an operand it takes is out of range of the
constants, is a name and no string, or is a literal and light userdata or ui64; the failure is that
of the first such operand of the first instruction that has one. No operand is ever missing: all
that lowering depends on are operands that the instruction has, in the role they are taken for. -/
theorem lower_blames_first_unusable {data : Bytes} {f : ChunkFile} {p : Prototype}
    (h : ChunkFile.decode data = .ok f) (hp : p ∈ f.walk) :
    ((∃ e, p.lower = .error e) ↔
      ∃ i ∈ p.instructions.items, ∃ x ∈ i.used, ∃ cause, Unusable p.toCode x.1 x.2 cause) ∧
    (∀ e, p.lower = .error e ↔
      ∃ before i after cause, p.instructions.items = before ++ i :: after ∧
        (∀ j ∈ before, j.Usable p.toCode) ∧ i.FirstFault p.toCode cause ∧
        e = .failed i.address (some i.op) cause) ∧
    ∀ i ∈ p.instructions.items, ∃ op, Opcode.ofCode? i.op = some op ∧ i.Readable op ∧
      (∀ c j, Lower.SameOperands op.uses.length i j →
        Lower.opcode c i op = Lower.opcode c j op) ∧
      ∀ c n, Lower.opcode c i op ≠ .error (.missingOperand n) := by
  have hcode := (ChunkFile.decode_codes h).2 p hp
  refine ⟨Code.lower_fails_iff hcode, fun e => Code.lower_error_iff hcode, fun i hi => ?_⟩
  obtain ⟨op, hop⟩ := (hcode.instructions i hi).opcode
  refine ⟨op, hop, (hcode.instructions i hi).readable hop, fun c j => Lower.opcode_congr, ?_⟩
  intro c n hmissing
  have hmakes := Lower.opcode_makes c i op hop
  rw [hmissing] at hmakes
  exact hmakes (hcode.instructions i hi)

/-- A function of a lookup that succeeds, one that fails at its value, and one that fails at its key. -/
def lookups : Bytes :=
  Assembly.bytes ⟨.standard, some ⟨⟨0, 1, 0, 4,
    [Word.ofABx 6 1 0, Word.ofABC 15 1 0 (256 + 1), Word.ofABC 15 1 0 (256 + 2),
      Word.ofABx 27 1 2, Word.ofABC 9 0 1 0],
    [⟨.string, .string (utf8 "a")⟩, ⟨.boolean, .bool true⟩, ⟨.ui64, .unsigned 7⟩], none⟩, []⟩⟩

/-- Of two faults behind two lookups that succeed, the first one is blamed. -/
theorem lower_blames_first_unusable_lookups :
    ∃ f p, ChunkFile.decode lookups = .ok f ∧ p ∈ f.walk ∧
      p.lower = .error (.failed 48 (some 15) (.constantKind 2 .ui64)) ∧
      (∃ i ∈ p.instructions.items, ∃ x ∈ i.used, ∃ cause, Unusable p.toCode x.1 x.2 cause) ∧
      ∃ before i after, p.instructions.items = before ++ i :: after ∧
        (∀ j ∈ before, j.Usable p.toCode) ∧ i.FirstFault p.toCode (.constantKind 2 .ui64) ∧
        i.address = 48 := by
  have hrun : (ChunkFile.decode lookups).toOption.any fun f => f.walk.any fun p =>
      failure? p.lower = some (.failed 48 (some 15) (.constantKind 2 .ui64)) := by
    decide +kernel
  obtain ⟨f, hdecode, hrun⟩ := exists_ok_of_any hrun
  obtain ⟨p, hp, hrun⟩ := List.any_eq_true.mp hrun
  have hlower := failure?_eq_some.mp (of_decide_eq_true hrun)
  obtain ⟨hfails, hfirst, -⟩ := lower_blames_first_unusable hdecode hp
  obtain ⟨before, i, after, cause, hitems, hbefore, hfault, he⟩ := (hfirst _).mp hlower
  simp only [DecompileError.failed.injEq] at he
  obtain ⟨haddress, -, rfl⟩ := he
  exact ⟨f, p, hdecode, hp, hlower, hfails.mp ⟨_, hlower⟩, before, i, after, hitems, hbefore,
    hfault, haddress.symm⟩

end HavokScript
