import HavokScript.Chunk.Assemble
import HavokScript.Proofs.Decompile.Independence
import HavokScript.Proofs.Decompile.Operands
import HavokScript.Proofs.Text.Shortest
import HavokScript.Proofs.Tree.Literals

/-!
# Integers as literals

If the numbers of a file are integers, they are integers of 64 bits, but the literals of a tree are floating
point numbers. Lowering gives each integer that an instruction uses the nearest number
(`Code.lower_doubles`). That is the integer itself exactly if its binary digits fit 53 bits, zeros at the
end left out, and two integers are written alike in the source exactly if they have the same nearest
number, whereas a listing tells all integers apart (`lower_literals`). The first two integers that are
written alike show the difference (`sourceText_neighbours`).
-/

namespace HavokScript

/-! ## The integers of an instruction -/

/-- The integer of a number constant. -/
def Constant.integer? (k : Constant) : Option Int64 :=
  match k.payload with
  | .signed v => if k.tag = .number then some v else none
  | _ => none

/-- The integer constant that lowering takes as a literal. -/
def Use.integer? (c : Code) : Use → Operand → Option Int64
  | .value, o => if o.role = .constant then (c.constant? o.value).bind Constant.integer? else none
  | _, _ => none

/-- The integer constants that an instruction uses as literals, in the order of its operands. -/
def Instruction.integers (c : Code) (i : Instruction) : List Int64 :=
  i.used.filterMap fun x => x.1.integer? c x.2

/-- The integer constants that the instructions of a function use as literals, one after the other. -/
def Code.integers (c : Code) : List Int64 := c.instructions.items.flatMap (·.integers c)

/-- All numbers among the constants are integers. -/
def Code.Integral (c : Code) : Prop :=
  ∀ k ∈ c.constants.items, k.tag = .number → ∃ v, k.payload = .signed v

/-- The numbers nearest to integers. -/
def Double.ofIntegers (vs : List Int64) : List Double := vs.map fun v => .ofInt v.toInt

@[simp] theorem Double.ofIntegers_nil : ofIntegers [] = [] := rfl

@[simp] theorem Double.ofIntegers_append (vs ws : List Int64) :
    ofIntegers (vs ++ ws) = ofIntegers vs ++ ofIntegers ws := List.map_append

/-! ## By their places -/

namespace Instruction

variable {c : Code} {i : Instruction}

/-- The integer constant at a place, if lowering takes the place as a literal. -/
def integersAt (c : Code) (i : Instruction) (u : Use) (n : Nat) : List Int64 :=
  (i.operands.items[n]?.bind (u.integer? c)).toList

/-- The integer constants from a place on. -/
def integersFrom (c : Code) (i : Instruction) : Nat → List Use → List Int64
  | _, [] => []
  | n, u :: us => i.integersAt c u n ++ i.integersFrom c (n + 1) us

theorem filterMap_used (c : Code) (i : Instruction) (n : Nat) (us : List Use) :
    ((us.zip (i.operands.items.drop n)).filterMap fun x => x.1.integer? c x.2) =
      i.integersFrom c n us := by
  induction us generalizing n with
  | nil => rfl
  | cons u us ih =>
    rw [zip_drop, List.filterMap_append, ih, integersFrom, integersAt]
    cases i.operands.items[n]? with
    | none => rfl
    | some o => cases h : u.integer? c o <;> simp [h]

theorem integers_eq {op : Opcode} (hop : Opcode.ofCode? i.op = some op) :
    i.integers c = i.integersFrom c 0 op.uses := by
  rw [integers, used, hop]
  exact i.filterMap_used c 0 op.uses

/-- Only an operand that is taken as a value can be a literal. -/
theorem integersAt_of_ne {u : Use} (hu : u ≠ .value) (n : Nat) : i.integersAt c u n = [] := by
  cases u with
  | value => exact absurd rfl hu
  | _ => simp [integersAt, Use.integer?]

theorem integersFrom_of_ne {us : List Use} (hus : ∀ u ∈ us, u ≠ .value) (n : Nat) :
    i.integersFrom c n us = [] := by
  induction us generalizing n with
  | nil => rfl
  | cons u us ih =>
    rw [List.forall_mem_cons] at hus
    rw [integersFrom, integersAt_of_ne hus.1, ih hus.2, List.append_nil]

/-- Two values behind another operand. -/
theorem integersFrom_pair {u : Use} (hu : u ≠ .value) :
    i.integersFrom c 0 [u, .value, .value] = i.integersAt c .value 1 ++ i.integersAt c .value 2 := by
  rw [integersFrom, integersAt_of_ne hu, List.nil_append, integersFrom, integersFrom, integersFrom,
    List.append_nil]

/-- A value behind other operands. -/
theorem integersFrom_last {us : List Use} (hus : ∀ u ∈ us, u ≠ .value) (n : Nat) :
    i.integersFrom c n (us ++ [.value]) = i.integersAt c .value (n + us.length) := by
  induction us generalizing n with
  | nil => exact List.append_nil _
  | cons u us ih =>
    rw [List.forall_mem_cons] at hus
    rw [List.cons_append, integersFrom, integersAt_of_ne hus.1, ih hus.2, List.nil_append,
      List.length_cons, Nat.add_right_comm, Nat.add_assoc]

end Instruction

/-! ## Lowering -/

namespace Lower

variable {c : Code} {i : Instruction}

@[simp] theorem doubles_reg (address index : Int) : (reg address index).doubles = [] := rfl

@[simp] theorem doublesAll_regs (address first : Int) (count : Nat) :
    Expr.doublesAll (regs address first count) = [] := by
  refine Expr.doublesAll_eq_nil fun e he => ?_
  obtain ⟨k, -, rfl⟩ := List.mem_map.mp he
  rfl

@[simp] theorem doubles_call (i : Instruction) : (call i).doubles = [] := by
  rw [call, Expr.doubles_call, doublesAll_regs]
  rfl

@[simp] theorem doubles_condition (i : Instruction) (register : Int) (n : Nat) :
    (condition i register n).doubles = [] := by
  unfold condition
  split
  · rw [Expr.doubles_unary, doubles_reg]
  · rfl

@[simp] theorem doubles_concat (i : Instruction) : (concat i).doubles = [] := by
  have hchain {a : Int} {op : Bytes} {rs : List Expr} (hrs : ∀ r ∈ rs, r.doubles = []) {e : Expr}
      (he : e.doubles = []) : (rs.foldl (fun e r => .binary a op e r) e).doubles = [] := by
    induction rs generalizing e with
    | nil => exact he
    | cons r rs ih =>
      rw [List.forall_mem_cons] at hrs
      exact ih hrs.2 (by rw [Expr.doubles_binary, he, hrs.1, List.append_nil])
  refine hchain (fun r hr => ?_) rfl
  obtain ⟨k, -, rfl⟩ := List.mem_map.mp hr
  rfl

theorem name_doubles (c : Code) (address index : Int) :
    Outcome (fun e => e.doubles = []) (fun _ => True) (name c address index) := by
  refine (outcome_any _).bind fun k _ => ?_
  cases k.string? with
  | none => exact trivial
  | some s => exact Outcome.pure rfl

/-- An integer constant becomes the nearest number, and no other constant becomes a number. -/
theorem literal_doubles (hc : c.Integral) (address index : Int) :
    Outcome (fun e => e.doubles = Double.ofIntegers (Use.integer? c .value ⟨.constant, index⟩).toList)
      (fun _ => True) (literal c address index) := by
  unfold literal constant
  rw [Use.integer?, if_pos rfl]
  cases hk : c.constant? index with
  | none => trivial
  | some k =>
    have hother (htag : k.tag ≠ .number) : k.integer? = none := by
      unfold Constant.integer?
      split
      · exact if_neg htag
      · rfl
    rw [Option.bind_some]
    simp only [bind, Except.bind]
    split_ifs with hnil hboolean hnumber hstring
    · rw [hother (by rw [hnil]; decide)]
      exact Outcome.pure rfl
    · rw [hother (by rw [hboolean]; decide)]
      exact Outcome.pure rfl
    · obtain ⟨v, hv⟩ := hc k (Code.mem_of_constant? hk) hnumber
      simp only [Constant.integer?, hv, if_pos hnumber]
      exact Outcome.pure rfl
    · rw [hother (by rw [hstring]; decide)]
      exact Outcome.pure rfl
    · trivial

theorem operand_doubles (hc : c.Integral) {n : Nat}
    (hrole : ∀ o, i.operands.items[n]? = some o → Use.value.Fits o.role) :
    Outcome (fun e => e.doubles = Double.ofIntegers (i.integersAt c .value n)) (fun _ => True)
      (operand c i n) := by
  unfold operand Instruction.integersAt
  cases ho : i.operands.items[n]? with
  | none => trivial
  | some o =>
    rw [Option.bind_some]
    dsimp only
    split_ifs with hregister hconstant
    · rw [Use.integer?, if_neg (by rw [hregister]; decide)]
      exact Outcome.pure rfl
    · have hliteral := literal_doubles hc i.address o.value
      rw [Use.integer?, if_pos rfl] at hliteral
      rwa [Use.integer?, if_pos hconstant]
    · exact absurd (hrole o ho) (not_or.mpr ⟨hregister, hconstant⟩)

/-- Nodes with the literals of two values, which stand behind another operand. -/
theorem doubles_pair {ns : List Node} {left right : Expr} {u : Use} (hu : u ≠ .value)
    (hns : Node.doublesAll ns = left.doubles ++ right.doubles)
    (hleft : left.doubles = Double.ofIntegers (i.integersAt c .value 1))
    (hright : right.doubles = Double.ofIntegers (i.integersAt c .value 2)) :
    Node.doublesAll ns = Double.ofIntegers (i.integersFrom c 0 [u, .value, .value]) := by
  rw [Instruction.integersFrom_pair hu, Double.ofIntegers_append, hns, hleft, hright]

/-- Nodes with the literals of one value, which stands behind other operands. -/
theorem doubles_last {ns : List Node} {e : Expr} (us : List Use) (hus : ∀ u ∈ us, u ≠ .value)
    (hns : Node.doublesAll ns = e.doubles)
    (he : e.doubles = Double.ofIntegers (i.integersAt c .value (0 + us.length))) :
    Node.doublesAll ns = Double.ofIntegers (i.integersFrom c 0 (us ++ [.value])) := by
  rw [Instruction.integersFrom_last hus, hns, he]

/-- The literals of an instruction are the numbers nearest to its integers. -/
theorem opcode_doubles (hc : c.Integral) {op : Opcode} (hi : i.Readable op) :
    Outcome (fun ns => Node.doublesAll ns = Double.ofIntegers (i.integersFrom c 0 op.uses))
      (fun _ => True) (opcode c i op) := by
  have hoperand (n : Nat) (hn : op.uses[n]? = some .value) := operand_doubles hc (n := n)
    fun o ho => by
      obtain ⟨o', ho', hrole⟩ := hi n _ hn
      rw [ho] at ho'
      rwa [Option.some.inj ho']
  have hname := name_doubles c i.address
  cases op
  case add | sub | mul | div | mod | pow | addBK | subBK | mulBK | divBK | modBK | powBK |
      eq | lt | le | eqBK | ltBK | leBK | setTable | setTableS | setTableN | setTableBK |
      setTableSBK | setTableNBK =>
    exact (hoperand 1 rfl).bind fun left hleft => (hoperand 2 rfl).bind fun right hright =>
      Outcome.pure (doubles_pair (by decide) (by simp [assign]) hleft hright)
  case loadK =>
    exact (hoperand 1 rfl).bind fun k hk =>
      Outcome.pure (doubles_last [.register] (by decide) (by simp [assign]) hk)
  case getTable | getTableS | getTableN | self =>
    exact (hoperand 2 rfl).bind fun key hkey =>
      Outcome.pure (doubles_last [.register, .register] (by decide) (by simp [assign]) hkey)
  case setField | setFieldR1 =>
    exact (hname _).bind fun key hkey => (hoperand 2 rfl).bind fun value hvalue =>
      Outcome.pure (doubles_last [.register, .name] (by decide) (by simp [assign, hkey]) hvalue)
  all_goals rw [Instruction.integersFrom_of_ne (by decide)]
  case getGlobal | getGlobalMem | setGlobal | getField | getFieldR1 | getFieldMM =>
    exact (hname _).bind fun key hkey => Outcome.pure (by simp [assign, hkey])
  case loadBool =>
    refine Outcome.pure ?_
    split <;> simp [assign]
  case ret =>
    rw [opcode]
    split
    · exact Outcome.pure rfl
    · exact Outcome.pure (by simp)
  case loadNil =>
    have hnils (count : Nat) : Expr.doublesAll (List.replicate count (.nil i.address)) = [] :=
      Expr.doublesAll_eq_nil fun e he => by rw [List.eq_of_mem_replicate he]; rfl
    exact Outcome.pure (by simp [loadNil, hnils])
  all_goals exact Outcome.pure (by simp [assign, upvalue])

theorem instruction_doubles (hc : c.Integral) (hi : i.Decoded) :
    Outcome (fun ns => Node.doublesAll ns = Double.ofIntegers (i.integers c)) (fun _ => True)
      (instruction c i) := by
  obtain ⟨op, hop⟩ := hi.opcode
  have hopcode := opcode_doubles hc (hi.readable hop)
  rw [instruction, hop, Instruction.integers_eq hop]
  dsimp only
  cases hns : opcode c i op with
  | ok ns =>
    rw [hns] at hopcode
    exact hopcode
  | error cause => trivial

/-- The literals of instructions are the numbers nearest to their integers, one after the other. -/
theorem instructions_doubles (hc : c.Integral) {is : List Instruction} (his : ∀ i ∈ is, i.Decoded) :
    Outcome (fun ns => Node.doublesAll ns = Double.ofIntegers (is.flatMap (·.integers c)))
      (fun _ => True) (instructions c is) := by
  induction is with
  | nil => exact Outcome.pure rfl
  | cons i is ih =>
    rw [List.forall_mem_cons] at his
    refine (instruction_doubles hc his.1).bind fun ns hns => (ih his.2).bind fun rest hrest =>
      Outcome.pure ?_
    rw [Node.doublesAll_append, hns, hrest, List.flatMap_cons, Double.ofIntegers_append]

end Lower

theorem Code.lower_doubles {c : Code} {d : Declaration} (hc : c.Integral) (hdecoded : c.Decoded)
    (h : c.lower = .ok d) : Node.doublesAll d.body = Double.ofIntegers c.integers := by
  have hflat := Lower.instructions_outcome c c.instructions.items
  have hliterals := Lower.instructions_doubles hc hdecoded.instructions
  unfold Code.lower at h
  cases hbody : Lower.instructions c c.instructions.items with
  | error e =>
    rw [hbody] at h
    cases h
  | ok body =>
    rw [hbody] at h hflat hliterals
    cases h
    refine (Node.doublesAll_renumberAll (fun n hn => ?_) _).trans hliterals
    obtain ⟨_, -, _, -, hmade⟩ := hflat n hn
    exact hmade.flat

/-- If the header declares integers, all numbers are integers. -/
theorem ChunkFile.decode_integral {data : Bytes} {f : ChunkFile} {p : Prototype}
    (h : decode data = .ok f) (hintegers : f.header.integers) (hp : p ∈ f.walk) :
    p.toCode.Integral :=
  fun k hk htag => ((decode_constants h hp k hk).number htag).mpr hintegers

/-! ## Literals in the source and in a listing -/

section

variable {v w : Int64}

theorem natAbs_toInt_le (v : Int64) : v.toInt.natAbs ≤ 2 ^ 63 := by
  have hlow := v.le_toInt
  have hhigh := v.toInt_lt
  omega

theorem source_integer_iff (a b : Int) :
    (Expr.number a (.ofInt v.toInt)).source = (Expr.number b (.ofInt w.toInt)).source ↔
      Double.ofInt v.toInt = .ofInt w.toInt :=
  Decimal.ofDouble_inj (Double.ofInt_finite (natAbs_toInt_le v))
    (Double.ofInt_finite (natAbs_toInt_le w))

theorem ofInt_inj_of_exact (hv : Double.Exact v.toInt) (hw : Double.Exact w.toInt) :
    Double.ofInt v.toInt = .ofInt w.toInt ↔ v = w := by
  refine ⟨fun h => ?_, fun h => by rw [h]⟩
  have hdenotes := (Double.ofInt_denotes_iff (natAbs_toInt_le v)).mpr hv
  rw [h] at hdenotes
  have hvalue := hdenotes.unique ((Double.ofInt_denotes_iff (natAbs_toInt_le w)).mpr hw)
  exact Int64.toInt_inj.mp (by exact_mod_cast hvalue)

theorem text_integer_iff :
    (⟨.number, .signed v⟩ : Constant).text = (⟨.number, .signed w⟩ : Constant).text ↔ v = w := by
  refine ⟨fun h => ?_, fun h => by rw [h]⟩
  have hread := congrArg Numeral.readInt (show Numeral.int v.toInt = Numeral.int w.toInt from h)
  rw [Numeral.readInt_int, Numeral.readInt_int] at hread
  exact Int64.toInt_inj.mp hread

end

/-- In a file with integers, the literals of a lowered function are the numbers nearest to the integers
that its instructions use. Such a number is the integer itself exactly if it fits 53 bits. Two integers
are written alike in the source exactly if they have the same nearest number, so that two that fit are
told apart; a listing tells all of them apart. -/
theorem lower_literals {data : Bytes} {f : ChunkFile} {p : Prototype} {d : Declaration}
    (h : ChunkFile.decode data = .ok f) (hintegers : f.header.integers) (hp : p ∈ f.walk)
    (hd : p.lower = .ok d) :
    Node.doublesAll d.body = Double.ofIntegers p.integers ∧
    (∀ v ∈ p.integers, (Double.ofInt v.toInt).Denotes v.toInt ↔ Double.Exact v.toInt) ∧
    ∀ v ∈ p.integers, ∀ w ∈ p.integers, ∀ a b,
      ((Expr.number a (.ofInt v.toInt)).source = (Expr.number b (.ofInt w.toInt)).source ↔
        Double.ofInt v.toInt = .ofInt w.toInt) ∧
      (Double.Exact v.toInt → Double.Exact w.toInt →
        ((Expr.number a (.ofInt v.toInt)).source = (Expr.number b (.ofInt w.toInt)).source ↔
          v = w)) ∧
      ((⟨.number, .signed v⟩ : Constant).text = (⟨.number, .signed w⟩ : Constant).text ↔ v = w) := by
  have hintegral := ChunkFile.decode_integral h hintegers hp
  have hdecoded := (ChunkFile.decode_codes h).2 p hp
  refine ⟨Code.lower_doubles hintegral hdecoded hd,
    fun v _ => Double.ofInt_denotes_iff (natAbs_toInt_le v), fun v _ w _ a b => ?_⟩
  have hsource := source_integer_iff (v := v) (w := w) a b
  exact ⟨hsource, fun hv hw => hsource.trans (ofInt_inj_of_exact hv hw), text_integer_iff⟩

/-- A function that loads the first two integers with the same nearest number. -/
def Assembly.neighbours : Assembly where
  header := { Header.standard with numberType := 1 }
  root := some ⟨⟨0, 0, 0, 2, [Word.ofABx 25 0 0, Word.ofABx 25 1 1, Word.ofABC 9 0 1 0],
    [⟨.number, .signed 9007199254740992⟩, ⟨.number, .signed 9007199254740993⟩], none⟩, []⟩

theorem decode_neighbours : ∃ f p d, ChunkFile.decode Assembly.neighbours.bytes = .ok f ∧
    f.header.integers ∧ p ∈ f.walk ∧ p.lower = .ok d ∧
    p.integers = [9007199254740992, 9007199254740993] := by
  have hrun : (ChunkFile.decode Assembly.neighbours.bytes).toOption.any fun f =>
      f.header.integers && f.walk.any fun p =>
        p.integers = [9007199254740992, 9007199254740993] && p.lower.toOption.any fun _ => true := by
    decide +kernel
  obtain ⟨f, hf, hrun⟩ := exists_ok_of_any hrun
  obtain ⟨hintegers, hrun⟩ := (Bool.and_eq_true _ _).mp hrun
  obtain ⟨p, hp, hrun⟩ := List.any_eq_true.mp hrun
  obtain ⟨hused, hrun⟩ := (Bool.and_eq_true _ _).mp hrun
  obtain ⟨d, hd, -⟩ := exists_ok_of_any hrun
  exact ⟨f, p, d, hf, hintegers, hp, hd, of_decide_eq_true hused⟩

theorem not_exact_neighbour : ¬ Double.Exact 9007199254740993 := by
  rintro ⟨m, k, hm, hless⟩
  have hm : 9007199254740993 = m * 2 ^ k := hm
  cases k with
  | zero => omega
  | succ k =>
    rw [Nat.pow_succ, ← Nat.mul_assoc] at hm
    omega

theorem lower_literals_neighbours : ∃ f p d,
    ChunkFile.decode Assembly.neighbours.bytes = .ok f ∧ p ∈ f.walk ∧ p.lower = .ok d ∧
    p.integers = [9007199254740992, 9007199254740993] ∧
    Node.doublesAll d.body = Double.ofIntegers p.integers ∧
    (Double.ofInt (9007199254740992 : Int64).toInt).Denotes (9007199254740992 : Int64).toInt ∧
    ¬ (Double.ofInt (9007199254740993 : Int64).toInt).Denotes (9007199254740993 : Int64).toInt := by
  obtain ⟨f, p, d, hf, hintegers, hp, hd, hused⟩ := decode_neighbours
  obtain ⟨hliterals, hdenotes, -⟩ := lower_literals hf hintegers hp hd
  have hfirst := hdenotes 9007199254740992 (by simp [hused])
  have hsecond := hdenotes 9007199254740993 (by simp [hused])
  exact ⟨f, p, d, hf, hp, hd, hused, hliterals, hfirst.mpr (Double.exact_of_le (by decide)),
    (not_congr hsecond).mpr not_exact_neighbour⟩

/-- The two integers are written alike in the source and apart in a listing, so a literal does not always
denote the integer that an instruction uses, nor tell it from others. -/
theorem sourceText_neighbours :
    sourceText ⟨false, false, []⟩ false Assembly.neighbours.bytes = .ok (utf8
      ("function ()\n    R0 = 9.007199254740992e+15\n" ++
        "    R1 = 9.007199254740992e+15\n    return\nend\n")) ∧
    (⟨.number, .signed 9007199254740992⟩ : Constant).text = utf8 "9007199254740992" ∧
    (⟨.number, .signed 9007199254740993⟩ : Constant).text = utf8 "9007199254740993" ∧
    (¬ ∀ (data : Bytes) (f : ChunkFile) (p : Prototype) (d : Declaration),
      ChunkFile.decode data = .ok f → f.header.integers → p ∈ f.walk → p.lower = .ok d →
        List.Forall₂ (fun (v : Int64) (x : Double) => x.Denotes v.toInt) p.integers
          (Node.doublesAll d.body)) ∧
    ¬ ∀ (data : Bytes) (f : ChunkFile) (p : Prototype) (d : Declaration),
      ChunkFile.decode data = .ok f → f.header.integers → p ∈ f.walk → p.lower = .ok d →
        ∀ v ∈ p.integers, ∀ w ∈ p.integers, v ≠ w → ∀ a b,
          (Expr.number a (.ofInt v.toInt)).source ≠ (Expr.number b (.ofInt w.toInt)).source := by
  have hnearest : Double.ofInt (9007199254740992 : Int64).toInt =
      .ofInt (9007199254740993 : Int64).toInt := by decide +kernel
  obtain ⟨f, p, d, hf, hintegers, hp, hd, hused⟩ := decode_neighbours
  have hliterals := Code.lower_doubles (ChunkFile.decode_integral hf hintegers hp)
    ((ChunkFile.decode_codes hf).2 p hp) hd
  refine ⟨?_, by decide +kernel, by decide +kernel, fun hdenote => ?_, fun hapart => ?_⟩
  · have htext : (match sourceText ⟨false, false, []⟩ false Assembly.neighbours.bytes with
        | .ok t => some t
        | .error _ => none) = some (utf8 ("function ()\n    R0 = 9.007199254740992e+15\n" ++
          "    R1 = 9.007199254740992e+15\n    return\nend\n")) := by
      decide +kernel
    split at htext
    · next h => rw [h, Option.some.inj htext]
    · cases htext
  · have hall := hdenote _ f p d hf hintegers hp hd
    rw [hliterals, hused] at hall
    obtain _ | ⟨hfirst, _ | ⟨hsecond, -⟩⟩ := hall
    dsimp only at hfirst hsecond
    rw [hnearest] at hfirst
    have hsame : (9007199254740992 : Int64).toInt = (9007199254740993 : Int64).toInt := by
      exact_mod_cast hfirst.unique hsecond
    exact absurd hsame (by decide)
  · refine hapart _ f p d hf hintegers hp hd 9007199254740992 (by simp [hused]) 9007199254740993
      (by simp [hused]) (by decide) 0 0 ?_
    rw [hnearest]

end HavokScript
