import HavokScript.Proofs.Decompile.Independence

/-!
# How keys are written

The key of an access comes into the tree in two ways. Instructions that access a field by its name give
an identifier, and those that access a table by a register or constant give the literal of a string
constant. The two are written apart: a string literal stands behind a dot if it is a name (`isName_iff`)
and else quoted in brackets, but an identifier always stands behind the dot. So the two kinds of
instructions are written alike exactly for names (`Lower.text_access_iff`); a keyword shows the
difference (`sourceText_keywordKeys`).
-/

namespace HavokScript

/-! ## Names -/

/-- The characters that a name starts with. -/
def nameLetters : Bytes := utf8 "ABCDEFGHIJKLMNOPQRSTUVWXYZ_abcdefghijklmnopqrstuvwxyz"

/-- The further characters that stand in a name. -/
def nameDigits : Bytes := utf8 "0123456789"

/-- A word of letters and digits that starts with a letter, and is no keyword. -/
structure IsName (s : Bytes) : Prop where
  word : ∃ b bs, s = b :: bs ∧ b ∈ nameLetters ∧ bs ⊆ nameLetters ++ nameDigits
  notKeyword : s ∉ keywords

theorem nameLetters_eq : nameLetters = (List.range' 65 26).map Nat.toUInt8 ++
    (95 :: (List.range' 97 26).map Nat.toUInt8) := by
  decide +kernel

theorem nameDigits_eq : nameDigits = (List.range' 48 10).map Nat.toUInt8 := by
  decide +kernel

/-- The bytes with consecutive codes. -/
theorem mem_range_toUInt8 {first count : Nat} (h : first + count ≤ 256) {b : UInt8} :
    b ∈ (List.range' first count).map Nat.toUInt8 ↔
      first ≤ b.toNat ∧ b.toNat < first + count := by
  rw [List.mem_map]
  constructor
  · rintro ⟨n, hn, rfl⟩
    rw [List.mem_range'_1] at hn
    have htoNat : n.toUInt8.toNat = n := by simp; omega
    rwa [htoNat]
  · exact fun hb => ⟨b.toNat, List.mem_range'_1.mpr hb, by simp⟩

theorem isNameStart_iff (b : UInt8) : isNameStart b = true ↔ b ∈ nameLetters := by
  rw [nameLetters_eq, List.mem_append, List.mem_cons, mem_range_toUInt8 (by decide),
    mem_range_toUInt8 (by decide)]
  simp only [isNameStart, Bool.or_eq_true, Bool.and_eq_true, decide_eq_true_eq,
    UInt8.le_iff_toNat_le, ← UInt8.toNat_inj, UInt8.reduceToNat]
  omega

theorem isNamePart_iff (b : UInt8) : isNamePart b = true ↔ b ∈ nameLetters ++ nameDigits := by
  rw [isNamePart, Bool.or_eq_true, List.mem_append, isNameStart_iff, nameDigits_eq,
    mem_range_toUInt8 (by decide)]
  refine or_congr_right ?_
  simp only [Bool.and_eq_true, decide_eq_true_eq, UInt8.le_iff_toNat_le, UInt8.reduceToNat]
  omega

/-- The check for names finds the names. -/
theorem isName_iff (s : Bytes) : isName s = true ↔ IsName s := by
  cases s with
  | nil => exact ⟨nofun, fun ⟨⟨_, _, h, _⟩, _⟩ => nomatch h⟩
  | cons b bs =>
    have hrest : bs.all isNamePart = true ↔ bs ⊆ nameLetters ++ nameDigits := by
      rw [List.all_eq_true]
      exact forall₂_congr fun c _ => isNamePart_iff c
    rw [isName, Bool.and_eq_true, Bool.and_eq_true, isNameStart_iff, hrest, Bool.not_eq_true',
      ← Bool.not_eq_true, List.contains_iff_mem]
    constructor
    · rintro ⟨⟨hb, hbs⟩, hkeyword⟩
      exact ⟨⟨b, bs, rfl, hb, hbs⟩, hkeyword⟩
    · rintro ⟨⟨_, _, heq, hb, hbs⟩, hkeyword⟩
      cases heq
      exact ⟨⟨hb, hbs⟩, hkeyword⟩

instance (s : Bytes) : Decidable (IsName s) := decidable_of_iff _ (isName_iff s)

/-- A key that is written so that it reads back: behind a dot if it is a name, and else quoted in
brackets. -/
def keyText (s : Bytes) : Bytes :=
  if IsName s then utf8 "." ++ s else utf8 "[" ++ Quoted.quote s ++ utf8 "]"

theorem dot_eq_keyText_iff (s : Bytes) : utf8 "." ++ s = keyText s ↔ IsName s := by
  unfold keyText
  split
  · next h => exact iff_of_true rfl h
  · next h =>
    refine iff_of_false (fun heq => ?_) h
    have hfirst : some (46 : UInt8) = some 91 := congrArg List.head? heq
    exact absurd hfirst (by decide)

theorem accessText_string (address : Int) (s text : Bytes) :
    accessText (.string address s) text = keyText s := by
  simp only [accessText, Expr.peel, isName_iff, keyText]

/-! ## Accesses -/

/-- The instruction has one of the opcodes, and loads into `R(a)` what `R(b)` has at a string constant. -/
structure Instruction.Gets (i : Instruction) (ops : List Opcode) (c : Code) (a b : Int)
    (s : Bytes) : Prop where
  opcode : ∃ op ∈ ops, Opcode.ofCode? i.op = some op
  key : ∃ x k, i.operands.items = [⟨.register, a⟩, ⟨.register, b⟩, ⟨.constant, x⟩] ∧
    c.constant? x = some k ∧ k.string? = some s

/-- The instruction has one of the opcodes, and puts the operand `o` into `R(a)` at a string constant. -/
structure Instruction.Sets (i : Instruction) (ops : List Opcode) (c : Code) (a : Int) (s : Bytes)
    (o : Operand) : Prop where
  opcode : ∃ op ∈ ops, Opcode.ofCode? i.op = some op
  key : ∃ x k, i.operands.items = [⟨.register, a⟩, ⟨.constant, x⟩, o] ∧
    c.constant? x = some k ∧ k.string? = some s

namespace Opcode

/-- The opcodes that load a field by its name. -/
def namedGets : List Opcode := [.getField, .getFieldR1, .getFieldMM]

/-- The opcodes that load an entry of a table. -/
def keyedGets : List Opcode := [.getTable, .getTableS, .getTableN]

/-- The opcodes that set a field by its name. -/
def namedSets : List Opcode := [.setField, .setFieldR1]

/-- The opcodes that set an entry of a table with a constant key. -/
def keyedSets : List Opcode := [.setTableBK, .setTableSBK, .setTableNBK]

end Opcode

/-- The source text of an operand, unless it is a constant without a literal. -/
def Operand.source (c : Code) (o : Operand) : Except DecompileCause Bytes :=
  if o.role = .register then .ok (Lower.reg 0 o.value).source
  else if o.role = .constant then (Lower.literal c 0 o.value).map Expr.source
  else .ok (Expr.source (.number 0 (.ofInt o.value)))

namespace Lower

/-- The text of the statements of an instruction, each on lines of its own. -/
def text (counts : Bool) (c : Code) (i : Instruction) : Except DecompileError Bytes :=
  (instruction c i).map (Node.fileSource counts)

/-- The text of an assignment to `R(a)` of what `R(b)` has at a key. -/
def getText (counts : Bool) (a b : Int) (key : Bytes) : Bytes :=
  targetSource counts (reg 0 a) ++ utf8 " = " ++ (reg 0 b).source ++ key ++ utf8 "\n"

/-- The text of an assignment to what `R(a)` has at a key. -/
def setText (a : Int) (key value : Bytes) : Bytes :=
  (reg 0 a).source ++ key ++ utf8 " = " ++ value ++ utf8 "\n"

section

variable {counts : Bool} {c : Code} {i j : Instruction} {a b x : Int} {s : Bytes} {k : Constant}
  {o : Operand}

theorem tag_of_string? (hk : k.string? = some s) : k.tag = .string := by
  unfold Constant.string? at hk
  split at hk
  · split at hk
    · assumption
    · cases hk
  · cases hk

/-- A string constant as a name. -/
theorem name_of_string? (address : Int) (hx : c.constant? x = some k) (hk : k.string? = some s) :
    name c address x = .ok (.identifier address s) := by
  simp only [name, constant, hx, bind, Except.bind, hk]
  rfl

/-- A string constant as a literal. -/
theorem literal_of_string? (address : Int) (hx : c.constant? x = some k)
    (hk : k.string? = some s) : literal c address x = .ok (.string address s) := by
  have htag := tag_of_string? hk
  simp only [literal, constant, hx, bind, Except.bind, htag, Constant.stringOrEmpty, hk]
  rfl

theorem assign_text (counts : Bool) (address : Int) (target value : Expr) :
    Node.fileSource counts [assign address target value] =
      targetSource counts target ++ utf8 " = " ++ value.source ++ utf8 "\n" := by
  have hone : assignText counts [target] [value] false =
      targetSource counts target ++ utf8 " = " ++ value.source := by
    rw [assignText, if_neg (by simp)]
    rfl
  show (assignText counts [target] [value] false ++ utf8 "\n") ++ [] = _
  rw [hone, List.append_nil]

theorem text_of_opcode {op : Opcode} (hop : Opcode.ofCode? i.op = some op) {target value : Expr}
    (hns : opcode c i op = .ok [assign i.address target value]) :
    text counts c i =
      .ok (targetSource counts target ++ utf8 " = " ++ value.source ++ utf8 "\n") := by
  rw [text, instruction, hop]
  dsimp only
  rw [hns, ← assign_text]
  rfl

/-- A field that is loaded by its name stands behind a dot. -/
theorem text_namedGet (h : i.Gets Opcode.namedGets c a b s) :
    text counts c i = .ok (getText counts a b (utf8 "." ++ s)) := by
  obtain ⟨⟨op, hmem, hop⟩, x, k, hoperands, hx, hk⟩ := h
  have hkey := name_of_string? i.address hx hk
  have hns : opcode c i op = .ok [assign i.address (reg i.address a)
      (.index i.address (reg i.address b) (.identifier i.address s))] := by
    simp only [Opcode.namedGets, List.mem_cons, List.not_mem_nil, or_false] at hmem
    rcases hmem with rfl | rfl | rfl <;>
      simp only [opcode, Instruction.argument, hoperands, List.getElem?_cons_succ,
        List.getElem?_cons_zero, hkey, bind, Except.bind, pure, Except.pure]
  rw [text_of_opcode hop hns, getText, List.append_assoc _ (reg 0 b).source]
  rfl

/-- An entry that is loaded by a string constant shows the key as the check for names says. -/
theorem text_keyedGet (h : i.Gets Opcode.keyedGets c a b s) :
    text counts c i = .ok (getText counts a b (keyText s)) := by
  obtain ⟨⟨op, hmem, hop⟩, x, k, hoperands, hx, hk⟩ := h
  have hkey : operand c i 2 = .ok (.string i.address s) := by
    rw [operand, hoperands]
    exact literal_of_string? i.address hx hk
  have hns : opcode c i op = .ok [assign i.address (reg i.address a)
      (.index i.address (reg i.address b) (.string i.address s))] := by
    simp only [Opcode.keyedGets, List.mem_cons, List.not_mem_nil, or_false] at hmem
    rcases hmem with rfl | rfl | rfl <;>
      simp only [opcode, Instruction.argument, hoperands, List.getElem?_cons_succ,
        List.getElem?_cons_zero, hkey, bind, Except.bind, pure, Except.pure]
  rw [text_of_opcode hop hns, getText, Expr.source, accessText_string,
    List.append_assoc _ (reg 0 b).source]
  rfl

/-- The text of a literal does not depend on the address of the instruction. -/
theorem literal_source (address x : Int) :
    (literal c address x).map Expr.source = (literal c 0 x).map Expr.source := by
  unfold literal
  cases constant c x with
  | error e => rfl
  | ok k =>
    simp only [bind, Except.bind]
    split_ifs <;> rfl

/-- An operand with a text can be used as a value, and is written so. -/
theorem operand_of_source {n : Nat} {t : Bytes} (hn : i.operands.items[n]? = some o)
    (ht : o.source c = .ok t) : ∃ e, operand c i n = .ok e ∧ e.source = t := by
  have hmap : (operand c i n).map Expr.source = o.source c := by
    rw [operand, hn, Operand.source]
    dsimp only
    split_ifs
    · rfl
    · exact literal_source _ _
    · rfl
  rw [ht] at hmap
  cases hoperand : operand c i n with
  | error e =>
    rw [hoperand] at hmap
    cases hmap
  | ok e =>
    rw [hoperand] at hmap
    exact ⟨e, rfl, Except.ok.inj hmap⟩

/-- A field that is set by its name stands behind a dot. -/
theorem text_namedSet (h : i.Sets Opcode.namedSets c a s o) {t : Bytes} (ht : o.source c = .ok t) :
    text counts c i = .ok (setText a (utf8 "." ++ s) t) := by
  obtain ⟨⟨op, hmem, hop⟩, x, k, hoperands, hx, hk⟩ := h
  have hkey := name_of_string? i.address hx hk
  obtain ⟨value, hvalue, rfl⟩ := operand_of_source (n := 2) (by rw [hoperands]; rfl) ht
  have hns : opcode c i op = .ok [assign i.address
      (.index i.address (reg i.address a) (.identifier i.address s)) value] := by
    simp only [Opcode.namedSets, List.mem_cons, List.not_mem_nil, or_false] at hmem
    rcases hmem with rfl | rfl <;>
      simp only [opcode, Instruction.argument, hoperands, List.getElem?_cons_succ,
        List.getElem?_cons_zero, hkey, hvalue, bind, Except.bind, pure, Except.pure]
  rw [text_of_opcode hop hns]
  rfl

/-- An entry that is set at a string constant shows the key as the check for names says. -/
theorem text_keyedSet (h : i.Sets Opcode.keyedSets c a s o) {t : Bytes} (ht : o.source c = .ok t) :
    text counts c i = .ok (setText a (keyText s) t) := by
  obtain ⟨⟨op, hmem, hop⟩, x, k, hoperands, hx, hk⟩ := h
  have hkey : operand c i 1 = .ok (.string i.address s) := by
    rw [operand, hoperands]
    exact literal_of_string? i.address hx hk
  obtain ⟨value, hvalue, rfl⟩ := operand_of_source (n := 2) (by rw [hoperands]; rfl) ht
  have hns : opcode c i op = .ok [assign i.address
      (.index i.address (reg i.address a) (.string i.address s)) value] := by
    simp only [Opcode.keyedSets, List.mem_cons, List.not_mem_nil, or_false] at hmem
    rcases hmem with rfl | rfl | rfl <;>
      simp only [opcode, Instruction.argument, hoperands, List.getElem?_cons_zero, hkey, hvalue,
        bind, Except.bind, pure, Except.pure]
  rw [text_of_opcode hop hns, targetSource, Expr.source, accessText_string]
  · rfl
  · intro r hregister
    cases hregister

theorem getText_inj {key key' : Bytes} :
    getText counts a b key = getText counts a b key' ↔ key = key' := by
  simp only [getText, List.append_assoc, List.append_cancel_left_eq, List.append_cancel_right_eq]

theorem setText_inj {key key' t : Bytes} : setText a key t = setText a key' t ↔ key = key' := by
  simp only [setText, List.append_assoc, List.append_cancel_left_eq, List.append_cancel_right_eq]

end

/-- Behind a dot a field that is accessed by its name is always written, and an entry with a constant
key exactly if the key is a name, else it is quoted in brackets. So the two instructions are written
alike exactly for names. -/
theorem text_access_iff (counts : Bool) (c : Code) (s : Bytes) :
    (∀ (i j : Instruction) (a b : Int),
      i.Gets Opcode.namedGets c a b s → j.Gets Opcode.keyedGets c a b s →
        text counts c i = .ok (getText counts a b (utf8 "." ++ s)) ∧
        text counts c j = .ok (getText counts a b (keyText s)) ∧
        (text counts c i = text counts c j ↔ IsName s)) ∧
    (∀ (i j : Instruction) (a : Int) (o : Operand) (t : Bytes),
      i.Sets Opcode.namedSets c a s o → j.Sets Opcode.keyedSets c a s o → o.source c = .ok t →
        text counts c i = .ok (setText a (utf8 "." ++ s) t) ∧
        text counts c j = .ok (setText a (keyText s) t) ∧
        (text counts c i = text counts c j ↔ IsName s)) := by
  refine ⟨fun i j a b hi hj => ?_, fun i j a o t hi hj ht => ?_⟩
  · refine ⟨text_namedGet hi, text_keyedGet hj, ?_⟩
    rw [text_namedGet hi, text_keyedGet hj, Except.ok.injEq, getText_inj, dot_eq_keyText_iff]
  · refine ⟨text_namedSet hi ht, text_keyedSet hj ht, ?_⟩
    rw [text_namedSet hi ht, text_keyedSet hj ht, Except.ok.injEq, setText_inj,
      dot_eq_keyText_iff]

end Lower

/-! ## A keyword as a key -/

/-- The constants `end` and `x_1`. -/
def Code.wordKeys : Code where
  address := 0
  upvalues := 0
  parameters := 0
  varargFlags := 0
  registers := 2
  instructions := none
  constants := some [⟨.string, .string (utf8 "end")⟩, ⟨.string, .string (utf8 "x_1")⟩]
  debug := none

theorem Instruction.namedGets_wordKeys : Instruction.Gets
    ⟨0, 0x00, Word.ofABC 0x00 0 1 0, some [⟨.register, 0⟩, ⟨.register, 1⟩, ⟨.constant, 0⟩]⟩
    Opcode.namedGets .wordKeys 0 1 (utf8 "end") :=
  ⟨⟨.getField, by decide, rfl⟩, 0, _, rfl, rfl, rfl⟩

theorem Instruction.keyedGets_wordKeys : Instruction.Gets
    ⟨0, 0x0C, Word.ofABC 0x0C 0 1 0x100, some [⟨.register, 0⟩, ⟨.register, 1⟩, ⟨.constant, 0⟩]⟩
    Opcode.keyedGets .wordKeys 0 1 (utf8 "end") :=
  ⟨⟨.getTable, by decide, rfl⟩, 0, _, rfl, rfl, rfl⟩

theorem Lower.text_access_iff_wordKeys :
    ∃ i j i' j', Instruction.decode 0 (Word.ofABC 0x00 0 1 0) = some i ∧
      Instruction.decode 0 (Word.ofABC 0x0C 0 1 0x100) = some j ∧
      Instruction.decode 0 (Word.ofABC 0x0F 1 1 0) = some i' ∧
      Instruction.decode 0 (Word.ofABC 0x15 1 1 0) = some j' ∧
      i.Gets Opcode.namedGets .wordKeys 0 1 (utf8 "end") ∧
      j.Gets Opcode.keyedGets .wordKeys 0 1 (utf8 "end") ∧
      i'.Sets Opcode.namedSets .wordKeys 1 (utf8 "x_1") ⟨.register, 0⟩ ∧
      j'.Sets Opcode.keyedSets .wordKeys 1 (utf8 "x_1") ⟨.register, 0⟩ ∧
      Operand.source .wordKeys ⟨.register, 0⟩ = .ok (utf8 "R0") ∧
      text true .wordKeys i ≠ text true .wordKeys j ∧
      text true .wordKeys i' = text true .wordKeys j' := by
  have hi := Instruction.namedGets_wordKeys
  have hj := Instruction.keyedGets_wordKeys
  have hi' : Instruction.Sets ⟨0, 0x0F, Word.ofABC 0x0F 1 1 0,
      some [⟨.register, 1⟩, ⟨.constant, 1⟩, ⟨.register, 0⟩]⟩ Opcode.namedSets .wordKeys 1
      (utf8 "x_1") ⟨.register, 0⟩ := ⟨⟨.setField, by decide, rfl⟩, 1, _, rfl, rfl, rfl⟩
  have hj' : Instruction.Sets ⟨0, 0x15, Word.ofABC 0x15 1 1 0,
      some [⟨.register, 1⟩, ⟨.constant, 1⟩, ⟨.register, 0⟩]⟩ Opcode.keyedSets .wordKeys 1
      (utf8 "x_1") ⟨.register, 0⟩ := ⟨⟨.setTableBK, by decide, rfl⟩, 1, _, rfl, rfl, rfl⟩
  have hvalue : Operand.source .wordKeys ⟨.register, 0⟩ = .ok (utf8 "R0") := rfl
  obtain ⟨-, -, hends⟩ := (text_access_iff true .wordKeys (utf8 "end")).1 _ _ 0 1 hi hj
  obtain ⟨-, -, hxs⟩ := (text_access_iff true .wordKeys (utf8 "x_1")).2 _ _ 1 _ _ hi' hj' hvalue
  exact ⟨_, _, _, _, rfl, rfl, rfl, rfl, hi, hj, hi', hj', hvalue,
    fun h => absurd (hends.mp h) (by decide +kernel), hxs.mpr (by decide +kernel)⟩

/-- The field `end` of `R1` loaded by its name and by a constant key, and set in both ways. -/
def Assembly.keywordKeys : Assembly where
  header := Header.standard
  root := some ⟨⟨0, 0, 0, 2, [Word.ofABC 0x00 0 1 0, Word.ofABC 0x0C 0 1 0x100,
    Word.ofABC 0x0F 1 0 0, Word.ofABC 0x15 1 0 0, Word.ofABC 0x09 0 1 0],
    [⟨.string, .string (utf8 "end")⟩], none⟩, []⟩

/-- A field that is called like a keyword is written in two ways, so accesses by name and by constant
key are not always written alike. -/
theorem sourceText_keywordKeys :
    sourceText ⟨false, false, []⟩ false Assembly.keywordKeys.bytes = .ok (utf8
      ("function ()\n    R0 = R1.end\n    R0 = R1[\"end\"]\n" ++
        "    R1.end = R0\n    R1[\"end\"] = R0\n    return\nend\n")) ∧
    ¬ ∀ (counts : Bool) (c : Code) (s : Bytes) (i j : Instruction) (a b : Int),
      i.Gets Opcode.namedGets c a b s → j.Gets Opcode.keyedGets c a b s →
        Lower.text counts c i = Lower.text counts c j := by
  refine ⟨?_, fun halike => ?_⟩
  · have htext : (match sourceText ⟨false, false, []⟩ false Assembly.keywordKeys.bytes with
        | .ok t => some t
        | .error _ => none) = some (utf8
          ("function ()\n    R0 = R1.end\n    R0 = R1[\"end\"]\n" ++
            "    R1.end = R0\n    R1[\"end\"] = R0\n    return\nend\n")) := by
      decide +kernel
    split at htext
    · next h => rw [h, Option.some.inj htext]
    · cases htext
  · have hi := Instruction.namedGets_wordKeys
    have hj := Instruction.keyedGets_wordKeys
    have hname := halike false .wordKeys _ _ _ 0 1 hi hj
    rw [Lower.text_namedGet hi, Lower.text_keyedGet hj, Except.ok.injEq, Lower.getText_inj,
      dot_eq_keyText_iff] at hname
    exact absurd hname (by decide +kernel)

end HavokScript
