import HavokScript.Instruction
import Mathlib.Data.List.Basic
import Mathlib.Data.List.Forall2

/-!
# What operands show of a word

The mode of an opcode divides a word into the fields A, B and C, or A and a wide one
(`Layout.fields`), and the table of opcodes leaves some of them unused. A word of a known opcode has
one operand for every other field, in the order of the fields, and the operand shows the field
(`operandsOf_shown`): where a register or a constant may stand, the highest bit of the field is in the
role. So the used fields can be read off the operands, and words with one opcode have the same operands
exactly if they have the same used fields (`decode_lossless`).

Only a field of nine bits may hold a register or a constant. In a wider one the role would not tell
the bits above the ninth.
-/

namespace HavokScript

/-- A field of instruction words. -/
structure Field where
  /-- what the field means -/
  argument : Argument
  /-- the least value it can have -/
  least : Int
  /-- the greatest value it can have -/
  greatest : Int
  /-- its value in a word -/
  value : Word → Int

namespace Layout

/-- The fields of a word from the lowest operand on: A, B and C, or A and Bx, or A and the branch
offset. -/
def fields : Layout → List Field
  | abc a b c =>
    [⟨a, 0, 0xFF, fun w => w.a⟩, ⟨b, 0, 0xFF, fun w => w.b⟩, ⟨c, 0, 0x1FF, fun w => w.c⟩]
  | abx a b => [⟨a, 0, 0xFF, fun w => w.a⟩, ⟨b, 0, 0x1FFFF, fun w => w.bx⟩]
  | asbx a => [⟨a, 0, 0xFF, fun w => w.a⟩, ⟨.offset, -0xFFFF, 0x10000, Word.sbx⟩]

/-- The fields that are not left unused. -/
def usedFields (layout : Layout) : List Field :=
  layout.fields.filter fun f => f.argument ≠ .unused

theorem value_range {layout : Layout} {f : Field} (hf : f ∈ layout.fields) (w : Word) :
    f.least ≤ f.value w ∧ f.value w ≤ f.greatest := by
  have ha : w.a ≤ 0xFF := by unfold Word.a; omega
  have hb : w.b ≤ 0xFF := by unfold Word.b; omega
  have hc : w.c ≤ 0x1FF := by unfold Word.c; omega
  have hbx : w.bx ≤ 0x1FFFF := by unfold Word.bx; omega
  have hsbx : w.sbx = w.bx - 0xFFFF := rfl
  cases layout <;> simp only [fields, List.mem_cons, List.not_mem_nil, or_false] at hf
  · rcases hf with rfl | rfl | rfl <;> constructor <;> dsimp only <;> omega
  · rcases hf with rfl | rfl <;> constructor <;> dsimp only <;> omega
  · rcases hf with rfl | rfl <;> constructor <;> dsimp only <;> omega

/-- Only a branch offset can be negative. -/
theorem least_eq {layout : Layout} {f : Field} (hf : f ∈ layout.fields)
    (hoffset : f.argument ≠ .offset) : f.least = 0 := by
  cases layout <;> simp only [fields, List.mem_cons, List.not_mem_nil, or_false] at hf
  · rcases hf with rfl | rfl | rfl <;> rfl
  · rcases hf with rfl | rfl <;> rfl
  · rcases hf with rfl | rfl
    · rfl
    · exact absurd rfl hoffset

end Layout

namespace Field

/-- The operand shows the field of a word: its role is the meaning of the field, and its value is that
of the field. Where a register or a constant may stand, a constant has a value from 256 on. -/
inductive Shown (f : Field) (w : Word) : Operand → Prop
  | number (meaning : f.argument = .number ∨ f.argument = .offset) : Shown f w ⟨.number, f.value w⟩
  | register (meaning : f.argument = .register) : Shown f w ⟨.register, f.value w⟩
  | constant (meaning : f.argument = .constant) : Shown f w ⟨.constant, f.value w⟩
  | eitherRegister (meaning : f.argument = .registerOrConstant) (low : f.value w < 256) :
      Shown f w ⟨.register, f.value w⟩
  | eitherConstant (meaning : f.argument = .registerOrConstant) (high : 256 ≤ f.value w) :
      Shown f w ⟨.constant, f.value w - 256⟩

/-- The value of the operand is one that the field can have: registers and constants are not negative,
and where both may stand they are below 256. -/
structure Bounds (f : Field) (o : Operand) : Prop where
  range : f.least ≤ o.value ∧ o.value ≤ f.greatest
  named : o.role = .register ∨ o.role = .constant → 0 ≤ o.value
  either : f.argument = .registerOrConstant →
    (o.role = .register ∨ o.role = .constant) ∧ o.value < 256

/-- The value of the field that an operand shows. -/
def read (f : Field) (o : Operand) : Int :=
  if f.argument = .registerOrConstant ∧ o.role = .constant then o.value + 256 else o.value

variable {f : Field} {w w' : Word} {o o' : Operand}

theorem Shown.read (h : f.Shown w o) : f.read o = f.value w := by
  unfold Field.read
  cases h with
  | number meaning => exact if_neg fun either => absurd either.2 (by decide : Role.number ≠ .constant)
  | register meaning => exact if_neg fun either => absurd (meaning.symm.trans either.1) (by decide)
  | constant meaning => exact if_neg fun either => absurd (meaning.symm.trans either.1) (by decide)
  | eitherRegister meaning low =>
    exact if_neg fun either => absurd either.2 (by decide : Role.register ≠ .constant)
  | eitherConstant meaning high =>
    rw [if_pos ⟨meaning, rfl⟩]
    dsimp only
    omega

/-- Nothing else decides on the operand. -/
theorem Shown.unique (h : f.Shown w o) (h' : f.Shown w' o') (hvalue : f.value w = f.value w') :
    o = o' := by
  cases h <;> cases h' <;> simp_all <;> omega

/-- An operand that shows a field is within its bounds, if a register or a constant only stands where
there are nine bits. -/
theorem Shown.bounds {layout : Layout} (h : f.Shown w o) (hf : f ∈ layout.fields)
    (hnine : f.argument = .registerOrConstant → f.greatest ≤ 0x1FF) : f.Bounds o := by
  have hrange := Layout.value_range hf w
  have hleast := Layout.least_eq hf
  cases h with
  | number meaning =>
    exact ⟨hrange, fun named => absurd named (by simp [Role.number, Role.register, Role.constant]),
      fun either => by simp_all⟩
  | register meaning | constant meaning =>
    rw [hleast (by simp [meaning])] at hrange
    refine ⟨⟨?_, hrange.2⟩, fun _ => hrange.1, fun either => by simp_all⟩
    rw [hleast (by simp [meaning])]
    exact hrange.1
  | eitherRegister meaning low =>
    have hzero := hleast (by simp [meaning])
    exact ⟨hrange, fun _ => by dsimp only; omega, fun _ => ⟨.inl rfl, low⟩⟩
  | eitherConstant meaning high =>
    have hzero := hleast (by simp [meaning])
    have hgreatest := hnine meaning
    exact ⟨⟨by dsimp only; omega, by dsimp only; omega⟩, fun _ => by dsimp only; omega,
      fun _ => ⟨.inr rfl, by dsimp only; omega⟩⟩

/-- What words have in their used fields can be read off the operands. -/
theorem values_of_shown {fs : List Field} {os : List Operand}
    (h : List.Forall₂ (fun f o => f.Shown w o) fs os)
    (h' : List.Forall₂ (fun f o => f.Shown w' o) fs os) : ∀ f ∈ fs, f.value w = f.value w' := by
  induction h with
  | nil => exact List.forall_mem_nil _
  | cons hhead _ ih =>
    cases h' with
    | cons hhead' htail' =>
      exact List.forall_mem_cons.mpr ⟨hhead.read.symm.trans hhead'.read, ih htail'⟩

/-- Nothing else is in the operands. -/
theorem operands_of_values {fs : List Field} {os os' : List Operand}
    (h : List.Forall₂ (fun f o => f.Shown w o) fs os)
    (h' : List.Forall₂ (fun f o => f.Shown w' o) fs os')
    (hvalues : ∀ f ∈ fs, f.value w = f.value w') : os = os' := by
  induction h generalizing os' with
  | nil =>
    cases h'
    rfl
  | cons hhead _ ih =>
    cases h' with
    | cons hhead' htail' =>
      rw [List.forall_mem_cons] at hvalues
      rw [hhead.unique hhead' hvalues.1, ih htail' hvalues.2]

end Field

/-! ## One operand for each used field -/

/-- The operand of a field, if there is one, shows the field. -/
theorem Operand.ofField_shown {f : Field} {w : Word} {x : Nat} (hx : f.value w = x)
    (hnine : f.argument = .registerOrConstant → x ≤ 0x1FF) :
    List.Forall₂ (fun f o => f.Shown w o) ([f].filter fun f => f.argument ≠ .unused)
      (Operand.ofField f.argument x) := by
  obtain ⟨argument, least, greatest, value⟩ := f
  dsimp only at hx hnine ⊢
  cases argument with
  | unused => exact .nil
  | number => exact .cons (hx ▸ .number (.inl rfl)) .nil
  | offset => exact .cons (hx ▸ .number (.inr rfl)) .nil
  | register => exact .cons (hx ▸ .register rfl) .nil
  | constant => exact .cons (hx ▸ .constant rfl) .nil
  | registerOrConstant =>
    refine .cons ?_ .nil
    rw [Operand.ofRegisterOrConstant]
    split_ifs with hhigh
    · -- nine bits without the highest one
      have hrest : (x : Int) % 256 = value w - 256 := by
        have := hnine rfl
        omega
      rw [hrest]
      exact .eitherConstant rfl (by dsimp only; omega)
    · rw [← hx]
      exact .eitherRegister rfl (by dsimp only; omega)

namespace Instruction

variable {layout : Layout}

/-- A word has one operand for each used field, in the order of the fields. -/
theorem operandsOf_shown (hnine : ∀ f ∈ layout.fields,
    f.argument = .registerOrConstant → f.greatest ≤ 0x1FF) (w : Word) :
    List.Forall₂ (fun f o => f.Shown w o) layout.usedFields (operandsOf layout w) := by
  have hfield {f : Field} {x : Nat} (hf : f ∈ layout.fields) (hx : f.value w = x) :
      List.Forall₂ (fun f o => f.Shown w o) ([f].filter fun f => f.argument ≠ .unused)
        (Operand.ofField f.argument x) := by
    refine Operand.ofField_shown hx fun either => ?_
    have hgreatest := (Layout.value_range hf w).2
    have := hnine f hf either
    omega
  unfold Layout.usedFields
  cases layout with
  | abc a b c =>
    change List.Forall₂ _ (List.filter _ ([_] ++ [_] ++ [_])) _
    rw [List.filter_append, List.filter_append]
    exact List.rel_append (List.rel_append (hfield (by simp [Layout.fields]) rfl)
      (hfield (by simp [Layout.fields]) rfl)) (hfield (by simp [Layout.fields]) rfl)
  | abx a b =>
    change List.Forall₂ _ (List.filter _ ([_] ++ [_])) _
    rw [List.filter_append]
    exact List.rel_append (hfield (by simp [Layout.fields]) rfl)
      (hfield (by simp [Layout.fields]) rfl)
  | asbx a =>
    change List.Forall₂ _ (List.filter _ ([_] ++ [_])) _
    rw [List.filter_append]
    exact List.rel_append (hfield (by simp [Layout.fields]) rfl)
      (.cons (.number (.inr rfl)) .nil)

theorem fields_nine (op : Opcode) : ∀ f ∈ op.layout.fields,
    f.argument = .registerOrConstant → f.greatest ≤ 0x1FF := by
  cases op <;> decide

/-- A word of a known opcode is decoded to operands that show its used fields, one for each of them in
the order of the fields, and within the bounds of the field. Words with the same known opcode have the
same operands exactly if they agree on every field that the opcode does not leave unused. -/
theorem decode_lossless (address address' : Int) {w w' : Word} {op : Opcode}
    (hop : Opcode.ofCode? w.op = some op) (hsame : w'.op = w.op) :
    ∃ i i', decode address w = some i ∧ decode address' w' = some i' ∧
      List.Forall₂ (fun f o => f.Shown w o ∧ f.Bounds o) op.layout.usedFields i.operands.items ∧
      (i.operands.items = i'.operands.items ↔
        ∀ f ∈ op.layout.usedFields, f.value w = f.value w') := by
  have hdecode (address : Int) {w : Word} (hop : Opcode.ofCode? w.op = some op) :
      ∃ i, decode address w = some i ∧ i.operands.items = operandsOf op.layout w :=
    ⟨_, by rw [decode, hop, Option.map_some], Section.items_ofItems _⟩
  obtain ⟨i, hi, hitems⟩ := hdecode address hop
  obtain ⟨i', hi', hitems'⟩ := hdecode address' (hsame ▸ hop)
  have hshown := operandsOf_shown (fields_nine op) w
  have hshown' := operandsOf_shown (fields_nine op) w'
  refine ⟨i, i', hi, hi', ?_, ?_⟩
  · rw [hitems]
    refine List.forall₂_iff_get.mpr ⟨hshown.length_eq, fun n hn hn' => ?_⟩
    have hone := (List.forall₂_iff_get.mp hshown).2 n hn hn'
    have hmem := (List.mem_filter.mp (List.get_mem op.layout.usedFields ⟨n, hn⟩)).1
    exact ⟨hone, hone.bounds hmem (fields_nine op _ hmem)⟩
  · rw [hitems, hitems']
    constructor
    · intro hoperands
      exact Field.values_of_shown hshown (hoperands ▸ hshown')
    · exact Field.operands_of_values hshown hshown'

/-- Two words that read a table, at the key in a register and at the constant with the same index: only
the role of the last operand tells them apart. -/
theorem decode_lossless_tableReads :
    Opcode.ofCode? (Word.ofABC 12 1 2 3).op = some .getTable ∧
    (Word.ofABC 12 1 2 (256 + 3)).op = (Word.ofABC 12 1 2 3).op ∧
    ∃ i i', decode 0 (Word.ofABC 12 1 2 3) = some i ∧
      decode 4 (Word.ofABC 12 1 2 (256 + 3)) = some i' ∧
      List.Forall₂ (fun f o => f.Shown (Word.ofABC 12 1 2 3) o ∧ f.Bounds o)
        Opcode.getTable.layout.usedFields i.operands.items ∧
      i.operands.items ≠ i'.operands.items := by
  have hop : Opcode.ofCode? (Word.ofABC 12 1 2 3).op = some .getTable := by decide
  have hsame : (Word.ofABC 12 1 2 (256 + 3)).op = (Word.ofABC 12 1 2 3).op := by decide
  obtain ⟨i, i', hi, hi', hshown, hsameOperands⟩ := decode_lossless 0 4 hop hsame
  refine ⟨hop, hsame, i, i', hi, hi', hshown, fun hoperands => ?_⟩
  have hkeys : ((Word.ofABC 12 1 2 3).c : Int) = (Word.ofABC 12 1 2 (256 + 3)).c :=
    hsameOperands.mp hoperands ⟨.registerOrConstant, 0, 0x1FF, fun w => w.c⟩
      (.tail _ (.tail _ (.head _)))
  exact absurd hkeys (by decide)

end Instruction

end HavokScript
