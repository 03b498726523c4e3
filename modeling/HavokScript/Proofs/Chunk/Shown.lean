import HavokScript.Chunk.Listing
import HavokScript.Proofs.Chunk.Decoded
import HavokScript.Proofs.Chunk.RoundTrip
import HavokScript.Proofs.Text.Decimal
import HavokScript.Proofs.Text.Quoted

/-!
# Reading codes, constants and instructions off a listing

What a listing shows of a constant or an instruction can be read back. The name of a code in the
header determines the code, as codes without a name are shown with brackets
(`DistinctNames.injective`). Constants are told apart by how their text starts (`Tag.ofText`), and all
of them but numbers have a value that can be read off (`Payload.ofText`); the text of a number has few
characters (`Decimal.alphabet`), so it is none of the others. An instruction is its mnemonic up to the
first space, and operands with commas in between (`Operand.ofText`).

Only strings have spaces and quotes in their text, so the text of any constant is ended by a space
(`Constant.text_tells`).
-/

namespace HavokScript

namespace Listing

/-- The byte of a space. -/
def space : UInt8 := 32

/-- The byte of the end of a line. -/
def newline : UInt8 := 10

/-- The byte of a comma. -/
def comma : UInt8 := 44

/-- The byte of an opening bracket. -/
def bracket : UInt8 := 40

end Listing

open Listing

/-! ## Names of codes -/

theorem mem_lowerCase {b : UInt8} (hb : b < 65) {s : Bytes} : b ∈ lowerCase s ↔ b ∈ s := by
  constructor
  · intro hmem
    obtain ⟨c, hc, rfl⟩ := List.mem_map.mp hmem
    split at hb
    · rename_i hcapital
      rw [UInt8.le_iff_toNat_le, UInt8.le_iff_toNat_le] at hcapital
      rw [UInt8.lt_iff_toNat_lt, UInt8.toNat_add] at hb
      simp only [UInt8.reduceToNat] at hcapital hb
      omega
    · rename_i hsmall
      rwa [if_neg hsmall]
  · intro hmem
    have hsmall : ¬ (65 ≤ b ∧ b ≤ 90) := fun h => absurd hb (UInt8.not_lt.mpr h.1)
    exact List.mem_map.mpr ⟨b, hmem, if_neg hsmall⟩

theorem lowerCase_nat (n : Nat) : lowerCase (Numeral.nat n) = Numeral.nat n := by
  refine (List.map_congr_left fun b hb => ?_).trans (List.map_id _)
  have hdigit := Numeral.isDigit_nat n b hb
  simp only [Numeral.isDigit, Bool.and_eq_true, decide_eq_true_eq] at hdigit
  exact if_neg fun hcapital => absurd (UInt8.le_trans hcapital.1 hdigit.2) (by decide)

/-- The names of codes, all in one line, are different even in small letters. -/
structure DistinctNames (kind : String) (names : List (UInt8 × String)) : Prop where
  kind_line : newline ∉ utf8 kind
  line : ∀ m ∈ names, newline ∉ utf8 m.2
  plain : ∀ m ∈ names, bracket ∉ utf8 m.2
  distinct : ∀ m ∈ names, ∀ n ∈ names, lowerCase (utf8 m.2) = lowerCase (utf8 n.2) → m.1 = n.1

namespace DistinctNames

theorem formats : DistinctNames "Format" [(13, "V13"), (14, "V14")] :=
  ⟨by decide, by decide, by decide, by decide⟩

theorem numberTypes : DistinctNames "NumberType" [(0, "FLOAT"), (1, "INT")] :=
  ⟨by decide, by decide, by decide, by decide⟩

theorem sharingModes : DistinctNames "SharingMode" [(0, "OFF"), (1, "ON"), (2, "SECURE")] :=
  ⟨by decide, by decide, by decide, by decide⟩

variable {kind : String} {names : List (UInt8 × String)} {code code' : UInt8}

theorem mem_of_lookup {n : String} (h : names.lookup code = some n) : (code, n) ∈ names := by
  obtain ⟨front, back, rfl, -⟩ := List.lookup_eq_some_iff.mp h
  exact List.mem_append_right _ List.mem_cons_self

theorem codeName_of_none (h : names.lookup code = none) :
    codeName kind names code = utf8 kind ++ utf8 "(" ++ Numeral.nat code.toNat ++ utf8 ")" := by
  rw [codeName, h]

theorem codeName_of_some {n : String} (h : names.lookup code = some n) :
    codeName kind names code = utf8 n := by
  rw [codeName, h]

theorem codeName_line (hnames : DistinctNames kind names) (code : UInt8) :
    newline ∉ codeName kind names code := by
  cases hcode : names.lookup code with
  | some n =>
    rw [codeName_of_some hcode]
    exact hnames.line _ (mem_of_lookup hcode)
  | none =>
    rw [codeName_of_none hcode]
    simp only [List.mem_append, not_or]
    exact ⟨⟨⟨hnames.kind_line, by decide⟩, Decimal.notMem_nat (by decide) _⟩, by decide⟩

/-- Exactly the codes without a name are shown with brackets. -/
theorem bracket_mem (hnames : DistinctNames kind names) :
    bracket ∈ lowerCase (codeName kind names code) ↔ names.lookup code = none := by
  rw [mem_lowerCase (by decide)]
  cases hcode : names.lookup code with
  | some n =>
    rw [codeName_of_some hcode]
    exact iff_of_false (hnames.plain _ (mem_of_lookup hcode)) nofun
  | none =>
    rw [codeName_of_none hcode]
    refine iff_of_true ?_ rfl
    simp [show utf8 "(" = [bracket] from rfl]

/-- The name of a code determines it. -/
theorem injective (hnames : DistinctNames kind names)
    (h : lowerCase (codeName kind names code) = lowerCase (codeName kind names code')) :
    code = code' := by
  have hnone : names.lookup code = none ↔ names.lookup code' = none := by
    rw [← hnames.bracket_mem, h, hnames.bracket_mem]
  cases hcode : names.lookup code with
  | some m =>
    obtain ⟨n, hcode'⟩ := Option.ne_none_iff_exists'.mp (mt hnone.mpr (hcode ▸ nofun))
    rw [codeName_of_some hcode, codeName_of_some hcode'] at h
    exact hnames.distinct _ (mem_of_lookup hcode) _ (mem_of_lookup hcode') h
  | none =>
    rw [codeName_of_none hcode, codeName_of_none (hnone.mp hcode)] at h
    have hnumeral : lowerCase (Numeral.nat code.toNat) = lowerCase (Numeral.nat code'.toNat) := by
      simp only [lowerCase, List.map_append] at h
      exact List.append_cancel_left (List.append_cancel_right h)
    rw [lowerCase_nat, lowerCase_nat] at hnumeral
    exact UInt8.toNat_inj.mp (Numeral.nat_injective hnumeral)

end DistinctNames

/-! ## Constants -/

/-- Constants that a listing shows alike: of numbers it only shows the text. -/
structure Constant.Resembles (c d : Constant) : Prop where
  tag : c.tag = d.tag
  payload : c.tag ≠ .number → c.payload = d.payload
  number : c.tag = .number → c.payload.text = d.payload.text

/-- The tag of the constant that a listing shows as the text. -/
def Tag.ofText (text : Bytes) : Tag :=
  if text.head? = some Quoted.quoteMark then .string
  else if utf8 "TL" <+: text then .lightUserdata
  else if utf8 "TU" <+: text then .ui64
  else if text = utf8 "nil" then .nil
  else if text = utf8 "true" ∨ text = utf8 "false" then .boolean
  else .number

/-- The payload of the constant with this tag that a listing shows as the text, numbers aside. -/
def Payload.ofText (tag : Tag) (text : Bytes) : Payload :=
  if tag = .nil then .nil
  else if tag = .boolean then .bool (text = utf8 "true")
  else if tag = .string then .string (((Quoted.unquote text).map Prod.fst).getD [])
  else .unsigned (Numeral.ofDigits 10 (text.drop (tag.name.length + 1)).dropLast).toUInt64

namespace Constant

theorem text_lightUserdata (n : UInt64) : text ⟨.lightUserdata, .unsigned n⟩ =
    utf8 "TL" ++ (utf8 "IGHTUSERDATA(" ++ Numeral.nat n.toNat ++ utf8 ")") := rfl

theorem text_ui64 (n : UInt64) : text ⟨.ui64, .unsigned n⟩ =
    utf8 "TU" ++ (utf8 "I64(" ++ Numeral.nat n.toNat ++ utf8 ")") := rfl

theorem text_number_subset {c : Constant} (hc : c.Supported) (htag : c.tag = .number) :
    c.text ⊆ Decimal.alphabet := by
  cases hc with
  | integer i => exact Decimal.int_subset i.toInt
  | float x => exact Decimal.ofDouble_subset x
  | _ => cases htag

end Constant

/-- A text of the characters of numbers is not taken for any other constant. -/
theorem Tag.ofText_of_subset {text : Bytes} (h : text ⊆ Decimal.alphabet) :
    ofText text = .number := by
  have hquote : text.head? ≠ some Quoted.quoteMark := fun hhead =>
    absurd (h (List.mem_of_head? hhead)) (by decide)
  have hcapital {s : Bytes} (hs : 84 ∈ s) : ¬ s <+: text := fun hstart =>
    absurd (h (hstart.subset hs)) (by decide)
  have hword {s : Bytes} (hs : ¬ s ⊆ Decimal.alphabet) : text ≠ s := fun htext => hs (htext ▸ h)
  rw [ofText, if_neg hquote, if_neg (hcapital (by decide)), if_neg (hcapital (by decide)),
    if_neg (hword (by decide)), if_neg (not_or.mpr ⟨hword (by decide), hword (by decide)⟩)]

namespace Constant

theorem ofText_text {c : Constant} (hc : c.Supported) : Tag.ofText c.text = c.tag := by
  by_cases hnumber : c.tag = .number
  · rw [hnumber, Tag.ofText_of_subset (text_number_subset hc hnumber)]
  · cases hc with
    | nil => decide
    | boolean b => cases b <;> decide
    | string s =>
      show Tag.ofText (Quoted.quote s) = .string
      exact if_pos rfl
    | lightUserdata n =>
      rw [text_lightUserdata, Tag.ofText, if_neg (by nofun), if_pos (List.prefix_append _ _)]
    | ui64 n =>
      rw [text_ui64, Tag.ofText, if_neg (by nofun), if_neg (by nofun),
        if_pos (List.prefix_append _ _)]
    | integer | float => exact absurd rfl hnumber

theorem payload_ofText {c : Constant} (hc : c.Supported) (hnumber : c.tag ≠ .number) :
    Payload.ofText c.tag c.text = c.payload := by
  have hnat (n : UInt64) : Payload.unsigned
      (Numeral.ofDigits 10 (Numeral.nat n.toNat ++ utf8 ")").dropLast).toUInt64 = .unsigned n := by
    rw [show utf8 ")" = [41] from rfl, List.dropLast_concat, Numeral.ofDigits_nat, Nat.toUInt64,
      UInt64.ofNat_toNat]
  cases hc with
  | nil => rfl
  | boolean b => cases b <;> rfl
  | string s =>
    have hread := Quoted.unquote_quote s []
    rw [List.append_nil] at hread
    show Payload.string (((Quoted.unquote (Quoted.quote s)).map Prod.fst).getD []) = .string s
    rw [hread]
    rfl
  | lightUserdata n | ui64 n => exact hnat n
  | integer | float => exact absurd rfl hnumber

/-- Equal texts are of constants that resemble each other. -/
theorem resembles_of_text {c d : Constant} (hc : c.Supported) (hd : d.Supported)
    (h : c.text = d.text) : c.Resembles d := by
  have htag : c.tag = d.tag := by rw [← ofText_text hc, h, ofText_text hd]
  refine ⟨htag, fun hnumber => ?_, fun hnumber => ?_⟩
  · rw [← payload_ofText hc hnumber, htag, h, payload_ofText hd (htag ▸ hnumber)]
  · have hplain {k : Constant} (hk : k.tag = .number) : k.text = k.payload.text := by
      unfold text
      rw [hk]
      rfl
    rw [← hplain hnumber, h, hplain (htag ▸ hnumber)]

/-- The characters of constants that are not strings. -/
def alphabet : Bytes := Decimal.alphabet ++ utf8 "()ADEGHILRSTU46ilrstu"

theorem text_subset {c : Constant} (hc : c.Supported) (hstring : c.tag ≠ .string) :
    c.text ⊆ alphabet := by
  have hnumber {s : Bytes} (hs : s ⊆ Decimal.alphabet) : s ⊆ alphabet :=
    List.subset_append_of_subset_left _ hs
  cases hc with
  | nil => decide
  | boolean b => cases b <;> decide
  | string s => exact absurd rfl hstring
  | integer i => exact hnumber (Decimal.int_subset i.toInt)
  | float x => exact hnumber (Decimal.ofDouble_subset x)
  | lightUserdata n | ui64 n =>
    simp only [text_lightUserdata, text_ui64, List.append_subset]
    exact ⟨by decide, ⟨by decide, hnumber (Decimal.nat_subset _)⟩, by decide⟩

/-- Exactly the texts of strings start with a quote. -/
theorem head?_text {c : Constant} (hc : c.Supported) (rest : Bytes) :
    (c.text ++ space :: rest).head? = some Quoted.quoteMark ↔ c.tag = .string := by
  constructor
  · intro hhead
    by_contra hstring
    have hsubset := text_subset hc hstring
    cases htext : c.text with
    | nil =>
      rw [htext] at hhead
      cases hhead
    | cons b bs =>
      rw [htext] at hhead hsubset
      cases hhead
      exact absurd (hsubset List.mem_cons_self) (by decide)
  · intro hstring
    cases hc with
    | string s => rfl
    | _ => cases hstring

theorem text_of_string {c : Constant} (hstring : c.tag = .string) :
    c.text = Quoted.quote c.stringOrEmpty := by
  unfold text
  rw [hstring]
  rfl

/-- A space ends the text of a constant. -/
theorem text_tells {c d : Constant} (hc : c.Supported) (hd : d.Supported) :
    Tells (c.text ++ [space]) (d.text ++ [space]) (c.Resembles d) := by
  suffices h : Tells (c.text ++ [space]) (d.text ++ [space]) (c.text = d.text) from
    h.imp (resembles_of_text hc hd)
  intro x y hxy
  have hkind : c.tag = .string ↔ d.tag = .string := by
    rw [List.append_assoc, List.append_assoc] at hxy
    rw [← head?_text hc x, ← head?_text hd y]
    exact iff_of_eq (congrArg (·.head? = some Quoted.quoteMark) hxy)
  by_cases hstring : c.tag = .string
  · have hquote : Tells c.text d.text (c.text = d.text) := by
      rw [text_of_string hstring, text_of_string (hkind.mp hstring)]
      exact (Quoted.quote_tells _ _).imp (congrArg _)
    exact hquote.append_literal [space] hxy
  · have hspace {k : Constant} (hk : k.Supported) (hstring : k.tag ≠ .string) : space ∉ k.text :=
      fun hmem => absurd (text_subset hk hstring hmem) (by decide)
    exact Tells.of_stop (hspace hc hstring) (hspace hd (mt hkind.mpr hstring)) hxy

end Constant

/-! ## Operands -/

/-- An operand that a word can have. -/
def Operand.Known (o : Operand) : Prop :=
  o.role = .number ∨ o.role = .register ∨ o.role = .constant

namespace Operand

/-- The operand that a listing shows as the text. -/
def ofText (text : Bytes) : Operand :=
  if text.head? = some 82 then ⟨.register, Numeral.readInt (text.drop 2).dropLast⟩
  else if text.head? = some 75 then ⟨.constant, Numeral.readInt (text.drop 2).dropLast⟩
  else ⟨.number, Numeral.readInt text⟩

theorem ofText_text {o : Operand} (ho : o.Known) : ofText o.text = o := by
  have hint (i : Int) : Numeral.readInt (Numeral.int i ++ utf8 ")").dropLast = i := by
    rw [show utf8 ")" = [41] from rfl, List.dropLast_concat, Numeral.readInt_int]
  obtain ⟨role, value⟩ := o
  rcases ho with h | h | h
  · cases h
    have hhead {b : UInt8} (hb : b ∉ Decimal.alphabet) : (Numeral.int value).head? ≠ some b :=
      fun hhead => hb (Decimal.int_subset value (List.mem_of_head? hhead))
    show ofText (Numeral.int value) = _
    rw [ofText, if_neg (hhead (by decide)), if_neg (hhead (by decide)), Numeral.readInt_int]
    rfl
  · cases h
    exact congrArg (Operand.mk .register) (hint value)
  · cases h
    exact congrArg (Operand.mk .constant) (hint value)

theorem known_ofField (argument : Argument) (x : Nat) : ∀ o ∈ ofField argument x, o.Known := by
  cases argument with
  | unused => exact List.forall_mem_nil _
  | number | offset => exact List.forall_mem_singleton.mpr (.inl rfl)
  | register => exact List.forall_mem_singleton.mpr (.inr (.inl rfl))
  | constant => exact List.forall_mem_singleton.mpr (.inr (.inr rfl))
  | registerOrConstant =>
    rw [ofField, List.forall_mem_singleton, ofRegisterOrConstant]
    split
    · exact .inr (.inr rfl)
    · exact .inr (.inl rfl)

/-- The characters of operands. -/
def alphabet : Bytes := Decimal.alphabet ++ utf8 "()RK"

theorem text_subset (o : Operand) : o.text ⊆ alphabet := by
  have hint : Numeral.int o.value ⊆ alphabet :=
    List.subset_append_of_subset_left _ (Decimal.int_subset o.value)
  unfold text
  split_ifs
  · exact List.append_subset.mpr ⟨List.append_subset.mpr ⟨by decide, hint⟩, by decide⟩
  · exact List.append_subset.mpr ⟨List.append_subset.mpr ⟨by decide, hint⟩, by decide⟩
  · exact hint

end Operand

/-! ## Instructions -/

/-- Instructions that a listing shows alike. -/
structure Instruction.Resembles (i j : Instruction) : Prop where
  op : i.op = j.op
  operands : i.operands.items = j.operands.items

namespace Opcode

theorem nodup_mnemonics : (all.map fun op => utf8 op.mnemonic).Nodup := by
  decide +kernel

theorem name_of_ofCode? {code : UInt8} {op : Opcode} (h : ofCode? code = some op) :
    name code = utf8 op.mnemonic := by
  rw [name, h]

theorem name_injective {a b : UInt8} (ha : ∃ op, ofCode? a = some op)
    (hb : ∃ op, ofCode? b = some op) (h : name a = name b) : a = b := by
  have hname {code : UInt8} (hcode : ∃ op, ofCode? code = some op) :
      (all.map fun op => utf8 op.mnemonic)[code.toNat]? = some (name code) := by
    obtain ⟨op, hop⟩ := hcode
    rw [List.getElem?_map, name_of_ofCode? hop, show all[code.toNat]? = some op from hop,
      Option.map_some]
  have hplace : (all.map fun op => utf8 op.mnemonic)[a.toNat]? =
      (all.map fun op => utf8 op.mnemonic)[b.toNat]? := by
    rw [hname ha, hname hb, h]
  have hlt := (List.getElem?_eq_some_iff.mp (hname ha)).1
  exact UInt8.toNat_inj.mp ((List.getElem?_inj hlt nodup_mnemonics).mp hplace)

theorem mnemonic_plain (op : Opcode) : space ∉ utf8 op.mnemonic ∧ newline ∉ utf8 op.mnemonic := by
  cases op <;> decide

end Opcode

namespace Instruction

theorem known_operandsOf (layout : Layout) (w : Word) : ∀ o ∈ operandsOf layout w, o.Known := by
  cases layout with
  | abc a b c =>
    rw [operandsOf, List.forall_mem_append, List.forall_mem_append]
    exact ⟨⟨Operand.known_ofField a _, Operand.known_ofField b _⟩, Operand.known_ofField c _⟩
  | abx a b =>
    rw [operandsOf, List.forall_mem_append]
    exact ⟨Operand.known_ofField a _, Operand.known_ofField b _⟩
  | asbx a =>
    rw [operandsOf, List.forall_mem_append, List.forall_mem_singleton]
    exact ⟨Operand.known_ofField a _, .inl rfl⟩

/-- The opcode of a decoded instruction is known, and so are its operands. -/
theorem Decoded.known {i : Instruction} (hi : i.Decoded) :
    (∃ op, Opcode.ofCode? i.op = some op) ∧ ∀ o ∈ i.operands.items, o.Known := by
  obtain ⟨address, hdecode⟩ := hi
  obtain ⟨op, hop, hi⟩ := Option.map_eq_some_iff.mp hdecode
  rw [← hi]
  refine ⟨⟨op, hop⟩, ?_⟩
  rw [Section.items_ofItems]
  exact known_operandsOf op.layout i.raw

/-- What stands behind the mnemonic. -/
def operandsText : List Operand → Bytes
  | [] => []
  | os => utf8 " " ++ Bytes.join (utf8 ", ") (os.map Operand.text)

theorem text_eq (i : Instruction) : i.text = Opcode.name i.op ++ operandsText i.operands.items := by
  unfold text
  cases i.operands.items with
  | nil => exact (List.append_nil _).symm
  | cons o os => exact List.append_assoc _ _ _

theorem operandsText_injective {os ps : List Operand} (ho : ∀ o ∈ os, o.Known)
    (hp : ∀ p ∈ ps, p.Known) (h : operandsText os = operandsText ps) : os = ps := by
  have hcomma (os : List Operand) : ∀ s ∈ os.map Operand.text, comma ∉ s :=
    List.forall_mem_map.mpr fun o _ hmem => absurd (o.text_subset hmem) (by decide)
  have hread {os : List Operand} (ho : ∀ o ∈ os, o.Known) :
      (os.map Operand.text).map Operand.ofText = os := by
    rw [List.map_map]
    exact (List.map_congr_left fun o h => Operand.ofText_text (ho o h)).trans (List.map_id os)
  cases os with
  | nil =>
    cases ps with
    | nil => rfl
    | cons p ps => cases h
  | cons o os =>
    cases ps with
    | nil => cases h
    | cons p ps =>
      have htexts : (o :: os).map Operand.text = (p :: ps).map Operand.text :=
        Bytes.join_injective (List.cons_ne_nil _ _) (List.cons_ne_nil _ _) (hcomma _) (hcomma _)
          (List.append_cancel_left h)
      rw [← hread ho, htexts, hread hp]

/-- The mnemonic ends at the first space. -/
theorem takeWhile_text {i : Instruction} (hop : ∃ op, Opcode.ofCode? i.op = some op) :
    i.text.takeWhile (· ≠ space) = Opcode.name i.op := by
  obtain ⟨op, hop⟩ := hop
  have hplain : ∀ b ∈ Opcode.name i.op, decide (b ≠ space) := by
    rw [Opcode.name_of_ofCode? hop]
    intro b hb
    exact decide_eq_true fun hspace => op.mnemonic_plain.1 (hspace ▸ hb)
  have hrest : (operandsText i.operands.items).takeWhile (· ≠ space) = [] := by
    cases i.operands.items <;> rfl
  rw [text_eq, List.takeWhile_append_of_pos hplain, hrest, List.append_nil]

theorem resembles_of_text {i j : Instruction} (hi : i.Decoded) (hj : j.Decoded)
    (h : i.text = j.text) : i.Resembles j := by
  obtain ⟨hop, hoperands⟩ := hi.known
  obtain ⟨hop', hoperands'⟩ := hj.known
  have hname : Opcode.name i.op = Opcode.name j.op := by
    rw [← takeWhile_text hop, h, takeWhile_text hop']
  rw [text_eq, text_eq, hname] at h
  exact ⟨Opcode.name_injective hop hop' hname,
    operandsText_injective hoperands hoperands' (List.append_cancel_left h)⟩

/-- A line break ends the text of a decoded instruction. -/
theorem text_tells {i j : Instruction} (hi : i.Decoded) (hj : j.Decoded) :
    Tells (i.text ++ [newline]) (j.text ++ [newline]) (i.Resembles j) := by
  have hline {k : Instruction} (hk : k.Decoded) : newline ∉ k.text := by
    obtain ⟨op, hop⟩ := hk.known.1
    rw [text_eq, List.mem_append, not_or, Opcode.name_of_ofCode? hop]
    refine ⟨op.mnemonic_plain.2, ?_⟩
    cases k.operands.items with
    | nil => exact List.not_mem_nil
    | cons o os =>
      have hjoin : newline ∉ Bytes.join (utf8 ", ") ((o :: os).map Operand.text) :=
        Bytes.notMem_join (by decide) (List.forall_mem_map.mpr fun o _ hmem =>
          absurd (o.text_subset hmem) (by decide))
      exact fun hmem => hjoin ((List.mem_cons.mp hmem).resolve_left (by decide))
  exact (Tells.of_stop (hline hi) (hline hj)).imp (resembles_of_text hi hj)

end Instruction

end HavokScript
