import HavokScript.Cbor.Model
import HavokScript.Proofs.Cbor.Reading

/-!
# Records as items

An item that was made of a part of a chunk file is read as that part again. Two things are not told
by an item. A text that is not UTF-8 cannot be read at all, and a signed integer that is not
negative is read as an unsigned one (`Payload.loosened`).
-/

namespace HavokScript

/-- The integer is a signed integer of 64 bits. -/
def Fits64 (i : Int) : Prop := -0x8000000000000000 ≤ i ∧ i < 0x8000000000000000

namespace Cbor.Item

/-! ## Numbers and texts -/

theorem toNat_toUInt64 {n : Nat} (hn : n < 2 ^ 64) : n.toUInt64.toNat = n :=
  UInt64.toNat_ofNat_of_lt' hn

theorem unsigned?_of_integer? {i : Item} {n bound : Nat} (hi : i.integer? = some (n : Int))
    (hn : n ≤ bound) : i.unsigned? bound = some n := by
  have hrange : (0 : Int) ≤ n ∧ (n : Int) ≤ bound := by omega
  rw [unsigned?, hi]
  exact if_pos hrange

@[simp] theorem byte?_ofByte (b : UInt8) : (ofByte b).byte? = some b := by
  have hlt := b.toNat_lt
  have hi : (ofByte b).integer? = some (b.toNat : Int) := by
    show some ((b.toNat.toUInt64.toNat : Nat) : Int) = _
    rw [toNat_toUInt64 (by omega)]
  rw [byte?, unsigned?_of_integer? hi (by omega), Option.map_some]
  exact congrArg some UInt8.ofNat_toNat

@[simp] theorem word?_ofWord (w : UInt32) : (ofWord w).word? = some w := by
  have hlt := w.toNat_lt
  have hi : (ofWord w).integer? = some (w.toNat : Int) := by
    show some ((w.toNat.toUInt64.toNat : Nat) : Int) = _
    rw [toNat_toUInt64 (by omega)]
  rw [word?, unsigned?_of_integer? hi (by omega), Option.map_some]
  exact congrArg some UInt32.ofNat_toNat

theorem int?_ofInt {i : Int} (hi : Fits64 i) : (ofInt i).int? = some i := by
  obtain ⟨hlow, hhigh⟩ := hi
  have hinteger : (ofInt i).integer? = some i := by
    cases i with
    | ofNat n =>
      rw [Int.ofNat_eq_natCast] at hhigh
      show some ((n.toUInt64.toNat : Nat) : Int) = some (n : Int)
      rw [toNat_toUInt64 (by omega)]
    | negSucc n =>
      rw [Int.negSucc_eq] at hlow ⊢
      show some (-1 - (n.toUInt64.toNat : Int)) = _
      rw [toNat_toUInt64 (by omega)]
      congr 1
      omega
  rw [int?, hinteger]
  exact if_pos ⟨hlow, hhigh⟩

theorem text?_text (s : Bytes) : (text [s]).text? = if Utf8.isValid s then some s else none := by
  simp [text?, untagged?, textOf?]

/-! ## Records -/

/-- The entries of a record whose first field has the number `k`. -/
def entriesFrom : Nat → List (Option Item) → List (Item × Item)
  | _, [] => []
  | k, none :: fields => entriesFrom (k + 1) fields
  | k, some i :: fields => (unsigned k.toUInt64, i) :: entriesFrom (k + 1) fields

/-- The fields of a record by their keys. -/
def numberedFrom : Nat → List (Option Item) → Fields
  | _, [] => []
  | k, none :: fields => numberedFrom (k + 1) fields
  | k, some i :: fields => (.number k, i) :: numberedFrom (k + 1) fields

theorem record_eq (fields : List (Option Item)) : record fields = map (entriesFrom 1 fields) := by
  have hentries : ∀ k, ((fields.zipIdx k).filterMap fun f => f.1.map fun i =>
      (unsigned f.2.toUInt64, i)) = entriesFrom k fields := by
    induction fields with
    | nil => intro k; rfl
    | cons field fields ih =>
      intro k
      cases field with
      | none => simpa [entriesFrom] using ih (k + 1)
      | some i => simpa [entriesFrom] using ih (k + 1)
  rw [record, hentries 1]

theorem quieted_record (fields : List (Option Item)) :
    (record fields).quieted = record (fields.map (Option.map quieted)) := by
  have hentries : ∀ k, quietedEntries (entriesFrom k fields) =
      entriesFrom k (fields.map (Option.map quieted)) := by
    induction fields with
    | nil => intro k; rfl
    | cons field fields ih =>
      intro k
      cases field with
      | none => exact ih (k + 1)
      | some i => simp [entriesFrom, quietedEntries, quieted, ih]
  rw [record_eq, quieted, hentries, record_eq]

theorem plain_record (fields : List (Option Item)) :
    (record fields).plain = fields.all fun field => field.all plain := by
  have hentries : ∀ k, plainEntries (entriesFrom k fields) =
      fields.all fun field => field.all plain := by
    induction fields with
    | nil => intro k; rfl
    | cons field fields ih =>
      intro k
      cases field with
      | none => simpa [entriesFrom] using ih (k + 1)
      | some i => simp [entriesFrom, plainEntries, plain, ih]
  rw [record_eq, plain, hentries]

/-- The fields of a record are one level below it. -/
theorem within_record {fields : List (Option Item)} {levels : Nat}
    (h : (record fields).within levels) :
    ∃ lower, levels = lower + 1 ∧ ∀ i, some i ∈ fields → i.within lower := by
  have hentries : ∀ k lower, withinEntries (entriesFrom k fields) lower →
      ∀ i, some i ∈ fields → i.within lower := by
    clear h
    induction fields with
    | nil => simp
    | cons field fields ih =>
      intro k lower hwithin i hi
      rw [List.mem_cons] at hi
      cases field with
      | none => exact ih (k + 1) lower hwithin i (hi.resolve_left (by simp))
      | some j =>
        rw [entriesFrom, withinEntries, Bool.and_eq_true, Bool.and_eq_true] at hwithin
        rcases hi with hi | hi
        · cases hi
          exact hwithin.1.2
        · exact ih (k + 1) lower hwithin.2 i hi
  rw [record_eq] at h
  cases levels with
  | zero => cases h
  | succ lower =>
    rw [within, Bool.and_eq_true] at h
    exact ⟨lower, rfl, hentries 1 lower h.2⟩

theorem key?_unsigned {k : Nat} (hk : k < 2 ^ 63) :
    key? (unsigned k.toUInt64) = some (.number k) := by
  have hwrap : wrap64 k = k := by
    rw [wrap64, Int.bmod_def]
    omega
  rw [key?, toNat_toUInt64 (by omega), hwrap]

theorem fields?_record {fields : List (Option Item)} (hlength : fields.length < 2 ^ 62) :
    (record fields).fields? = some (numberedFrom 1 fields) := by
  have hentries : ∀ k, k + fields.length < 2 ^ 63 →
      (entriesFrom k fields).mapM (fun e => (key? e.1).map fun key => (key, e.2)) =
        some (numberedFrom k fields) := by
    clear hlength
    induction fields with
    | nil => intro k _; rfl
    | cons field fields ih =>
      intro k hk
      rw [List.length_cons] at hk
      have hrest := ih (k + 1) (by omega)
      cases field with
      | none => exact hrest
      | some i =>
        have hkey := key?_unsigned (show k < 2 ^ 63 by omega)
        simp [entriesFrom, numberedFrom, List.mapM_cons, hkey, hrest]
  rw [record_eq]
  exact hentries 1 (by omega)

theorem get_numberedFrom_of_lt {fields : List (Option Item)} {k n : Nat} (hn : n < k) :
    (numberedFrom k fields).get n = null := by
  induction fields generalizing k with
  | nil => rfl
  | cons field fields ih =>
    cases field with
    | none => exact ih (by omega)
    | some i =>
      have hkey : (Key.number k).isFor n = false := by
        simp [Key.isFor]
        omega
      have hrest := ih (show n < k + 1 by omega)
      simpa [Fields.get, numberedFrom, hkey] using hrest

theorem get_numberedFrom {fields : List (Option Item)} {k n : Nat} (hn : k ≤ n) :
    (numberedFrom k fields).get n = (fields[n - k]?.join).getD null := by
  induction fields generalizing k with
  | nil => rfl
  | cons field fields ih =>
    by_cases heq : n = k
    · subst heq
      rw [Nat.sub_self, List.getElem?_cons_zero]
      cases field with
      | none =>
        rw [numberedFrom]
        exact get_numberedFrom_of_lt (Nat.lt_succ_self n)
      | some i => simp [Fields.get, numberedFrom, Key.isFor]
    · have hrest := ih (show k + 1 ≤ n by omega)
      rw [show n - k = n - (k + 1) + 1 by omega, List.getElem?_cons_succ, ← hrest]
      cases field with
      | none => rfl
      | some i =>
        have hkey : (Key.number k).isFor n = false := by
          simp [Key.isFor]
          omega
        simp [Fields.get, numberedFrom, hkey]

/-! ## Sections -/

theorem quietedAll_eq (is : List Item) : quietedAll is = is.map quieted := by
  induction is with
  | nil => rfl
  | cons i is ih => rw [quietedAll, ih, List.map_cons]

theorem plainAll_iff {is : List Item} : plainAll is ↔ ∀ i ∈ is, i.plain := by
  induction is with
  | nil => simp [plainAll]
  | cons i is ih => simp [plainAll, ih]

theorem quieted_ofSection {α : Type} {write : α → Item} (g : α → α) {s : Section α}
    (h : ∀ x ∈ s.items, (write x).quieted = write (g x)) :
    (ofSection write s).quieted = ofSection write (s.map (List.map g)) := by
  cases s with
  | none => rfl
  | some xs =>
    show array (quietedAll (xs.map write)) = array ((xs.map g).map write)
    rw [quietedAll_eq, List.map_map, List.map_map]
    exact congrArg array (List.map_congr_left h)

theorem plain_ofSection {α : Type} {write : α → Item} {s : Section α}
    (h : ∀ x ∈ s.items, (write x).plain) : (ofSection write s).plain := by
  cases s with
  | none => rfl
  | some xs =>
    rw [ofSection, plain, plainAll_iff]
    intro i hi
    obtain ⟨x, hx, rfl⟩ := List.mem_map.mp hi
    exact h x hx

/-- Items that are all read, or of which one cannot be read. -/
theorem mapM_map {α : Type} {write : α → Item} {read : Item → Option α} {valid : α → Bool}
    {g : α → α} {xs : List α}
    (h : ∀ x ∈ xs, read (write x) = if valid x then some (g x) else none) :
    (xs.map write).mapM read = if xs.all valid then some (xs.map g) else none := by
  induction xs with
  | nil => rfl
  | cons x xs ih =>
    rw [List.forall_mem_cons] at h
    rw [List.map_cons, List.mapM_cons, h.1, ih h.2, List.all_cons]
    cases valid x <;> cases xs.all valid <;> rfl

theorem list?_array {α : Type} (read : Item → Option α) (items : List Item) :
    (array items).list? read = (items.mapM read).map some := rfl

theorem list?_ofSection {α : Type} {write : α → Item} {read : Item → Option α} {valid : α → Bool}
    {g : α → α} {s : Section α}
    (h : ∀ x ∈ s.items, read (write x) = if valid x then some (g x) else none) :
    (ofSection write s).list? read =
      if s.items.all valid then some (s.map (List.map g)) else none := by
  cases s with
  | none => rfl
  | some xs =>
    have hread : (xs.map write).mapM read = if xs.all valid then some (xs.map g) else none :=
      mapM_map h
    show _ = if xs.all valid then some (some (xs.map g)) else none
    rw [ofSection, list?_array, hread]
    cases xs.all valid <;> rfl

end Cbor.Item

open Cbor Cbor.Item

/-! ## Payloads -/

namespace Payload

/-- Whether the payload is nothing, a boolean, a number or a string. -/
def isBasic : Payload → Bool
  | nil | bool _ | unsigned _ | signed _ | float _ | string _ => true
  | _ => false

/-- Whether the payload is no string, or a text. -/
def isText : Payload → Bool
  | string s => Utf8.isValid s
  | _ => true

/-- The payload with all not-a-numbers made one. -/
def quieted : Payload → Payload
  | float x => float x.quieted
  | p => p

/-- The payload as its item tells it: a signed integer that is not negative is an unsigned one. -/
def loosened : Payload → Payload
  | signed i => if 0 ≤ i.toInt then unsigned i.toUInt64 else signed i
  | p => p

theorem quieted_toItem {p : Payload} (hp : p.isBasic) : p.toItem.quieted = p.quieted.toItem := by
  cases p with
  | signed i =>
    show (Item.ofInt i.toInt).quieted = Item.ofInt i.toInt
    cases i.toInt <;> rfl
  | nil | bool | unsigned | float | string => rfl
  | _ => cases hp

theorem plain_toItem {p : Payload} (hp : p.isBasic) : p.toItem.plain := by
  cases p with
  | signed i =>
    show (Item.ofInt i.toInt).plain
    cases i.toInt <;> rfl
  | bool b => cases b <;> rfl
  | nil | unsigned | float | string => rfl
  | _ => cases hp

theorem ofItem?_toItem {p : Payload} (hp : p.isBasic) :
    ofItem? true p.toItem = if p.isText then some p.loosened else none := by
  cases p with
  | signed i =>
    have hlow : -2 ^ 63 ≤ i.toInt := Int64.le_toInt i
    have hi := Int64.ofInt_toInt i
    show ofItem? true (Item.ofInt i.toInt) =
      some (if 0 ≤ i.toInt then unsigned i.toUInt64 else signed i)
    generalize i.toInt = n at hlow hi ⊢
    cases n with
    | ofNat n =>
      have hunsigned : n.toUInt64 = i.toUInt64 := by
        rw [← hi]
        exact (UInt64.ofNat_eq_iff_mod_eq_toNat n _).mpr rfl
      rw [if_pos (show 0 ≤ Int.ofNat n from Int.natCast_nonneg n), ← hunsigned]
      rfl
    | negSucc n =>
      rw [Int.negSucc_eq] at hlow hi
      have hn : n.toUInt64.toNat = n := toNat_toUInt64 (by omega)
      have hsigned : Int64.ofInt (-1 - n) = i := by
        rw [← hi]
        congr 1
        omega
      rw [if_neg (by omega), Item.ofInt, ofItem?, hn, if_pos (by omega), hsigned]
  | string s =>
    show (Item.textOf? [s]).map string = if Utf8.isValid s then some (string s) else none
    simp [Item.textOf?]
  | bool b => cases b <;> rfl
  | nil | unsigned | float => rfl
  | _ => cases hp

end Payload

/-! ## Constants, instructions and headers -/

@[simp] theorem Cbor.Item.quieted_ofInt (i : Int) : (ofInt i).quieted = ofInt i := by
  cases i <;> rfl

@[simp] theorem Cbor.Item.plain_ofInt (i : Int) : (ofInt i).plain := by
  cases i <;> rfl

@[simp] theorem Cbor.quieted_ofByte (b : UInt8) : (ofByte b).quieted = ofByte b := rfl

@[simp] theorem Cbor.plain_ofByte (b : UInt8) : (ofByte b).plain := rfl

@[simp] theorem Cbor.quieted_ofWord (w : UInt32) : (ofWord w).quieted = ofWord w := rfl

@[simp] theorem Cbor.plain_ofWord (w : UInt32) : (ofWord w).plain := rfl

namespace Constant

/-- The constant with all not-a-numbers made one. -/
def quieted (c : Constant) : Constant := ⟨c.tag, c.payload.quieted⟩

/-- The constant as its item tells it. -/
def loosened (c : Constant) : Constant := ⟨c.tag, c.payload.loosened⟩

theorem quieted_toItem {c : Constant} (hc : c.payload.isBasic) :
    c.toItem.quieted = c.quieted.toItem := by
  simp [toItem, quieted_record, Payload.quieted_toItem hc, quieted]

theorem plain_toItem {c : Constant} (hc : c.payload.isBasic) : c.toItem.plain := by
  simp [toItem, plain_record, Payload.plain_toItem hc]

theorem ofItem?_toItem {c : Constant} (hc : c.payload.isBasic) :
    ofItem? c.toItem = if c.payload.isText then some c.loosened else none := by
  cases htext : c.payload.isText <;>
    simp [ofItem?, toItem, fields?_record, get_numberedFrom, Payload.ofItem?_toItem hc, htext,
      loosened]

end Constant

namespace Operand

theorem quieted_toItem (o : Operand) : o.toItem.quieted = o.toItem := by
  simp [toItem, quieted_record]

theorem plain_toItem (o : Operand) : o.toItem.plain := by
  simp [toItem, plain_record]

theorem ofItem?_toItem {o : Operand} (ho : Fits64 o.value) : ofItem? o.toItem = some o := by
  simp [ofItem?, toItem, fields?_record, get_numberedFrom, int?_ofInt ho]

end Operand

/-- Sections that are read back as they are. -/
theorem Cbor.Item.list?_ofSection_self {α : Type} {write : α → Item} {read : Item → Option α}
    {s : Section α} (h : ∀ x ∈ s.items, read (write x) = some x) :
    (ofSection write s).list? read = some s := by
  have hread : (ofSection write s).list? read =
      if s.items.all fun _ => true then some (s.map (List.map id)) else none := list?_ofSection h
  simpa using hread

theorem Cbor.Item.quieted_ofSection_self {α : Type} {write : α → Item} {s : Section α}
    (h : ∀ x ∈ s.items, (write x).quieted = write x) :
    (ofSection write s).quieted = ofSection write s := by
  have hquieted := quieted_ofSection id h
  simpa using hquieted

namespace Instruction

/-- The numbers of the instruction are signed integers of 64 bits. -/
structure Fits (i : Instruction) : Prop where
  address : Fits64 i.address
  operands : ∀ o ∈ i.operands.items, Fits64 o.value

theorem quieted_toItem (i : Instruction) : i.toItem.quieted = i.toItem := by
  have hoperands := quieted_ofSection_self (s := i.operands) fun o _ => o.quieted_toItem
  simp [toItem, quieted_record, hoperands]

theorem plain_toItem (i : Instruction) : i.toItem.plain := by
  have hoperands := plain_ofSection (s := i.operands) fun o _ => o.plain_toItem
  simp [toItem, plain_record, hoperands]

theorem ofItem?_toItem {i : Instruction} (hi : i.Fits) : ofItem? i.toItem = some i := by
  have hoperands := list?_ofSection_self fun o ho => Operand.ofItem?_toItem (hi.operands o ho)
  simp [ofItem?, toItem, fields?_record, get_numberedFrom, int?_ofInt hi.address, hoperands]

end Instruction

namespace TypeRecord

theorem quieted_toItem (t : TypeRecord) : t.toItem.quieted = t.toItem := by
  simp [toItem, quieted_record, Item.quieted]

theorem plain_toItem (t : TypeRecord) : t.toItem.plain := by
  simp [toItem, plain_record, Item.plain]

theorem ofItem?_toItem (t : TypeRecord) :
    ofItem? t.toItem = if Utf8.isValid t.name then some t else none := by
  cases htext : Utf8.isValid t.name <;>
    simp [ofItem?, toItem, fields?_record, get_numberedFrom, text?_text, htext]

end TypeRecord

namespace Header

/-- Whether the names of all types are texts. -/
def isText (h : Header) : Bool := h.types.items.all fun t => Utf8.isValid t.name

theorem quieted_toItem (h : Header) : h.toItem.quieted = h.toItem := by
  have htypes := quieted_ofSection_self (s := h.types) fun t _ => t.quieted_toItem
  simp [toItem, quieted_record, htypes]

theorem plain_toItem (h : Header) : h.toItem.plain := by
  have htypes := plain_ofSection (s := h.types) fun t _ => t.plain_toItem
  simp [toItem, plain_record, htypes]

/-- The fields of the item of a header, read one after the other. -/
theorem ofItem?_eq (h : Header) : ofItem? h.toItem = (do
    return ⟨← (ofWord h.signature).word?, ← (ofByte h.version).byte?, ← (ofByte h.format).byte?,
      ← (ofByte h.endianness).byte?, ← (ofByte h.intSize).byte?, ← (ofByte h.sizeSize).byte?,
      ← (ofByte h.instructionSize).byte?, ← (ofByte h.numberSize).byte?,
      ← (ofByte h.numberType).byte?, ← (ofByte h.buildFlags).byte?, ← (ofByte h.sharingMode).byte?,
      ← (ofSection TypeRecord.toItem h.types).list? TypeRecord.ofItem?⟩) := by
  rw [ofItem?, toItem, fields?_record (by simp)]
  rfl

theorem ofItem?_toItem (h : Header) :
    ofItem? h.toItem = if h.isText then some h else none := by
  have htypes := list?_ofSection (s := h.types) (g := id) fun t _ => t.ofItem?_toItem
  rw [ofItem?_eq, htypes, isText]
  simp only [word?_ofWord, byte?_ofByte]
  cases h.types.items.all fun t => Utf8.isValid t.name <;> simp

end Header

/-! ## Functions -/

theorem Cbor.optional?_null {α : Type} (read : Item → Option α) :
    optional? read .null = some none := rfl

theorem Cbor.optional?_record {α : Type} (read : Item → Option α) (fields : List (Option Item)) :
    optional? read (record fields) = (read (record fields)).map some := rfl

namespace Code

/-- The function with its constants changed. -/
def mapConstants (g : Constant → Constant) (c : Code) : Code :=
  { c with constants := c.constants.map (List.map g) }

/-- The function with all not-a-numbers made one. -/
def quieted : Code → Code := mapConstants Constant.quieted

/-- The function as its item tells it. -/
def loosened : Code → Code := mapConstants Constant.loosened

/-- Whether all string constants are texts. -/
def isText (c : Code) : Bool := c.constants.items.all fun k => k.payload.isText

/-- The numbers of the function are signed integers of 64 bits, and its constants are basic. -/
structure Exportable (c : Code) : Prop where
  address : Fits64 c.address
  instructions : ∀ i ∈ c.instructions.items, i.Fits
  constants : ∀ k ∈ c.constants.items, k.payload.isBasic

theorem quieted_toItem {c : Code} (hc : c.Exportable) (closures : Item) :
    (c.toItem closures).quieted = c.quieted.toItem closures.quieted := by
  have hinstructions := quieted_ofSection_self (s := c.instructions) fun i _ => i.quieted_toItem
  have hconstants : (ofSection Constant.toItem c.constants).quieted =
      ofSection Constant.toItem (c.constants.map (List.map Constant.quieted)) :=
    quieted_ofSection Constant.quieted fun k hk => Constant.quieted_toItem (hc.constants k hk)
  cases hdebug : c.debug <;>
    simp [toItem, quieted_record, hinstructions, hconstants, quieted, mapConstants, hdebug]

theorem plain_toItem {c : Code} (hc : c.Exportable) {closures : Item} (hclosures : closures.plain) :
    (c.toItem closures).plain := by
  have hinstructions := plain_ofSection (s := c.instructions) fun i _ => i.plain_toItem
  have hconstants := plain_ofSection fun k hk => Constant.plain_toItem (hc.constants k hk)
  cases hdebug : c.debug <;>
    simp [toItem, plain_record, hinstructions, hconstants, hclosures, hdebug]

/-- The fields of the item of a function. -/
theorem fields?_toItem {c : Code} (hc : c.Exportable) (closures : Item) :
    ∃ fs, (c.toItem closures).fields? = some fs ∧ fs.get 9 = closures ∧
      ofFields? fs = if c.isText then some c.loosened else none := by
  have hinstructions := list?_ofSection_self fun i hi =>
    Instruction.ofItem?_toItem (hc.instructions i hi)
  have hconstants := list?_ofSection fun k hk => Constant.ofItem?_toItem (hc.constants k hk)
  refine ⟨_, fields?_record (by simp), ?_, ?_⟩
  · simp [get_numberedFrom]
  · cases hdebug : c.debug <;>
      cases htext : c.constants.items.all fun k => k.payload.isText <;>
      simp [ofFields?, get_numberedFrom, int?_ofInt hc.address, hinstructions, hconstants, htext,
        isText, loosened, mapConstants, hdebug, optional?_null, optional?_record, debugOfItem?,
        fields?_record]

end Code

namespace Draft

mutual

/-- The draft with the functions in it changed. -/
def mapCode (g : Code → Code) : Draft → Draft
  | ⟨code, none⟩ => ⟨g code, none⟩
  | ⟨code, some ds⟩ => ⟨g code, some (mapCodes g ds)⟩

/-- The same for a list of drafts. -/
def mapCodes (g : Code → Code) : List (Option Draft) → List (Option Draft)
  | [] => []
  | none :: ds => none :: mapCodes g ds
  | some d :: ds => some (d.mapCode g) :: mapCodes g ds

end

mutual

/-- The functions of a draft, each before those of its closures. -/
def codes : Draft → List Code
  | ⟨code, none⟩ => [code]
  | ⟨code, some ds⟩ => code :: codesOf ds

/-- The functions of drafts. -/
def codesOf : List (Option Draft) → List Code
  | [] => []
  | none :: ds => codesOf ds
  | some d :: ds => d.codes ++ codesOf ds

end

mutual

theorem quieted_toItem (d : Draft) (hd : ∀ c ∈ d.codes, c.Exportable) :
    d.toItem.quieted = (d.mapCode Code.quieted).toItem := by
  match d with
  | ⟨code, none⟩ =>
    rw [codes, List.forall_mem_singleton] at hd
    exact Code.quieted_toItem hd _
  | ⟨code, some ds⟩ =>
    rw [codes, List.forall_mem_cons] at hd
    rw [toItem, Code.quieted_toItem hd.1, Item.quieted, quietedAll_toItems ds hd.2]
    rfl

theorem quietedAll_toItems (ds : List (Option Draft)) (hds : ∀ c ∈ codesOf ds, c.Exportable) :
    quietedAll (toItems ds) = toItems (mapCodes Code.quieted ds) := by
  match ds with
  | [] => rfl
  | none :: ds => exact congrArg (null :: ·) (quietedAll_toItems ds hds)
  | some d :: ds =>
    rw [codesOf, List.forall_mem_append] at hds
    rw [toItems, quietedAll, quieted_toItem d hds.1, quietedAll_toItems ds hds.2]
    rfl

end

mutual

theorem plain_toItem (d : Draft) (hd : ∀ c ∈ d.codes, c.Exportable) : d.toItem.plain := by
  match d with
  | ⟨code, none⟩ =>
    rw [codes, List.forall_mem_singleton] at hd
    exact Code.plain_toItem hd rfl
  | ⟨code, some ds⟩ =>
    rw [codes, List.forall_mem_cons] at hd
    exact Code.plain_toItem hd.1 (plainAll_toItems ds hd.2)

theorem plainAll_toItems (ds : List (Option Draft)) (hds : ∀ c ∈ codesOf ds, c.Exportable) :
    plainAll (toItems ds) := by
  match ds with
  | [] => rfl
  | none :: ds => exact plainAll_toItems ds hds
  | some d :: ds =>
    rw [codesOf, List.forall_mem_append] at hds
    rw [toItems, plainAll, plain_toItem d hds.1, plainAll_toItems ds hds.2]
    rfl

end

theorem optional?_toItem {α : Type} (read : Item → Option α) (d : Draft) :
    optional? read d.toItem = (read d.toItem).map some := by
  obtain ⟨code, _ | ds⟩ := d <;> rfl

/-- The closures of a function are one level below it. -/
theorem within_toItem {code : Code} {closures : Item} {lower : Nat}
    (h : (code.toItem closures).within lower) :
    ∃ below, lower = below + 1 ∧ closures.within below := by
  obtain ⟨below, hlower, hfields⟩ := within_record h
  exact ⟨below, hlower, hfields closures (by simp)⟩

mutual

/-- A draft is read back from its item if its texts are, and if there are levels enough. -/
theorem ofItem?_toItem (d : Draft) {lower levels : Nat} (hd : ∀ c ∈ d.codes, c.Exportable)
    (hwithin : d.toItem.within lower) (hle : lower ≤ levels) :
    ofItem? levels d.toItem =
      if d.codes.all Code.isText then some (d.mapCode Code.loosened) else none := by
  match d with
  | ⟨code, none⟩ =>
    rw [codes, List.forall_mem_singleton] at hd
    obtain ⟨below, rfl, -⟩ := within_toItem hwithin
    obtain ⟨levels, rfl⟩ : ∃ k, levels = k + 1 := ⟨levels - 1, by omega⟩
    obtain ⟨fs, hfields, hclosures, hcode⟩ := Code.fields?_toItem hd null
    rw [toItem, ofItem?, hfields]
    show (Code.ofFields? fs >>= fun code => (fs.get 9).list? _ >>= fun closures => _) = _
    rw [hcode, hclosures, codes, List.all_cons, List.all_nil, Bool.and_true, mapCode]
    cases code.isText <;> rfl
  | ⟨code, some ds⟩ =>
    rw [codes, List.forall_mem_cons] at hd
    obtain ⟨below, rfl, hbelow⟩ := within_toItem hwithin
    obtain ⟨levels, rfl⟩ : ∃ k, levels = k + 1 := ⟨levels - 1, by omega⟩
    obtain ⟨fs, hfields, hclosures, hcode⟩ := Code.fields?_toItem hd.1 (array (toItems ds))
    cases below with
    | zero => cases hbelow
    | succ below =>
      rw [within, Bool.and_eq_true] at hbelow
      have hds := mapM_toItems ds hd.2 hbelow.2 (show below ≤ levels by omega)
      rw [toItem, ofItem?, hfields]
      show (Code.ofFields? fs >>= fun code => (fs.get 9).list? _ >>= fun closures => _) = _
      rw [hcode, hclosures, list?_array, hds, codes, List.all_cons, mapCode]
      cases code.isText <;> cases (codesOf ds).all Code.isText <;> rfl

theorem mapM_toItems (ds : List (Option Draft)) {lower levels : Nat}
    (hds : ∀ c ∈ codesOf ds, c.Exportable) (hwithin : withinAll (toItems ds) lower)
    (hle : lower ≤ levels) :
    (toItems ds).mapM (optional? (ofItem? levels)) =
      if (codesOf ds).all Code.isText then some (mapCodes Code.loosened ds) else none := by
  match ds with
  | [] => rfl
  | none :: ds =>
    have hrest := mapM_toItems ds hds hwithin hle
    rw [toItems, List.mapM_cons, optional?_null, hrest, codesOf, mapCodes]
    cases (codesOf ds).all Code.isText <;> rfl
  | some d :: ds =>
    rw [codesOf, List.forall_mem_append] at hds
    rw [toItems, withinAll, Bool.and_eq_true] at hwithin
    have hd := ofItem?_toItem d hds.1 hwithin.1 hle
    have hrest := mapM_toItems ds hds.2 hwithin.2 hle
    rw [toItems, List.mapM_cons, optional?_toItem, hd, hrest, codesOf, mapCodes, List.all_append]
    cases d.codes.all Code.isText <;> cases (codesOf ds).all Code.isText <;> rfl

end

end Draft

end HavokScript
