import HavokScript.Cbor.Item
import HavokScript.Proofs.Chunk.RoundTrip
import Mathlib.Algebra.Group.Nat.Defs

/-!
# Reading back written items

What `toBytes` writes is read back, whatever stands behind it, if the nesting of the item and its
numbers of elements are within the limits of the reader, and is no item otherwise
(`Item.ofBytes?_toBytes`). Only not-a-numbers are not kept: all are written alike (`Item.quieted`).

The items here are plain: no tags, no byte strings, a text in one piece, and no simple value that
takes a second byte. Exports have no others.
-/

namespace HavokScript

/-- What every not-a-number is read back as. -/
def Double.quiet : Double := ⟨0x7FF8000000000000⟩

/-- The number with all not-a-numbers made one. -/
def Double.quieted (x : Double) : Double := if x.isNaN then .quiet else x

/-- The pattern of a number in a format has no more bits than the format. -/
theorem Double.toFormat_lt {f : Format} (hf : f.infinity < f.signBit) {x : Double}
    (hx : x.isNaN = false) : x.toFormat f < 2 * f.signBit := by
  have hsign : ∀ negative, f.sign negative ≤ f.signBit := by
    intro negative
    cases negative
    · exact Nat.zero_le _
    · exact Nat.le_refl _
  unfold toFormat Format.convert
  split
  · rename_i negative _
    have := hsign negative
    omega
  · rename_i negative m e _
    have := hsign negative
    have := f.round_le_infinity m e
    omega
  · rename_i hnan
    have hnan' : x.isNaN := decide_eq_true hnan
    rw [hx] at hnan'
    cases hnan'

namespace Cbor.Item

mutual

/-- The item with all not-a-numbers made one. -/
def quieted : Item → Item
  | array items => array (quietedAll items)
  | map entries => map (quietedEntries entries)
  | tagged tag item => tagged tag item.quieted
  | float x => float x.quieted
  | i => i

/-- The same for a list of items. -/
def quietedAll : List Item → List Item
  | [] => []
  | i :: is => i.quieted :: quietedAll is

/-- The same for the entries of a map. -/
def quietedEntries : List (Item × Item) → List (Item × Item)
  | [] => []
  | (k, v) :: es => (k.quieted, v.quieted) :: quietedEntries es

end

mutual

/-- Whether the item has no tags, byte strings, texts in pieces or wide simple values in it. -/
def plain : Item → Bool
  | unsigned _ | negative _ | float _ | text [_] => true
  | simple code => code.toNat < 24
  | array items => plainAll items
  | map entries => plainEntries entries
  | bytes _ | text _ | tagged _ _ => false

/-- The same for a list of items. -/
def plainAll : List Item → Bool
  | [] => true
  | i :: is => i.plain && plainAll is

/-- The same for the entries of a map. -/
def plainEntries : List (Item × Item) → Bool
  | [] => true
  | (k, v) :: es => k.plain && v.plain && plainEntries es

end

mutual

/-- Whether arrays and maps are nested at most so many levels deep and have few enough elements. -/
def within : Item → Nat → Bool
  | array _, 0 | map _, 0 => false
  | array items, levels + 1 => items.length ≤ maxElements && withinAll items levels
  | map entries, levels + 1 => entries.length ≤ maxElements && withinEntries entries levels
  | tagged _ item, levels => item.within levels
  | _, _ => true

/-- The same for a list of items. -/
def withinAll : List Item → Nat → Bool
  | [], _ => true
  | i :: is, levels => i.within levels && withinAll is levels

/-- The same for the entries of a map. -/
def withinEntries : List (Item × Item) → Nat → Bool
  | [], _ => true
  | (k, v) :: es, levels => k.within levels && v.within levels && withinEntries es levels

end

/-! ## Heads -/

theorem bind_apply {α β : Type} (p : Parser α) (f : α → Parser β) (bs : Bytes) :
    (p >>= f) bs = (p bs).bind fun r => f r.1 r.2 := rfl

theorem pure_apply {α : Type} (x : α) (bs : Bytes) : (pure x : Parser α) bs = some (x, bs) := rfl

theorem takeBytes_append {n : Nat} {bs : Bytes} (hn : n = bs.length) (rest : Bytes) :
    takeBytes n (bs ++ rest) = some (bs, rest) := by
  have hle : bs.length ≤ (bs ++ rest).length := by simp
  rw [hn, takeBytes, if_pos hle, List.take_left, List.drop_left]

/-- The first byte of a head: the major type and the additional information. -/
theorem toNat_first {major info : Nat} (hmajor : major < 8) (hinfo : info < 32) :
    (major * 32 + info).toUInt8.toNat / 32 = major ∧
      (major * 32 + info).toUInt8.toNat % 32 = info := by
  have hlt : major * 32 + info < 256 := by omega
  have htoNat : (major * 32 + info).toUInt8.toNat = major * 32 + info := by
    simpa using Nat.mod_eq_of_lt hlt
  omega

theorem headParser_short {b : UInt8} (hinfo : b.toNat % 32 < 24) (rest : Bytes) :
    headParser (b :: rest) = some (⟨b.toNat / 32, b.toNat % 32, b.toNat % 32⟩, rest) := by
  rw [headParser, bind_apply, next, Option.bind_some, if_pos hinfo, pure_apply]

theorem headParser_long {b : UInt8} {bs : Bytes} (hlow : 24 ≤ b.toNat % 32)
    (hhigh : b.toNat % 32 ≤ 27) (hbs : Nat.pow 2 (b.toNat % 32 - 24) = bs.length)
    (hsimple : ¬ (b.toNat / 32 = 7 ∧ b.toNat % 32 = 24)) (rest : Bytes) :
    headParser (b :: (bs ++ rest)) =
      some (⟨b.toNat / 32, b.toNat % 32, bs.toNat .big⟩, rest) := by
  have hreserved : ¬ (b.toNat / 32 = 7 ∧ b.toNat % 32 = 24 ∧ bs.toNat .big < 32) :=
    fun h => hsimple ⟨h.1, h.2.1⟩
  have hlong : ¬ b.toNat % 32 < 24 := by omega
  rw [headParser, bind_apply, next, Option.bind_some, if_neg hlong, if_pos hhigh, bind_apply,
    takeBytes_append hbs, Option.bind_some, if_neg hreserved]
  rfl

/-- The head of an item is read back; its additional information never says that the length is
indefinite. -/
theorem headParser_head (major : Nat) {n : Nat} (hmajor : major < 7) (hn : n < 2 ^ 64)
    (rest : Bytes) :
    ∃ info, info ≠ 31 ∧ headParser (head major n ++ rest) = some (⟨major, info, n⟩, rest) := by
  have hlong : ∀ info width, 24 ≤ info → info ≤ 27 → Nat.pow 2 (info - 24) = width →
      n < Nat.pow 256 width →
      headParser ((major * 32 + info).toUInt8 :: (Bytes.ofNat .big width n ++ rest)) =
        some (⟨major, info, n⟩, rest) := by
    intro info width hlow hhigh hwidth hlt
    obtain ⟨hdiv, hmod⟩ := toNat_first (show major < 8 by omega) (show info < 32 by omega)
    rw [headParser_long (by omega) (by omega) (by rw [hmod, hwidth, Bytes.length_ofNat]) (by omega),
      hdiv, hmod, Bytes.toNat_ofNat, Nat.mod_eq_of_lt hlt]
  unfold head
  dsimp only
  split_ifs with h24 h8 h16 h32
  · obtain ⟨hdiv, hmod⟩ := toNat_first (show major < 8 by omega) (show n < 32 by omega)
    refine ⟨n, by omega, ?_⟩
    rw [List.singleton_append, headParser_short (by omega), hdiv, hmod]
  · exact ⟨24, by decide, hlong 24 1 (by decide) (by decide) rfl h8⟩
  · exact ⟨25, by decide, hlong 25 2 (by decide) (by decide) rfl h16⟩
  · exact ⟨26, by decide, hlong 26 4 (by decide) (by decide) rfl h32⟩
  · exact ⟨27, by decide, hlong 27 8 (by decide) (by decide) rfl hn⟩

/-! ## Numbers -/

theorem itemWith_of_head {inner : Option (Parser Item)} {bs rest : Bytes} {h : Head}
    (hhead : headParser bs = some (h, rest)) (hmajor : h.major ≠ 6) :
    itemWith inner bs = body inner h rest := by
  rw [itemWith, bind_apply, hhead, Option.bind_some, if_neg hmajor]

theorem itemWith_head (inner : Option (Parser Item)) (major : Nat) {n : Nat} (hmajor : major < 6)
    (hn : n < 2 ^ 64) (rest : Bytes) :
    ∃ info, info ≠ 31 ∧ itemWith inner (head major n ++ rest) = body inner ⟨major, info, n⟩ rest := by
  obtain ⟨info, hinfo, hread⟩ := headParser_head major (by omega) hn rest
  exact ⟨info, hinfo, itemWith_of_head hread (show major ≠ 6 by omega)⟩

/-- A floating point number is read back, but all not-a-numbers are the same. -/
theorem itemWith_floatBytes (inner : Option (Parser Item)) (x : Double) (rest : Bytes) :
    itemWith inner (floatBytes x ++ rest) = some (float x.quieted, rest) := by
  have hhead : ∀ (b : UInt8) (width n : Nat), 25 ≤ b.toNat % 32 → b.toNat % 32 ≤ 27 →
      b.toNat / 32 = 7 → Nat.pow 2 (b.toNat % 32 - 24) = width → n < Nat.pow 256 width →
      itemWith inner (b :: (Bytes.ofNat .big width n ++ rest)) =
        body inner ⟨7, b.toNat % 32, n⟩ rest := by
    intro b width n hlow hhigh hmajor hwidth hlt
    have hbs : Nat.pow 2 (b.toNat % 32 - 24) = (Bytes.ofNat .big width n).length := by
      rw [hwidth, Bytes.length_ofNat]
    have hread := headParser_long (by omega) hhigh hbs (by omega) rest
    rw [hmajor, Bytes.toNat_ofNat, Nat.mod_eq_of_lt hlt] at hread
    exact itemWith_of_head hread (show 7 ≠ 6 by decide)
  have hfits : ∀ f : Format, x.fits f → (f.convert .double (x.toFormat f)).toUInt64 = x.bits := by
    intro f hf
    rw [of_decide_eq_true hf]
    exact UInt64.ofNat_toNat
  unfold floatBytes Double.quieted
  cases hnan : x.isNaN with
  | true => exact hhead 0xF9 2 0x7E00 (by decide) (by decide) rfl rfl (by decide)
  | false =>
    rw [if_neg Bool.false_ne_true, if_neg Bool.false_ne_true]
    split_ifs with hhalf hsingle
    · have hlt : x.toFormat .half < Nat.pow 256 2 := Double.toFormat_lt (by decide) hnan
      refine (hhead 0xF9 2 _ (by decide) (by decide) rfl rfl hlt).trans ?_
      show some (float ⟨_⟩, rest) = _
      rw [hfits .half hhalf]
    · have hlt : x.toFormat .single < Nat.pow 256 4 := Double.toFormat_lt (by decide) hnan
      refine (hhead 0xFA 4 _ (by decide) (by decide) rfl rfl hlt).trans ?_
      show some (float ⟨_⟩, rest) = _
      rw [hfits .single hsingle]
    · refine (hhead 0xFB 8 _ (by decide) (by decide) rfl rfl x.bits.toNat_lt).trans ?_
      show some (float ⟨_⟩, rest) = _
      rw [show x.bits.toNat.toUInt64 = x.bits from UInt64.ofNat_toNat]

/-- A simple value that fits into the first byte of a head. -/
theorem itemWith_simple {inner : Option (Parser Item)} {n : Nat} (hn : n < 24) (rest : Bytes) :
    itemWith inner (head 7 n ++ rest) = some (simple n.toUInt8, rest) := by
  obtain ⟨hdiv, hmod⟩ := toNat_first (show 7 < 8 by decide) (show n < 32 by omega)
  have hread := headParser_short (show (7 * 32 + n).toUInt8.toNat % 32 < 24 by omega) rest
  rw [hdiv, hmod] at hread
  rw [head, if_pos hn, List.singleton_append, itemWith_of_head hread (show 7 ≠ 6 by decide)]
  simp only [body]
  split <;> first | omega | rfl

/-! ## Items -/

theorem toBytes_pos (i : Item) : 0 < i.toBytes.length := by
  have hhead : ∀ major n, 0 < (head major n).length := by
    intro major n
    unfold head
    dsimp only
    split_ifs <;> simp
  have hfloat : ∀ x, 0 < (floatBytes x).length := by
    intro x
    unfold floatBytes
    split_ifs <;> simp
  cases i with
  | float x => exact hfloat x
  | unsigned | negative | simple => exact hhead _ _
  | bytes | text | array | map | tagged =>
    rw [toBytes, List.length_append]
    exact Nat.add_pos_left (hhead _ _) _

theorem length_le_listBytes (is : List Item) : is.length ≤ (listBytes is).length := by
  induction is with
  | nil => exact Nat.zero_le _
  | cons i is ih =>
    have := i.toBytes_pos
    rw [listBytes, List.length_append, List.length_cons]
    omega

theorem length_le_entryBytes (es : List (Item × Item)) : es.length ≤ (entryBytes es).length := by
  induction es with
  | nil => exact Nat.zero_le _
  | cons e es ih =>
    have := e.1.toBytes_pos
    rw [entryBytes, List.length_append, List.length_append, List.length_cons]
    omega

theorem length_quietedAll (is : List Item) : (quietedAll is).length = is.length := by
  induction is with
  | nil => rfl
  | cons i is ih => rw [quietedAll, List.length_cons, ih, List.length_cons]

theorem length_quietedEntries (es : List (Item × Item)) :
    (quietedEntries es).length = es.length := by
  induction es with
  | nil => rfl
  | cons e es ih => rw [quietedEntries, List.length_cons, ih, List.length_cons]

mutual

theorem within_quieted (i : Item) (levels : Nat) : i.quieted.within levels = i.within levels := by
  match i, levels with
  | array _, 0 | map _, 0 => rfl
  | array items, levels + 1 =>
    rw [quieted, within, within, length_quietedAll, withinAll_quietedAll items levels]
  | map entries, levels + 1 =>
    rw [quieted, within, within, length_quietedEntries, withinEntries_quietedEntries entries levels]
  | tagged tag i, levels => rw [quieted, within, within, within_quieted i levels]
  | unsigned _, _ | negative _, _ | bytes _, _ | text _, _ | simple _, _ | float _, _ => rfl

theorem withinAll_quietedAll (is : List Item) (levels : Nat) :
    withinAll (quietedAll is) levels = withinAll is levels := by
  match is with
  | [] => rfl
  | i :: is =>
    rw [quietedAll, withinAll, within_quieted i, withinAll_quietedAll is, withinAll]

theorem withinEntries_quietedEntries (es : List (Item × Item)) (levels : Nat) :
    withinEntries (quietedEntries es) levels = withinEntries es levels := by
  match es with
  | [] => rfl
  | (k, v) :: es =>
    rw [quietedEntries, withinEntries, within_quieted k, within_quieted v,
      withinEntries_quietedEntries es, withinEntries]

end

/-- What reads the items one level down. -/
def inner : Nat → Option (Parser Item)
  | 0 => none
  | levels + 1 => some (item levels)

theorem item_eq (levels : Nat) : item levels = itemWith (inner levels) := by
  cases levels <;> rfl

/-- The elements of a container of definite length. -/
theorem elements_eq {α : Type} {p : Parser α} {major info n : Nat} {bs rest : Bytes} {xs : List α}
    {fits : Bool} (hinfo : info ≠ 31) (hlength : xs.length = n)
    (hread : repeated p n bs = if fits then some (xs, rest) else none) :
    elements p ⟨major, info, n⟩ bs =
      if n ≤ maxElements && fits then some (xs, rest) else none := by
  unfold elements
  dsimp only
  rw [if_neg hinfo, hread]
  by_cases hn : maxElements < n
  · have hmany : ¬ n ≤ maxElements := by omega
    simp [hn, hmany]
  · have hfew : n ≤ maxElements := by omega
    cases fits <;> simp [hn, hfew, hlength]

theorem chunks_of_definite {major info : Nat} {s : Bytes} (hinfo : info ≠ 31) (rest : Bytes) :
    chunks ⟨major, info, s.length⟩ (s ++ rest) = some ([s], rest) := by
  rw [chunks, if_neg hinfo, takeBytes_append rfl, Option.map_some]

/-- One element more. -/
theorem repeated_succ {α : Type} {p : Parser α} {n : Nat} {bs mid rest : Bytes} {x : α}
    {xs : List α} {fits fits' : Bool} (hx : p bs = if fits then some (x, mid) else none)
    (hxs : repeated p n mid = if fits' then some (xs, rest) else none) :
    repeated p (n + 1) bs = if fits && fits' then some (x :: xs, rest) else none := by
  rw [repeated, bind_apply, hx]
  cases fits with
  | false => rfl
  | true =>
    rw [if_pos rfl, Option.bind_some, bind_apply, hxs]
    cases fits' <;> rfl

mutual

theorem item_toBytes (i : Item) (levels : Nat) (rest : Bytes) (hplain : i.plain)
    (hlength : i.toBytes.length < 2 ^ 64) :
    item levels (i.toBytes ++ rest) = if i.within levels then some (i.quieted, rest) else none := by
  rw [item_eq]
  match i with
  | unsigned n =>
    obtain ⟨info, -, hread⟩ := itemWith_head (inner levels) 0 (by decide) n.toNat_lt rest
    rw [toBytes, hread]
    show some (unsigned n.toNat.toUInt64, rest) = some (unsigned n, rest)
    rw [show n.toNat.toUInt64 = n from UInt64.ofNat_toNat]
  | negative n =>
    obtain ⟨info, -, hread⟩ := itemWith_head (inner levels) 1 (by decide) n.toNat_lt rest
    rw [toBytes, hread]
    show some (negative n.toNat.toUInt64, rest) = some (negative n, rest)
    rw [show n.toNat.toUInt64 = n from UInt64.ofNat_toNat]
  | float x => exact itemWith_floatBytes (inner levels) x rest
  | simple code =>
    have hcode : code.toNat < 24 := of_decide_eq_true hplain
    rw [toBytes, itemWith_simple hcode]
    show some (simple code.toNat.toUInt8, rest) = some (simple code, rest)
    rw [show code.toNat.toUInt8 = code from UInt8.ofNat_toNat]
  | text [s] =>
    rw [toBytes, List.flatten_singleton, List.length_append] at hlength
    obtain ⟨info, hinfo, hread⟩ :=
      itemWith_head (inner levels) 3 (by decide) (show s.length < 2 ^ 64 by omega) (s ++ rest)
    rw [toBytes, List.flatten_singleton, List.append_assoc, hread]
    show (chunks _ >>= fun cs => pure (text cs)) (s ++ rest) = some (text [s], rest)
    rw [bind_apply, chunks_of_definite hinfo, Option.bind_some, pure_apply]
  | array items =>
    have hitems := length_le_listBytes items
    rw [toBytes, List.length_append] at hlength
    obtain ⟨info, hinfo, hread⟩ := itemWith_head (inner levels) 4 (by decide)
      (show items.length < 2 ^ 64 by omega) (listBytes items ++ rest)
    rw [toBytes, List.append_assoc, hread]
    cases levels with
    | zero => rfl
    | succ levels =>
      have hrepeated := repeated_listBytes items levels rest hplain (by omega)
      show (elements (item levels) _ >>= fun is => pure (array is)) (listBytes items ++ rest) = _
      rw [bind_apply, elements_eq hinfo (length_quietedAll items) hrepeated, within, quieted]
      split <;> rfl
  | map entries =>
    have hentries := length_le_entryBytes entries
    rw [toBytes, List.length_append] at hlength
    obtain ⟨info, hinfo, hread⟩ := itemWith_head (inner levels) 5 (by decide)
      (show entries.length < 2 ^ 64 by omega) (entryBytes entries ++ rest)
    rw [toBytes, List.append_assoc, hread]
    cases levels with
    | zero => rfl
    | succ levels =>
      have hrepeated := repeated_entryBytes entries levels rest hplain (by omega)
      show (elements (entry (item levels)) _ >>= fun es => pure (map es))
        (entryBytes entries ++ rest) = _
      rw [bind_apply, elements_eq hinfo (length_quietedEntries entries) hrepeated, within, quieted]
      split <;> rfl

theorem repeated_listBytes (is : List Item) (levels : Nat) (rest : Bytes) (hplain : plainAll is)
    (hlength : (listBytes is).length < 2 ^ 64) :
    repeated (item levels) is.length (listBytes is ++ rest) =
      if withinAll is levels then some (quietedAll is, rest) else none := by
  match is with
  | [] => rfl
  | i :: is =>
    rw [plainAll, Bool.and_eq_true] at hplain
    rw [listBytes, List.length_append] at hlength
    have hi := item_toBytes i levels (listBytes is ++ rest) hplain.1 (by omega)
    have his := repeated_listBytes is levels rest hplain.2 (by omega)
    rw [listBytes, List.append_assoc]
    exact repeated_succ hi his

theorem repeated_entryBytes (es : List (Item × Item)) (levels : Nat) (rest : Bytes)
    (hplain : plainEntries es) (hlength : (entryBytes es).length < 2 ^ 64) :
    repeated (entry (item levels)) es.length (entryBytes es ++ rest) =
      if withinEntries es levels then some (quietedEntries es, rest) else none := by
  match es with
  | [] => rfl
  | (k, v) :: es =>
    rw [plainEntries, Bool.and_eq_true, Bool.and_eq_true] at hplain
    rw [entryBytes, List.length_append, List.length_append] at hlength
    have hk := item_toBytes k levels (v.toBytes ++ (entryBytes es ++ rest)) hplain.1.1 (by omega)
    have hv := item_toBytes v levels (entryBytes es ++ rest) hplain.1.2 (by omega)
    have hes := repeated_entryBytes es levels rest hplain.2 (by omega)
    have hentry : entry (item levels) (k.toBytes ++ (v.toBytes ++ (entryBytes es ++ rest))) =
        if k.within levels && v.within levels then
          some ((k.quieted, v.quieted), entryBytes es ++ rest) else none := by
      rw [entry, bind_apply, hk]
      cases k.within levels with
      | false => rfl
      | true =>
        rw [if_pos rfl, Option.bind_some, bind_apply, hv]
        cases v.within levels <;> rfl
    rw [entryBytes, List.append_assoc, List.append_assoc]
    exact repeated_succ hentry hes

end

/-- **Written items are read back.** A plain item is read back from its bytes, with all not-a-numbers
made one, exactly if it is within the limits of the reader. -/
theorem ofBytes?_toBytes {i : Item} (hplain : i.plain) (hlength : i.toBytes.length < 2 ^ 64) :
    ofBytes? i.toBytes = if i.within maxLevels then some i.quieted else none := by
  have hread := item_toBytes i maxLevels [] hplain hlength
  rw [List.append_nil] at hread
  rw [ofBytes?, hread]
  cases i.within maxLevels <;> rfl

end Cbor.Item

end HavokScript
