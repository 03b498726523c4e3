import HavokScript.Proofs.Cbor.Records

/-!
# Reading back exports

The export of a file is read back exactly if its texts are UTF-8 and it is within the limits of the
reader (`ChunkFile.imported_toBytes`). The way there and back:

* a prototype is a draft in which nothing is missing (`Prototype.toDraft`), so that the main
  function and the further functions of a file are handled alike;
* the item of a file tells it with its payloads loosened (`ChunkFile.draftsOfItem?_toItem`);
* fitting the constants to their tags undoes that, if they are settled (`Constant.Settled`). The
  further functions are not fitted, so their constants have to be told as they are.
-/

namespace HavokScript

open Cbor Cbor.Item

/-! ## Prototypes as drafts -/

namespace Prototype

mutual

/-- The prototype with the functions in it changed. -/
def mapCode (g : Code → Code) : Prototype → Prototype
  | ⟨code, none⟩ => ⟨g code, none⟩
  | ⟨code, some ps⟩ => ⟨g code, some (mapCodes g ps)⟩

/-- The same for a list of prototypes. -/
def mapCodes (g : Code → Code) : List Prototype → List Prototype
  | [] => []
  | p :: ps => p.mapCode g :: mapCodes g ps

end

mutual

/-- The draft in which nothing is missing. -/
def toDraft : Prototype → Draft
  | ⟨code, none⟩ => ⟨code, none⟩
  | ⟨code, some ps⟩ => ⟨code, some (toDrafts ps)⟩

/-- The same for a list of prototypes. -/
def toDrafts : List Prototype → List (Option Draft)
  | [] => []
  | p :: ps => some p.toDraft :: toDrafts ps

end

mutual

theorem toItem_toDraft (p : Prototype) : p.toDraft.toItem = p.toItem := by
  match p with
  | ⟨code, none⟩ => rfl
  | ⟨code, some ps⟩ => rw [toDraft, Draft.toItem, toItems_toDrafts ps, toItem]

theorem toItems_toDrafts (ps : List Prototype) : Draft.toItems (toDrafts ps) = toItems ps := by
  match ps with
  | [] => rfl
  | p :: ps => rw [toDrafts, Draft.toItems, toItem_toDraft p, toItems_toDrafts ps, toItems]

end

mutual

theorem complete?_toDraft (p : Prototype) : p.toDraft.complete? = some p := by
  match p with
  | ⟨code, none⟩ => rfl
  | ⟨code, some ps⟩ => rw [toDraft, Draft.complete?, completeAll?_toDrafts ps, Option.map_some]

theorem completeAll?_toDrafts (ps : List Prototype) :
    Draft.completeAll? (toDrafts ps) = some ps := by
  match ps with
  | [] => rfl
  | p :: ps =>
    rw [toDrafts, Draft.completeAll?, complete?_toDraft p, completeAll?_toDrafts ps]
    rfl

end

mutual

theorem toDraft_mapCode (g : Code → Code) (p : Prototype) :
    (p.mapCode g).toDraft = p.toDraft.mapCode g := by
  match p with
  | ⟨code, none⟩ => rfl
  | ⟨code, some ps⟩ => rw [mapCode, toDraft, toDrafts_mapCodes g ps, toDraft, Draft.mapCode]

theorem toDrafts_mapCodes (g : Code → Code) (ps : List Prototype) :
    toDrafts (mapCodes g ps) = Draft.mapCodes g (toDrafts ps) := by
  match ps with
  | [] => rfl
  | p :: ps =>
    rw [mapCodes, toDrafts, toDraft_mapCode g p, toDrafts_mapCodes g ps, toDrafts, Draft.mapCodes]

end

mutual

theorem codes_toDraft (p : Prototype) : p.toDraft.codes = p.walk.map toCode := by
  match p with
  | ⟨code, none⟩ => rfl
  | ⟨code, some ps⟩ => rw [toDraft, Draft.codes, codesOf_toDrafts ps, walk, List.map_cons]

theorem codesOf_toDrafts (ps : List Prototype) :
    Draft.codesOf (toDrafts ps) = (walkAll ps).map toCode := by
  match ps with
  | [] => rfl
  | p :: ps =>
    rw [toDrafts, Draft.codesOf, codes_toDraft p, codesOf_toDrafts ps, walkAll, List.map_append]

end

mutual

theorem normalize_eq (integers : Bool) (p : Prototype) :
    p.normalize integers = p.mapCode (Code.normalize integers) := by
  match p with
  | ⟨code, none⟩ => rfl
  | ⟨code, some ps⟩ => rw [normalize, normalizeAll_eq integers ps, mapCode]

theorem normalizeAll_eq (integers : Bool) (ps : List Prototype) :
    normalizeAll integers ps = mapCodes (Code.normalize integers) ps := by
  match ps with
  | [] => rfl
  | p :: ps =>
    rw [normalizeAll, normalize_eq integers p, normalizeAll_eq integers ps, mapCodes]

end

theorem toDraft_injective {p q : Prototype} (h : p.toDraft = q.toDraft) : p = q := by
  have hp := p.complete?_toDraft
  rw [h, q.complete?_toDraft] at hp
  exact (Option.some.inj hp).symm

end Prototype

namespace Draft

mutual

theorem mapCode_mapCode {g h k : Code → Code} (d : Draft) (hd : ∀ c ∈ d.codes, h (g c) = k c) :
    (d.mapCode g).mapCode h = d.mapCode k := by
  match d with
  | ⟨code, none⟩ =>
    rw [codes, List.forall_mem_singleton] at hd
    rw [mapCode, mapCode, mapCode, hd]
  | ⟨code, some ds⟩ =>
    rw [codes, List.forall_mem_cons] at hd
    rw [mapCode, mapCode, mapCode, hd.1, mapCodes_mapCodes ds hd.2]

theorem mapCodes_mapCodes {g h k : Code → Code} (ds : List (Option Draft))
    (hds : ∀ c ∈ codesOf ds, h (g c) = k c) :
    mapCodes h (mapCodes g ds) = mapCodes k ds := by
  match ds with
  | [] => rfl
  | none :: ds => rw [mapCodes, mapCodes, mapCodes, mapCodes_mapCodes ds hds]
  | some d :: ds =>
    rw [codesOf, List.forall_mem_append] at hds
    rw [mapCodes, mapCodes, mapCodes, mapCode_mapCode d hds.1, mapCodes_mapCodes ds hds.2]

end

end Draft

theorem Prototype.mapCode_mapCode {g h k : Code → Code} {p : Prototype}
    (hp : ∀ q ∈ p.walk, h (g q.toCode) = k q.toCode) : (p.mapCode g).mapCode h = p.mapCode k := by
  apply Prototype.toDraft_injective
  rw [toDraft_mapCode, toDraft_mapCode, toDraft_mapCode]
  apply Draft.mapCode_mapCode
  rw [codes_toDraft]
  simpa using hp

/-! ## Fitting constants to their tags -/

namespace Constant

/-- Fitting the constant as its item tells it to its tag gives it back. -/
def Settled (integers : Bool) (k : Constant) : Prop := k.loosened.normalize integers = k

/-- A signed integer comes back by its tag, whatever its sign. -/
theorem settled_signed (i : Int64) : (⟨.number, .signed i⟩ : Constant).Settled true := by
  unfold Settled loosened Payload.loosened
  by_cases hi : 0 ≤ i.toInt
  · simp [hi, normalize]
  · simp [hi, normalize]

theorem quieted_eq (k : Constant) : (∃ x, k.payload = .float x) ∨ k.quieted = k := by
  obtain ⟨tag, p⟩ := k
  cases p with
  | float x => exact .inl ⟨x, rfl⟩
  | _ => exact .inr rfl

theorem Settled.quieted {integers : Bool} {k : Constant} (hk : k.Settled integers) :
    k.quieted.loosened.normalize integers = k.quieted := by
  rcases k.quieted_eq with ⟨x, hx⟩ | hquieted
  · obtain ⟨tag, p⟩ := k
    subst hx
    change (⟨tag, .float x⟩ : Constant).normalize integers = ⟨tag, .float x⟩ at hk
    show (⟨tag, .float x.quieted⟩ : Constant).normalize integers = ⟨tag, .float x.quieted⟩
    unfold normalize at hk ⊢
    split_ifs at hk ⊢ with hnumber haddress
    · cases integers with
      | true => cases hk
      | false => rfl
    · rfl
    · rfl
  · rw [hquieted]
    exact hk

theorem loosened_quieted {k : Constant} (hk : k.loosened = k) : k.quieted.loosened = k.quieted := by
  rcases k.quieted_eq with ⟨x, hx⟩ | hquieted
  · obtain ⟨tag, p⟩ := k
    subst hx
    rfl
  · rw [hquieted, hk]

end Constant

/-! ## Files -/

namespace ChunkFile

/-- The file with all not-a-numbers made one. -/
def quieted (f : ChunkFile) : ChunkFile where
  header := f.header
  root := f.root.map (Prototype.mapCode Code.quieted)
  prototypes := f.prototypes.map (Draft.mapCodes Code.quieted)

/-- The functions of the file: the main function and all below it, and the further ones. -/
def codes (f : ChunkFile) : List Code :=
  f.walk.map Prototype.toCode ++ Draft.codesOf f.prototypes.items

/-- Whether all string constants and the names of all types are texts. -/
def isText (f : ChunkFile) : Bool := f.header.isText && f.codes.all Code.isText

/-- The file has only numbers and payloads that an export can hold, and settled constants. -/
structure Exportable (f : ChunkFile) : Prop where
  codes : ∀ c ∈ f.codes, c.Exportable
  settled : ∀ p ∈ f.walk, ∀ k ∈ p.constants.items, k.Settled f.header.integers
  further : ∀ c ∈ Draft.codesOf f.prototypes.items, ∀ k ∈ c.constants.items, k.loosened = k

/-- The item of the main function. -/
def rootItem (root : Option Prototype) : Item := (root.map fun p => p.toDraft.toItem).getD .null

/-- The item of the further functions. -/
def furtherItem : Section (Option Draft) → Item
  | some ds => .array (Draft.toItems ds)
  | none => .null

theorem toItem_eq (f : ChunkFile) :
    f.toItem = .record [some f.header.toItem, some (rootItem f.root),
      some (furtherItem f.prototypes)] := by
  have hroot : (f.root.map Prototype.toItem).getD .null = rootItem f.root := by
    cases f.root with
    | none => rfl
    | some p => exact p.toItem_toDraft.symm
  rw [toItem, hroot]
  cases f.prototypes <;> rfl

theorem forall_codes {f : ChunkFile} {P : Code → Prop} :
    (∀ c ∈ f.codes, P c) ↔ (∀ p, f.root = some p → ∀ c ∈ p.toDraft.codes, P c) ∧
      ∀ c ∈ Draft.codesOf f.prototypes.items, P c := by
  rw [codes, List.forall_mem_append, walk]
  cases f.root with
  | none => simp
  | some p => simp [p.codes_toDraft]

theorem quieted_toItem {f : ChunkFile} (hf : ∀ c ∈ f.codes, c.Exportable) :
    f.toItem.quieted = f.quieted.toItem := by
  obtain ⟨hroot, hfurther⟩ := forall_codes.mp hf
  have hrootItem : (rootItem f.root).quieted = rootItem f.quieted.root := by
    show _ = rootItem (f.root.map (Prototype.mapCode Code.quieted))
    cases hp : f.root with
    | none => rfl
    | some p =>
      show p.toDraft.toItem.quieted = (p.mapCode Code.quieted).toDraft.toItem
      rw [Draft.quieted_toItem _ (hroot p hp), p.toDraft_mapCode]
  have hfurtherItem : (furtherItem f.prototypes).quieted = furtherItem f.quieted.prototypes := by
    show _ = furtherItem (f.prototypes.map (Draft.mapCodes Code.quieted))
    cases hds : f.prototypes with
    | none => rfl
    | some ds =>
      rw [hds] at hfurther
      exact congrArg Item.array (Draft.quietedAll_toItems ds hfurther)
  rw [toItem_eq, toItem_eq, quieted_record]
  simp [Header.quieted_toItem, hrootItem, hfurtherItem, quieted]

theorem plain_toItem {f : ChunkFile} (hf : ∀ c ∈ f.codes, c.Exportable) : f.toItem.plain := by
  obtain ⟨hroot, hfurther⟩ := forall_codes.mp hf
  have hrootItem : (rootItem f.root).plain := by
    cases hp : f.root with
    | none => rfl
    | some p => exact p.toDraft.plain_toItem (hroot p hp)
  have hfurtherItem : (furtherItem f.prototypes).plain := by
    cases hds : f.prototypes with
    | none => rfl
    | some ds =>
      rw [hds] at hfurther
      exact Draft.plainAll_toItems ds hfurther
  rw [toItem_eq, plain_record]
  simp [Header.plain_toItem, hrootItem, hfurtherItem]

/-- The parts of the item of a file, as the item tells them. -/
theorem draftsOfItem?_toItem {f : ChunkFile} (hf : ∀ c ∈ f.codes, c.Exportable)
    (hwithin : f.toItem.within maxLevels) :
    draftsOfItem? f.toItem =
      if f.isText then some (f.header, f.root.map fun p => p.toDraft.mapCode Code.loosened,
        f.prototypes.map (Draft.mapCodes Code.loosened)) else none := by
  obtain ⟨hroot, hfurther⟩ := forall_codes.mp hf
  rw [toItem_eq] at hwithin
  obtain ⟨below, hlevels, hparts⟩ := within_record hwithin
  have hrootWithin := hparts (rootItem f.root) (by simp)
  have hfurtherWithin := hparts (furtherItem f.prototypes) (by simp)
  have hrootRead : optional? (Draft.ofItem? maxLevels) (rootItem f.root) =
      if (f.walk.map Prototype.toCode).all Code.isText then
        some (f.root.map fun p => p.toDraft.mapCode Code.loosened) else none := by
    rw [walk]
    cases hp : f.root with
    | none => rfl
    | some p =>
      rw [hp] at hrootWithin
      have hle : below ≤ maxLevels := by omega
      have hread := p.toDraft.ofItem?_toItem (hroot p hp) hrootWithin hle
      show optional? _ p.toDraft.toItem = _
      rw [Draft.optional?_toItem, hread, p.codes_toDraft]
      dsimp only
      split <;> rfl
  have hfurtherRead : (furtherItem f.prototypes).list? (optional? (Draft.ofItem? maxLevels)) =
      if (Draft.codesOf f.prototypes.items).all Code.isText then
        some (f.prototypes.map (Draft.mapCodes Code.loosened)) else none := by
    cases hds : f.prototypes with
    | none => rfl
    | some ds =>
      rw [hds] at hfurther hfurtherWithin
      cases below with
      | zero => cases hfurtherWithin
      | succ below =>
        change (array (Draft.toItems ds)).within (below + 1) at hfurtherWithin
        rw [within, Bool.and_eq_true] at hfurtherWithin
        have hread := Draft.mapM_toItems ds hfurther hfurtherWithin.2
          (show below ≤ maxLevels by omega)
        rw [furtherItem, list?_array, hread]
        show _ = if (Draft.codesOf ds).all Code.isText then _ else _
        split <;> rfl
  rw [toItem_eq, isText, codes, List.all_append]
  cases hheader : f.header.isText <;>
    cases hrootText : (f.walk.map Prototype.toCode).all Code.isText <;>
    cases hfurtherText : (Draft.codesOf f.prototypes.items).all Code.isText <;>
    simp [draftsOfItem?, fields?_record, get_numberedFrom, Header.ofItem?_toItem, hrootRead,
      hfurtherRead, hheader, hrootText, hfurtherText]

end ChunkFile

/-! ## Quieted files -/

theorem Payload.isBasic_quieted (p : Payload) : p.quieted.isBasic = p.isBasic := by
  cases p <;> rfl

theorem Payload.isText_quieted (p : Payload) : p.quieted.isText = p.isText := by
  cases p <;> rfl

namespace Code

theorem items_mapConstants (g : Constant → Constant) (c : Code) :
    (c.mapConstants g).constants.items = c.constants.items.map g := by
  show Section.items (c.constants.map (List.map g)) = _
  cases c.constants <;> rfl

theorem mapConstants_mapConstants {g h k : Constant → Constant} {c : Code}
    (hc : ∀ x ∈ c.constants.items, h (g x) = k x) :
    (c.mapConstants g).mapConstants h = c.mapConstants k := by
  unfold mapConstants
  cases hconstants : c.constants with
  | none => rfl
  | some xs =>
    rw [hconstants] at hc
    simp only [Option.map_some, List.map_map]
    rw [List.map_congr_left (show ∀ x ∈ xs, (h ∘ g) x = k x from hc)]

theorem Exportable.quieted {c : Code} (hc : c.Exportable) : c.quieted.Exportable := by
  refine ⟨hc.address, hc.instructions, ?_⟩
  rw [Code.quieted, items_mapConstants, List.forall_mem_map]
  intro k hk
  exact k.payload.isBasic_quieted.trans (hc.constants k hk)

theorem isText_quieted (c : Code) : c.quieted.isText = c.isText := by
  have hpayload : (fun k : Constant => k.quieted.payload.isText) = fun k => k.payload.isText :=
    funext fun k => k.payload.isText_quieted
  rw [isText, quieted, items_mapConstants, List.all_map]
  exact congrArg c.constants.items.all hpayload

end Code

namespace Draft

mutual

theorem codes_mapCode (g : Code → Code) (d : Draft) : (d.mapCode g).codes = d.codes.map g := by
  match d with
  | ⟨code, none⟩ => rfl
  | ⟨code, some ds⟩ => rw [mapCode, codes, codesOf_mapCodes g ds, codes, List.map_cons]

theorem codesOf_mapCodes (g : Code → Code) (ds : List (Option Draft)) :
    codesOf (mapCodes g ds) = (codesOf ds).map g := by
  match ds with
  | [] => rfl
  | none :: ds => exact codesOf_mapCodes g ds
  | some d :: ds =>
    rw [mapCodes, codesOf, codes_mapCode g d, codesOf_mapCodes g ds, codesOf, List.map_append]

end

end Draft

namespace ChunkFile

theorem codes_quieted (f : ChunkFile) : f.quieted.codes = f.codes.map Code.quieted := by
  have hroot : f.quieted.walk.map Prototype.toCode =
      (f.walk.map Prototype.toCode).map Code.quieted := by
    unfold walk quieted
    cases f.root with
    | none => rfl
    | some p =>
      show (p.mapCode Code.quieted).walk.map Prototype.toCode = _
      rw [← Prototype.codes_toDraft, p.toDraft_mapCode, Draft.codes_mapCode, p.codes_toDraft]
  have hfurther : Draft.codesOf f.quieted.prototypes.items =
      (Draft.codesOf f.prototypes.items).map Code.quieted := by
    unfold quieted
    cases f.prototypes with
    | none => rfl
    | some ds => exact Draft.codesOf_mapCodes Code.quieted ds
  rw [codes, hroot, hfurther, codes, List.map_append]

theorem isText_quieted (f : ChunkFile) : f.quieted.isText = f.isText := by
  rw [isText, codes_quieted, List.all_map, isText]
  exact congrArg (f.header.isText && f.codes.all ·) (funext Code.isText_quieted)

/-- Settled constants are told by their items and their tags. -/
theorem Exportable.normalize {f : ChunkFile} (hf : f.Exportable) {p : Prototype}
    (hp : f.root = some p) :
    ((p.mapCode Code.quieted).mapCode Code.loosened).normalize f.header.integers =
      p.mapCode Code.quieted := by
  have hcode : ∀ q ∈ p.walk, (q.quieted.loosened).normalize f.header.integers = q.quieted := by
    intro q hq
    have hq' : q ∈ f.walk := by rwa [walk, hp]
    have hfold : q.toCode.quieted.loosened = q.mapConstants fun k => k.quieted.loosened :=
      Code.mapConstants_mapConstants fun _ _ => rfl
    rw [hfold]
    exact Code.mapConstants_mapConstants fun k hk => (hf.settled q hq' k hk).quieted
  have hloosened : (p.mapCode Code.quieted).mapCode Code.loosened =
      p.mapCode fun c => c.quieted.loosened := Prototype.mapCode_mapCode fun _ _ => rfl
  rw [Prototype.normalize_eq, hloosened, Prototype.mapCode_mapCode hcode]

theorem Exportable.loosened {f : ChunkFile} (hf : f.Exportable) :
    f.quieted.prototypes.map (Draft.mapCodes Code.loosened) = f.quieted.prototypes := by
  have hcode : ∀ c ∈ Draft.codesOf f.prototypes.items, c.quieted.loosened = c.quieted := by
    intro c hc
    exact Code.mapConstants_mapConstants fun k hk =>
      Constant.loosened_quieted (hf.further c hc k hk)
  show (f.prototypes.map (Draft.mapCodes Code.quieted)).map (Draft.mapCodes Code.loosened) =
    f.prototypes.map (Draft.mapCodes Code.quieted)
  cases hds : f.prototypes with
  | none => rfl
  | some ds =>
    rw [hds] at hcode
    exact congrArg some (Draft.mapCodes_mapCodes ds hcode)

/-- **Exports are read back.** An export with settled constants is read back exactly if all its
texts are UTF-8 and it is within the limits of the reader, and then gives the file with all
not-a-numbers made one. -/
theorem imported_toBytes {f : ChunkFile} (hf : f.Exportable)
    (hlength : f.exported.length < 2 ^ 64) :
    imported f.exported =
      if f.isText && f.toItem.within maxLevels then .ok f.quieted else .error .malformed := by
  have hexportable : ∀ c ∈ f.quieted.codes, c.Exportable := by
    rw [codes_quieted, List.forall_mem_map]
    exact fun c hc => (hf.codes c hc).quieted
  rw [imported, exported, ofBytes?_toBytes (plain_toItem hf.codes) hlength]
  cases hwithin : f.toItem.within maxLevels with
  | false => simp
  | true =>
    have hwithin' : f.quieted.toItem.within maxLevels := by
      rw [← quieted_toItem hf.codes, within_quieted, hwithin]
    rw [if_pos rfl, Option.bind_some, quieted_toItem hf.codes,
      draftsOfItem?_toItem hexportable hwithin', isText_quieted]
    cases f.isText with
    | false => rfl
    | true =>
      rw [if_pos rfl, hf.loosened]
      cases hroot : f.root with
      | none => simp [quieted, hroot]
      | some p =>
        have hcomplete : ((p.mapCode Code.quieted).toDraft.mapCode Code.loosened).complete? =
            some ((p.mapCode Code.quieted).mapCode Code.loosened) := by
          rw [← Prototype.toDraft_mapCode, Prototype.complete?_toDraft]
        have hnormalize := hf.normalize hroot
        simp [quieted, hroot, hcomplete, hnormalize]

end ChunkFile

end HavokScript
