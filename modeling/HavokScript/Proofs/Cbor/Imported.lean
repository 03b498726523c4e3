import HavokScript.Proofs.Cbor.Export
import HavokScript.Proofs.Outcome

/-!
# What an export is read as

Whatever item a part is read from, its integers have 64 bits, its texts are UTF-8, and its payloads
are told by items (`Payload.loosened` does not change them). Fitting a constant to its tag then
settles it (`Constant.settled_normalize`). So a file that was read can be exported again, unless it
has a payload that no chunk has (`ChunkFile.imported_exportable`).
-/

namespace HavokScript

/-! ## Texts in chunks -/

namespace Utf8

theorem multi?_append {lead : UInt8} {rest : Bytes} {r : Piece × Bytes}
    (h : multi? lead rest = some r) :
    r.2.length ≤ rest.length ∧ ∀ bs, multi? lead (rest ++ bs) = some (r.1, r.2 ++ bs) := by
  unfold multi? at h ⊢
  dsimp only at h ⊢
  split_ifs at h ⊢ with htwo hthree hfour
  · match rest, h with
    | b :: rest, h =>
      obtain ⟨x, hx, h⟩ := Option.bind_eq_some_iff.mp h
      cases h
      simp [hx]
  · match rest, h with
    | b :: c :: rest, h =>
      obtain ⟨x, hx, h⟩ := Option.bind_eq_some_iff.mp h
      obtain ⟨y, hy, h⟩ := Option.bind_eq_some_iff.mp h
      cases h
      simp [hx, hy]
      omega
  · match rest, h with
    | b :: c :: d :: rest, h =>
      obtain ⟨x, hx, h⟩ := Option.bind_eq_some_iff.mp h
      obtain ⟨y, hy, h⟩ := Option.bind_eq_some_iff.mp h
      obtain ⟨z, hz, h⟩ := Option.bind_eq_some_iff.mp h
      cases h
      simp [hx, hy, hz]
      omega

theorem length_first (lead : UInt8) (rest : Bytes) : (first lead rest).2.length ≤ rest.length := by
  unfold first
  split
  · exact Nat.le_refl _
  · cases h : multi? lead rest with
    | none => exact Nat.le_refl _
    | some r => exact (multi?_append h).1

/-- A character does not depend on what follows it. -/
theorem first_append {lead : UInt8} {rest : Bytes} (h : (first lead rest).1.isChar) (bs : Bytes) :
    first lead (rest ++ bs) = ((first lead rest).1, (first lead rest).2 ++ bs) := by
  unfold first at h ⊢
  split
  · rfl
  · rename_i hlead
    rw [if_neg hlead] at h
    cases hmulti : multi? lead rest with
    | none =>
      rw [hmulti] at h
      cases h
    | some r =>
      rw [(multi?_append hmulti).2]
      rfl

theorem scanAux_fuel {m n : Nat} {bs : Bytes} (hm : bs.length ≤ m) (hn : bs.length ≤ n) :
    scanAux m bs = scanAux n bs := by
  induction m generalizing n bs with
  | zero =>
    rw [List.eq_nil_of_length_eq_zero (Nat.le_zero.mp hm)]
    cases n <;> rfl
  | succ m ih =>
    match bs, n with
    | [], n => cases n <;> rfl
    | b :: bs, n + 1 =>
      have hrest := length_first b bs
      simp only [List.length_cons] at hm hn
      have htail : scanAux m (first b bs).2 = scanAux n (first b bs).2 :=
        ih (by omega) (by omega)
      exact congrArg ((first b bs).1 :: ·) htail

theorem isValid_cons (b : UInt8) (bs : Bytes) :
    isValid (b :: bs) = ((first b bs).1.isChar && isValid (first b bs).2) := by
  have hrest : scanAux bs.length (first b bs).2 = scan (first b bs).2 :=
    scanAux_fuel (length_first b bs) (Nat.le_refl _)
  unfold isValid
  rw [← hrest]
  rfl

theorem isValid_append {a b : Bytes} (ha : isValid a) (hb : isValid b) : isValid (a ++ b) := by
  -- The rest behind the first character of `a` is shorter than `a`.
  induction hn : a.length using Nat.strongRecOn generalizing a with
  | ind n ih =>
    cases a with
    | nil => exact hb
    | cons x xs =>
      rw [isValid_cons, Bool.and_eq_true] at ha
      rw [List.cons_append, isValid_cons, first_append ha.1, ha.1, Bool.true_and]
      have := length_first x xs
      rw [List.length_cons] at hn
      exact ih _ (by omega) ha.2 rfl

theorem isValid_flatten {chunks : List Bytes} (h : ∀ c ∈ chunks, isValid c) :
    isValid chunks.flatten := by
  induction chunks with
  | nil => rfl
  | cons c chunks ih =>
    rw [List.forall_mem_cons] at h
    exact isValid_append h.1 (ih h.2)

end Utf8

/-! ## What is read from items -/

namespace Cbor.Item

theorem yields_textOf? (chunks : List Bytes) :
    Yields (fun s => Utf8.isValid s) (textOf? chunks) := by
  intro s h
  unfold textOf? at h
  split at h
  · rename_i hchunks
    cases h
    exact Utf8.isValid_flatten (List.all_eq_true.mp hchunks)
  · cases h

theorem yields_text? (i : Item) : Yields (fun s => Utf8.isValid s) i.text? := by
  refine (yields_any _).bind fun j _ => ?_
  split
  · exact yields_textOf? _
  · split
    · exact Yields.pure rfl
    · exact nofun

theorem yields_int? (i : Item) : Yields Fits64 i.int? := by
  refine (yields_any _).bind fun n _ => ?_
  split
  · rename_i hrange
    exact Yields.pure hrange
  · exact nofun

variable {α : Type} {P : α → Prop} {read : Item → Option α}

theorem yields_mapM (hread : ∀ i, Yields P (read i)) (items : List Item) :
    Yields (fun xs => ∀ x ∈ xs, P x) (items.mapM read) := by
  induction items with
  | nil => exact Yields.pure (by simp)
  | cons i items ih =>
    rw [List.mapM_cons]
    refine (hread i).bind fun x hx => ih.bind fun xs hxs => Yields.pure ?_
    exact List.forall_mem_cons.mpr ⟨hx, hxs⟩

theorem yields_list? (hread : ∀ i, Yields P (read i)) (i : Item) :
    Yields (fun s => ∀ x ∈ Section.items s, P x) (i.list? read) := by
  refine (yields_any _).bind fun j _ => ?_
  split
  · intro s hs
    obtain ⟨xs, hxs, rfl⟩ := Option.map_eq_some_iff.mp hs
    exact yields_mapM hread _ xs hxs
  · split
    · exact Yields.pure nofun
    · exact nofun

end Cbor.Item

open Cbor Cbor.Item

theorem Cbor.yields_optional? {α : Type} {P : α → Prop} {read : Item → Option α}
    (hread : ∀ i, Yields P (read i)) (i : Item) :
    Yields (fun x => ∀ a, x = some a → P a) (optional? read i) := by
  unfold optional?
  split
  · exact Yields.pure nofun
  · intro x hx
    obtain ⟨a, ha, rfl⟩ := Option.map_eq_some_iff.mp hx
    rintro _ ⟨⟩
    exact hread i a ha

/-! ## Constants and instructions -/

/-- An item tells the payload as it is. -/
theorem Payload.isText_ofItem? {bare : Bool} (i : Item) {p : Payload}
    (h : Payload.ofItem? bare i = some p) : p.isText ∧ p.loosened = p := by
  match i with
  | .unsigned n | .bytes chunks | .float x =>
    cases h
    exact ⟨rfl, rfl⟩
  | .negative n =>
    rw [ofItem?] at h
    split at h
    · rename_i hn
      have hnegative : ¬ 0 ≤ (Int64.ofInt (-1 - n.toNat)).toInt := by
        rw [Int64.toInt_ofInt_of_le (by omega) (by omega)]
        omega
      cases h
      exact ⟨rfl, if_neg hnegative⟩
    · cases h
      exact ⟨rfl, rfl⟩
  | .text chunks =>
    obtain ⟨s, hs, rfl⟩ := Option.map_eq_some_iff.mp h
    exact ⟨yields_textOf? chunks s hs, rfl⟩
  | .array items =>
    obtain ⟨ps, -, rfl⟩ := Option.map_eq_some_iff.mp h
    exact ⟨rfl, rfl⟩
  | .map entries =>
    obtain ⟨es, -, rfl⟩ := Option.map_eq_some_iff.mp h
    exact ⟨rfl, rfl⟩
  | .simple code =>
    rw [ofItem?] at h
    split_ifs at h <;> cases h <;> exact ⟨rfl, rfl⟩
  | .tagged tag j =>
    rw [ofItem?] at h
    split_ifs at h with hbare hadmits hinstant hbig
    · exact isText_ofItem? j h
    · obtain ⟨t, -, rfl⟩ := Option.map_eq_some_iff.mp h
      exact ⟨rfl, rfl⟩
    · obtain ⟨n, -, rfl⟩ := Option.map_eq_some_iff.mp h
      exact ⟨rfl, rfl⟩
    · obtain ⟨q, -, rfl⟩ := Option.map_eq_some_iff.mp h
      exact ⟨rfl, rfl⟩

/-- The constant is one that was read: its text is UTF-8, and its item tells it. -/
structure Constant.Read (k : Constant) : Prop where
  isText : k.payload.isText
  loosened : k.loosened = k

theorem Constant.yields_ofItem? (i : Item) : Yields Constant.Read (ofItem? i) := by
  refine (yields_any _).bind fun fs _ => (yields_any _).bind fun tag _ => ?_
  have hpayload : Yields (fun p => p.isText ∧ p.loosened = p) (Payload.ofItem? true (fs.get 2)) :=
    fun p hp => Payload.isText_ofItem? _ hp
  refine hpayload.bind fun p hp => Yields.pure ⟨hp.1, ?_⟩
  exact congrArg (Constant.mk ⟨tag⟩) hp.2

theorem Operand.yields_ofItem? (i : Item) : Yields (fun o => Fits64 o.value) (ofItem? i) :=
  (yields_any _).bind fun _ _ => (yields_any _).bind fun _ _ =>
    (yields_int? _).bind fun _ hvalue => Yields.pure hvalue

theorem Instruction.yields_ofItem? (i : Item) : Yields Instruction.Fits (ofItem? i) :=
  (yields_any _).bind fun _ _ => (yields_int? _).bind fun _ haddress =>
    (yields_any _).bind fun _ _ => (yields_any _).bind fun _ _ =>
    (yields_list? Operand.yields_ofItem? _).bind fun _ hoperands =>
    Yields.pure ⟨haddress, hoperands⟩

theorem TypeRecord.yields_ofItem? (i : Item) :
    Yields (fun t => Utf8.isValid t.name) (ofItem? i) :=
  (yields_any _).bind fun _ _ => (yields_any _).bind fun _ _ =>
    (yields_text? _).bind fun _ hname => Yields.pure hname

theorem Header.yields_ofItem? (i : Item) : Yields (fun h => h.isText) (ofItem? i) :=
  (yields_any _).bind fun _ _ => (yields_any _).bind fun _ _ => (yields_any _).bind fun _ _ =>
    (yields_any _).bind fun _ _ => (yields_any _).bind fun _ _ => (yields_any _).bind fun _ _ =>
    (yields_any _).bind fun _ _ => (yields_any _).bind fun _ _ => (yields_any _).bind fun _ _ =>
    (yields_any _).bind fun _ _ => (yields_any _).bind fun _ _ => (yields_any _).bind fun _ _ =>
    (yields_list? TypeRecord.yields_ofItem? _).bind fun _ htypes =>
    Yields.pure (List.all_eq_true.mpr htypes)

/-! ## Functions -/

/-- The function is one that was read. -/
structure Code.Read (c : Code) : Prop where
  address : Fits64 c.address
  instructions : ∀ i ∈ c.instructions.items, i.Fits
  constants : ∀ k ∈ c.constants.items, k.Read

theorem Code.yields_ofFields? (fs : Item.Fields) : Yields Code.Read (ofFields? fs) :=
  (yields_int? _).bind fun _ haddress => (yields_any _).bind fun _ _ =>
    (yields_any _).bind fun _ _ => (yields_any _).bind fun _ _ => (yields_any _).bind fun _ _ =>
    (yields_list? Instruction.yields_ofItem? _).bind fun _ hinstructions =>
    (yields_list? Constant.yields_ofItem? _).bind fun _ hconstants =>
    (yields_any _).bind fun _ _ => Yields.pure ⟨haddress, hinstructions, hconstants⟩

namespace Draft

theorem forall_codesOf {P : Code → Prop} {ds : List (Option Draft)} :
    (∀ c ∈ codesOf ds, P c) ↔ ∀ d, some d ∈ ds → ∀ c ∈ d.codes, P c := by
  induction ds with
  | nil => simp [codesOf]
  | cons d ds ih =>
    cases d with
    | none => simp [codesOf, ih]
    | some d =>
      rw [codesOf, List.forall_mem_append, ih]
      constructor
      · rintro ⟨hd, hds⟩ e he
        rcases List.mem_cons.mp he with he | he
        · cases he
          exact hd
        · exact hds e he
      · exact fun h => ⟨h d List.mem_cons_self, fun e he => h e (List.mem_cons_of_mem _ he)⟩

theorem forall_codes {P : Code → Prop} {d : Draft} :
    (∀ c ∈ d.codes, P c) ↔
      P d.toCode ∧ ∀ e, some e ∈ Section.items d.closures → ∀ c ∈ e.codes, P c := by
  obtain ⟨code, _ | ds⟩ := d
  · rw [codes, List.forall_mem_singleton]
    exact ⟨fun h => ⟨h, nofun⟩, fun h => h.1⟩
  · rw [codes, List.forall_mem_cons, forall_codesOf]
    rfl

theorem yields_ofItem? (levels : Nat) (i : Item) :
    Yields (fun d => ∀ c ∈ d.codes, c.Read) (ofItem? levels i) := by
  induction levels generalizing i with
  | zero => exact nofun
  | succ levels ih =>
    rw [ofItem?]
    refine (yields_any _).bind fun fs _ => (Code.yields_ofFields? fs).bind fun code hcode =>
      (yields_list? (yields_optional? ih) _).bind fun closures hclosures => Yields.pure ?_
    exact forall_codes.mpr ⟨hcode, fun e he => hclosures (some e) he e rfl⟩

mutual

theorem toDraft_complete? (d : Draft) {p : Prototype} (h : d.complete? = some p) :
    p.toDraft = d := by
  match d with
  | ⟨code, none⟩ =>
    cases h
    rfl
  | ⟨code, some ds⟩ =>
    obtain ⟨ps, hps, rfl⟩ := Option.map_eq_some_iff.mp h
    rw [Prototype.toDraft, toDrafts_completeAll? ds hps]

theorem toDrafts_completeAll? (ds : List (Option Draft)) {ps : List Prototype}
    (h : completeAll? ds = some ps) : Prototype.toDrafts ps = ds := by
  match ds with
  | [] =>
    cases h
    rfl
  | none :: ds => cases h
  | some d :: ds =>
    obtain ⟨p, hp, h⟩ := Option.bind_eq_some_iff.mp h
    obtain ⟨ps, hps, h⟩ := Option.bind_eq_some_iff.mp h
    cases h
    rw [Prototype.toDrafts, toDraft_complete? d hp, toDrafts_completeAll? ds hps]

end

end Draft

/-! ## Constants that were fitted to their tags -/

namespace Constant

/-- What fitting can do: nothing, or it gives the kind of number that the tag asks for. -/
theorem normalize_cases (integers : Bool) (k : Constant) :
    k.normalize integers = k ∨
    (integers = true ∧ ∃ i, k.normalize integers = ⟨.number, .signed i⟩) ∨
    (integers = false ∧ ∃ x, k.normalize integers = ⟨.number, .float x⟩) ∨
    ∃ tag n, (tag = .lightUserdata ∨ tag = .ui64) ∧ k.normalize integers = ⟨tag, .unsigned n⟩ := by
  obtain ⟨tag, p⟩ := k
  unfold normalize
  dsimp only
  split_ifs with hnumber haddress
  · subst hnumber
    cases integers with
    | true => cases p <;> simp
    | false => cases p <;> simp [Payload.float?]
  · cases p <;> simp [haddress]
  · exact .inl rfl

theorem settled_normalize (integers : Bool) {k : Constant} (hk : k.loosened = k) :
    (k.normalize integers).Settled integers := by
  rcases k.normalize_cases integers with hsame | ⟨rfl, i, hi⟩ | ⟨rfl, x, hx⟩ | ⟨tag, n, htag, hn⟩
  · rw [hsame, Settled, hk, hsame]
  · rw [hi]
    exact settled_signed i
  · rw [hx]
    rfl
  · rw [hn]
    rcases htag with rfl | rfl <;> rfl

theorem isText_normalize (integers : Bool) {k : Constant} (hk : k.payload.isText) :
    (k.normalize integers).payload.isText := by
  rcases k.normalize_cases integers with hsame | ⟨-, i, hi⟩ | ⟨-, x, hx⟩ | ⟨tag, n, -, hn⟩
  · rwa [hsame]
  · rw [hi]
    rfl
  · rw [hx]
    rfl
  · rw [hn]
    rfl

end Constant

/-! ## Files -/

namespace Code

theorem items_normalize (integers : Bool) (c : Code) :
    (c.normalize integers).constants.items = c.constants.items.map (Constant.normalize integers) :=
  c.items_mapConstants (Constant.normalize integers)

theorem Read.isText {c : Code} (hc : c.Read) : c.isText :=
  List.all_eq_true.mpr fun k hk => (hc.constants k hk).isText

theorem Read.isText_normalize {c : Code} (hc : c.Read) (integers : Bool) :
    (c.normalize integers).isText := by
  rw [Code.isText, items_normalize, List.all_map, List.all_eq_true]
  exact fun k hk => Constant.isText_normalize integers (hc.constants k hk).isText

theorem Read.settled_normalize {c : Code} (hc : c.Read) (integers : Bool) :
    ∀ k ∈ (c.normalize integers).constants.items, k.Settled integers := by
  rw [items_normalize, List.forall_mem_map]
  exact fun k hk => Constant.settled_normalize integers (hc.constants k hk).loosened

end Code

namespace ChunkFile

/-- Reading gives the parts of an item, with the constants below the main function fitted to their
tags. -/
theorem imported_ok {data : Bytes} {g : ChunkFile} (h : imported data = .ok g) :
    ∃ (i : Item) (root : Option Prototype),
      draftsOfItem? i = some (g.header, root.map Prototype.toDraft, g.prototypes) ∧
      g.root = root.map (Prototype.normalize g.header.integers) := by
  unfold imported at h
  split at h
  · cases h
  · rename_i header further hparts
    cases h
    obtain ⟨i, -, hi⟩ := Option.bind_eq_some_iff.mp hparts
    exact ⟨i, none, hi, rfl⟩
  · rename_i header draft further hparts
    obtain ⟨i, -, hi⟩ := Option.bind_eq_some_iff.mp hparts
    split at h
    · rename_i root hroot
      cases h
      refine ⟨i, some root, ?_, rfl⟩
      rw [hi, Option.map_some, draft.toDraft_complete? hroot]
    · cases h

theorem yields_draftsOfItem? (i : Item) :
    Yields (fun parts : Header × Option Draft × Section (Option Draft) => parts.1.isText ∧
      (∀ d, parts.2.1 = some d → ∀ c ∈ d.codes, c.Read) ∧
      ∀ c ∈ Draft.codesOf parts.2.2.items, c.Read) (draftsOfItem? i) := by
  have hdraft := yields_optional? (Draft.yields_ofItem? maxLevels)
  refine (yields_any _).bind fun fs _ => (Header.yields_ofItem? _).bind fun header hheader =>
    (hdraft _).bind fun root hroot => (yields_list? hdraft _).bind fun further hfurther =>
    Yields.pure ⟨hheader, hroot, ?_⟩
  exact Draft.forall_codesOf.mpr fun d hd => hfurther (some d) hd d rfl

/-- The functions below the main one are those that were read, with their constants fitted. -/
theorem exists_of_mem_walk {g : ChunkFile} {root : Option Prototype}
    (hroot : g.root = root.map (Prototype.normalize g.header.integers))
    (hread : ∀ d, root.map Prototype.toDraft = some d → ∀ c ∈ d.codes, c.Read) :
    ∀ p ∈ g.walk, ∃ c : Code, c.Read ∧ p.toCode = c.normalize g.header.integers := by
  rw [walk, hroot]
  cases root with
  | none => simp
  | some p =>
    intro q hq
    have hcodes : (p.normalize g.header.integers).walk.map Prototype.toCode =
        p.toDraft.codes.map (Code.normalize g.header.integers) := by
      rw [← Prototype.codes_toDraft, Prototype.normalize_eq, p.toDraft_mapCode,
        Draft.codes_mapCode]
    have hmem : q.toCode ∈ (p.normalize g.header.integers).walk.map Prototype.toCode :=
      List.mem_map_of_mem hq
    rw [hcodes] at hmem
    obtain ⟨c, hc, hcq⟩ := List.mem_map.mp hmem
    exact ⟨c, hread p.toDraft rfl c hc, hcq.symm⟩

/-- A file that was read can be exported, if its payloads are those that a chunk can have. -/
theorem imported_exportable {data : Bytes} {g : ChunkFile} (h : imported data = .ok g)
    (hbasic : ∀ c ∈ g.codes, ∀ k ∈ c.constants.items, k.payload.isBasic) :
    g.Exportable ∧ g.isText := by
  obtain ⟨i, root, hparts, hroot⟩ := imported_ok h
  obtain ⟨hheader, hread, hfurther⟩ := yields_draftsOfItem? i _ hparts
  have hwalk := exists_of_mem_walk hroot hread
  have hcodes : ∀ c ∈ g.codes,
      Fits64 c.address ∧ (∀ i ∈ c.instructions.items, i.Fits) ∧ c.isText := by
    rw [codes, List.forall_mem_append, List.forall_mem_map]
    refine ⟨fun p hp => ?_, fun c hc => ?_⟩
    · obtain ⟨c, hc, hpc⟩ := hwalk p hp
      rw [hpc]
      exact ⟨hc.address, hc.instructions, hc.isText_normalize _⟩
    · have hc := hfurther c hc
      exact ⟨hc.address, hc.instructions, hc.isText⟩
  refine ⟨⟨fun c hc => ?_, fun p hp => ?_, fun c hc k hk => ?_⟩, ?_⟩
  · exact ⟨(hcodes c hc).1, (hcodes c hc).2.1, hbasic c hc⟩
  · obtain ⟨c, hc, hpc⟩ := hwalk p hp
    rw [hpc]
    exact hc.settled_normalize _
  · exact ((hfurther c hc).constants k hk).loosened
  · rw [isText, hheader, Bool.true_and, List.all_eq_true]
    exact fun c hc => (hcodes c hc).2.2

end ChunkFile

end HavokScript
