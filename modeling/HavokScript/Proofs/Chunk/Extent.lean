import HavokScript.Proofs.Chunk.Decoded
import HavokScript.Proofs.Chunk.Delimited
import Mathlib.Algebra.GroupWithZero.Nat
import Mathlib.Algebra.Order.BigOperators.Group.List
import Mathlib.Algebra.Order.Group.Nat

/-!
# Every part of a file takes its bytes

A chunk file says how many type records, constants and closures follow, and nothing bounds these numbers.
Still no small file is read as a large one, for every part that is read has passed bytes of its own:
`ChunkFile.extent` adds up how many, and `decode_extent` says that they are all in front of the position
at which reading ended.

`Decoder.Pays` carries this through the readers. A step pays for its value with the bytes it passes, and
with credit: bytes that were passed in front of it and not yet spent. What a step has passed is credit for
the step behind it (`Pays.bind`), and the record at the end of a reader spends it all.
-/

namespace HavokScript

/-! ## What the parts of a file take -/

/-- The bytes of a type record that do not depend on how its name is padded: the number of the type, the
length of the name, and the name. -/
def TypeRecord.extent (t : TypeRecord) : Nat := 8 + t.name.length

/-- The fields of a header, and its type records. -/
def Header.extent (h : Header) : Nat := 18 + (h.types.items.map TypeRecord.extent).sum

/-- The tag of a constant and its payload, without the terminator of a string. -/
def Constant.extent (h : Header) (k : Constant) : Nat :=
  if k.tag = .boolean then 2
  else if k.tag = .number then 1 + h.numberSize.toNat
  else if k.tag = .string then 1 + h.sizeSize.toNat + k.stringOrEmpty.length
  else if k.tag = .lightUserdata then 1 + h.sizeSize.toNat
  else if k.tag = .ui64 then 9
  else 1

/-- The fields of a function, the words of its instructions and its constants. -/
def Code.extent (h : Header) (c : Code) : Nat :=
  25 + h.sizeSize.toNat + 4 * c.instructions.items.length + (if c.debug.isSome then 4 else 0) +
    (c.constants.items.map (Constant.extent h)).sum

/-- The header, the main function and all functions below it. -/
def ChunkFile.extent (f : ChunkFile) : Nat :=
  f.header.extent + (f.walk.map fun p => p.toCode.extent f.header).sum

/-- A function, its instructions and its constants. -/
def Code.elements (c : Code) : Nat := 1 + c.instructions.items.length + c.constants.items.length

/-- How many type records, functions, instructions and constants there are. -/
def ChunkFile.elements (f : ChunkFile) : Nat :=
  f.header.types.items.length + (f.walk.map fun p => p.toCode.elements).sum

namespace Prototype

theorem walk_ofItems (code : Code) (ps : List Prototype) :
    walk ⟨code, Section.ofItems ps⟩ = ⟨code, Section.ofItems ps⟩ :: walkAll ps := by
  cases ps <;> rfl

theorem sum_walkAll (cost : Prototype → Nat) (ps : List Prototype) :
    ((walkAll ps).map cost).sum = (ps.map fun p => (p.walk.map cost).sum).sum := by
  induction ps with
  | nil => rfl
  | cons p ps ih => rw [walkAll, List.map_append, List.sum_append, ih, List.map_cons, List.sum_cons]

end Prototype

theorem Constant.one_le_extent (h : Header) (k : Constant) : 1 ≤ k.extent h := by
  unfold extent
  split_ifs <;> omega

theorem Code.elements_le (h : Header) (c : Code) : c.elements ≤ c.extent h := by
  have := List.length_le_sum_of_one_le (c.constants.items.map (Constant.extent h)) <| by
    simp [Constant.one_le_extent]
  rw [List.length_map] at this
  unfold elements extent
  omega

theorem ChunkFile.elements_le (f : ChunkFile) : f.elements ≤ f.extent := by
  have htypes := List.length_le_sum_of_one_le (f.header.types.items.map TypeRecord.extent) <| by
    simp [TypeRecord.extent, Nat.le_add_right_of_le]
  have hcodes : (f.walk.map fun p => p.toCode.elements).sum ≤
      (f.walk.map fun p => p.toCode.extent f.header).sum :=
    List.sum_le_sum fun p _ => p.toCode.elements_le f.header
  rw [List.length_map] at htypes
  unfold elements extent Header.extent
  omega

namespace Decoder

variable {α β : Type} {credit credit' : Nat}

/-! ## Paying -/

/-- Whenever the step succeeds, the bytes it passes make up for the cost of its value together with
`credit` bytes that were passed before. -/
def Pays (credit : Nat) (step : Decoder α) (cost : α → Nat) : Prop :=
  ∀ ⦃c x c'⦄, step c = .ok (x, c') → c.offset + cost x ≤ c'.offset + credit

namespace Pays

variable {cost : α → Nat} {cost' : β → Nat}

/-- What the first step passes is credit for the second one, which may rely on what the first one
gives. -/
theorem bindGiven {P : α → Prop} {s : Decoder α} {f : α → Decoder β}
    (hgives : Gives P (fun _ => True) s) (hs : Pays 0 s cost)
    (hf : ∀ x, P x → Pays (credit + cost x) (f x) cost') : Pays credit (s >>= f) cost' := by
  intro c y c' h
  obtain ⟨x, t, hx, hy⟩ := ok_of_bind h
  have := hs hx
  have := hf x (hgives.of_ok hx) hy
  omega

theorem bind {s : Decoder α} {f : α → Decoder β} (hs : Pays 0 s cost)
    (hf : ∀ x, Pays (credit + cost x) (f x) cost') : Pays credit (s >>= f) cost' :=
  bindGiven (gives_any s) hs fun x _ => hf x

theorem pure {x : α} (hx : cost x ≤ credit) : Pays credit (pure x) cost := by
  intro c y c' h
  obtain ⟨rfl, rfl⟩ := ok_of_pure h
  omega

theorem map {s : Decoder α} {g : α → β} (hs : Pays credit s cost) (hg : ∀ x, cost' (g x) ≤ cost x) :
    Pays credit (s >>= fun x => Pure.pure (g x)) cost' := by
  intro c y c' h
  obtain ⟨x, t, hx, hy⟩ := ok_of_bind h
  obtain ⟨rfl, rfl⟩ := ok_of_pure hy
  have := hs hx
  have := hg x
  omega

theorem look {f : Cursor → Decoder α} (hf : ∀ c, Pays credit (f c) cost) :
    Pays credit (get >>= f) cost := fun c _ _ h => hf c h

theorem within {s : Decoder α} (context : Context) (hs : Pays credit s cost) :
    Pays credit (within context s) cost := fun _ _ _ h => hs (within_ok.mp h)

/-- A check, which passes nothing. -/
theorem check {p : Prop} [Decidable p] {cause : DecodeCause} {f : Unit → Decoder α}
    (hf : p → Pays credit (f ()) cost) :
    Pays credit (if p then f () else Decoder.fail cause >>= f) cost := by
  split
  · exact hf ‹p›
  · exact nofun

theorem repeated {item : Nat → Decoder α} (hitem : ∀ i, Pays 0 (item i) cost) (i count : Nat) :
    Pays 0 (repeated item i count) fun xs => (xs.map cost).sum := by
  induction count generalizing i with
  | zero => exact pure (Nat.le_refl 0)
  | succ count ih =>
    refine (hitem i).bind fun x => (ih (i + 1)).bind fun xs => pure ?_
    simp only [List.map_cons, List.sum_cons]
    omega

end Pays

theorem Advances.pays {step : Decoder α} {n : Nat} (h : Advances step n) :
    Pays 0 step fun _ => n := fun _ _ _ hstep => h hstep

/-! ## The readers -/

theorem unsigned_pays (width : Nat) : Pays 0 (lift (Cursor.unsigned width)) fun _ => width :=
  ((unsigned_takesBytes width).advances fun _ => Nat.le_refl width).pays

theorem integer_pays (width : Nat) : Pays 0 (lift (Cursor.integer width)) fun _ => width :=
  ((integer_takesBytes width).advances fun _ => Nat.le_refl width).pays

theorem sized_pays (width : Nat) : Pays 0 (lift (Cursor.sized width)) fun _ => width := by
  unfold Cursor.sized
  split
  · exact unsigned_pays _
  · exact nofun

theorem byte_pays (part : Part) : Pays 0 (byte part) fun _ => 1 :=
  ((unsigned_pays 1).within _).bind fun _ => .pure (Nat.le_refl 1)

theorem word_pays (part : Part) : Pays 0 (word part) fun _ => 4 := (word_advances part).pays

theorem take_pays (n : Int) : Pays 0 (lift (Cursor.take n)) List.length := by
  intro c bs c' h
  unfold lift at h
  rw [Cursor.take] at h
  split_ifs at h
  cases h
  have := List.length_take_le n.toNat (c.data.drop c.offset)
  show c.offset + _ ≤ c.offset + n.toNat + 0
  omega

theorem setOrder_pays (order : ByteOrder) :
    Pays 0 (lift (Cursor.setOrder order)) fun _ => 0 := by
  intro c _ c' h
  cases h
  exact Nat.le_refl _

/-- A name is not longer than the bytes it was padded to. -/
theorem length_trimZeros_le (name : Bytes) : (trimZeros name).length ≤ name.length := by
  have := (List.dropWhile_sublist (· = (0 : UInt8)) (l := name.reverse)).length_le
  rw [List.length_reverse] at this
  rwa [trimZeros, List.length_reverse]

theorem typeRecord_pays (i : Nat) : Pays 0 (typeRecord i) TypeRecord.extent := by
  refine (word_pays _).bind fun id => ((integer_pays 4).within _).bind fun length =>
    ((take_pays length).within _).bind fun name => .pure ?_
  have := length_trimZeros_le name
  show 8 + (trimZeros name).length ≤ _
  omega

theorem header_pays : Pays 0 header Header.extent := by
  refine (word_pays _).bind fun _ => (byte_pays _).bind fun _ => (byte_pays _).bind fun _ =>
    .check fun _ => (byte_pays _).bind fun _ => ?_
  refine (setOrder_pays _).bind fun _ => (byte_pays _).bind fun _ => (byte_pays _).bind fun _ =>
    (byte_pays _).bind fun _ => (byte_pays _).bind fun _ => .check fun _ => .check fun _ =>
    .check fun _ => ?_
  refine (byte_pays _).bind fun _ => (byte_pays _).bind fun _ => (byte_pays _).bind fun _ =>
    (word_pays _).bind fun _ => (Pays.repeated typeRecord_pays _ _).bind fun types => .pure ?_
  simp only [Header.extent, Section.items_ofItems]
  omega

theorem check_gives {p : Prop} [Decidable p] {P : α → Prop} {cause : DecodeCause}
    {f : Unit → Decoder α} (hf : p → Gives P (fun _ => True) (f ())) :
    Gives P (fun _ => True) (if p then f () else fail cause >>= f) := by
  split
  · exact hf ‹p›
  · exact fun _ => trivial

/-- The width of numbers that a header is accepted with. -/
theorem header_numberSize :
    Gives (fun h : Header => h.numberSize = 4 ∨ h.numberSize = 8) (fun _ => True) header := by
  refine (gives_any _).bind fun _ _ => (gives_any _).bind fun _ _ => (gives_any _).bind fun _ _ =>
    check_gives fun _ => (gives_any _).bind fun _ _ => (gives_any _).bind fun _ _ =>
    (gives_any _).bind fun _ _ => (gives_any _).bind fun _ _ => (gives_any _).bind fun _ _ =>
    (gives_any _).bind fun numberSize _ => check_gives fun _ => check_gives fun _ =>
    check_gives fun hnumber => ?_
  exact (gives_any _).bind fun _ _ => (gives_any _).bind fun _ _ => (gives_any _).bind fun _ _ =>
    (gives_any _).bind fun _ _ => (gives_any _).bind fun _ _ => Gives.pure hnumber

theorem size_pays (h : Header) : Pays 0 (size h) fun _ => h.sizeSize.toNat :=
  (sized_pays _).bind fun n => .look fun c => by
    split
    · exact nofun
    · exact .pure (by omega)

theorem instruction_pays (i : Nat) : Pays 0 (instruction i) fun _ => 4 :=
  (instruction_advances i).pays

theorem instructions_pays (h : Header) :
    Pays 0 (instructions h) fun is => h.sizeSize.toNat + 4 * is.length := by
  have hpad : Pays 0 (within .aligning (lift (Cursor.pad 4))) fun _ => 0 :=
    ((pad_takesBytes.advances fun _ => Nat.zero_le _).within _).pays
  refine ((size_pays h).within _).bind fun count => hpad.bind fun _ => .look fun c => ?_
  split
  · exact nofun
  · have hwords := Pays.repeated instruction_pays 0 count
    intro c is c' h
    have : c.offset + (is.map fun _ => 4).sum ≤ c'.offset := hwords h
    rw [List.map_const', List.sum_replicate_nat] at this
    show c.offset + (_ + 4 * is.length) ≤ _
    omega

theorem number_pays {h : Header} (hwidth : h.numberSize = 4 ∨ h.numberSize = 8) :
    Pays 0 (number h) fun _ => h.numberSize.toNat := by
  have hread : (if h.numberSize = 4 then 4 else 8) = h.numberSize.toNat := by
    rcases hwidth with hw | hw <;> rw [hw] <;> rfl
  unfold number
  rw [hread]
  dsimp only
  split
  · exact (integer_pays _).map fun _ => Nat.le_refl _
  · exact (unsigned_pays _).map fun _ => Nat.le_refl _

theorem string_pays (h : Header) :
    Pays 0 (string h) fun s => h.sizeSize.toNat + s.length := by
  refine ((size_pays h).within _).bind fun length => ?_
  split
  · exact .pure (by simp)
  · refine ((take_pays length).within _).bind fun s => .pure ?_
    rw [List.length_dropLast]
    omega

/-- The tag has been passed in front of the payload. -/
theorem payload_pays {h : Header} (hwidth : h.numberSize = 4 ∨ h.numberSize = 8) (offset : Nat)
    (tag : Tag) : Pays 1 (payload h offset tag) fun p => Constant.extent h ⟨tag, p⟩ := by
  unfold payload
  split_ifs with hnil hboolean haddress hnumber hstring hui64
  · subst hnil
    exact .pure (Nat.le_refl 1)
  · subst hboolean
    exact (unsigned_pays 1).bind fun _ => .pure (Nat.le_refl 2)
  · subst haddress
    exact (sized_pays _).bind fun _ => .pure (Nat.le_refl _)
  · subst hnumber
    intro c p c' hp
    have : c.offset + h.numberSize.toNat ≤ c'.offset := number_pays hwidth hp
    show c.offset + (1 + h.numberSize.toNat) ≤ _
    omega
  · subst hstring
    exact (string_pays h).bind fun s => .pure (Nat.le_of_eq (Nat.add_assoc ..))
  · subst hui64
    exact (unsigned_pays 8).bind fun _ => .pure (Nat.le_refl 9)
  · exact nofun

theorem constant_pays {h : Header} (hwidth : h.numberSize = 4 ∨ h.numberSize = 8) (i : Nat) :
    Pays 0 (constant h i) (Constant.extent h) :=
  .within _ <| .look fun c => (byte_pays _).bind fun tag =>
    (payload_pays hwidth c.offset ⟨tag⟩).map fun _ => Nat.le_refl _

theorem debug_pays : Pays 0 debug fun d => if d.isSome then 8 else 4 := by
  refine (word_pays _).bind fun flag => ?_
  split
  · exact (word_pays _).bind fun hash => .pure (by simp)
  · exact .pure (by simp)

/-- The number of closures, four bytes of a function, stands behind its code. -/
theorem code_pays {h : Header} (hwidth : h.numberSize = 4 ∨ h.numberSize = 8) :
    Pays 0 (code h) fun c => c.extent h - 4 := by
  refine .look fun c => (word_pays _).bind fun _ => (word_pays _).bind fun _ =>
    (byte_pays _).bind fun _ => (word_pays _).bind fun _ => (instructions_pays h).bind fun is =>
    (word_pays _).bind fun _ => (Pays.repeated (constant_pays hwidth) _ _).bind fun constants =>
    debug_pays.bind fun debug => .pure ?_
  rw [Code.extent, Section.items_ofItems, show (Section.items (some is)) = is from rfl]
  split_ifs <;> omega

theorem prototype_pays {h : Header} (hwidth : h.numberSize = 4 ∨ h.numberSize = 8) (depth : Nat) :
    Pays 0 (prototype h depth) fun p => (p.walk.map fun q => q.toCode.extent h).sum := by
  induction depth with
  | zero => exact nofun
  | succ depth ih =>
    refine (code_pays hwidth).bind fun c => (word_pays _).bind fun count =>
      (Pays.repeated (fun _ => ih) 0 count.toNat).bind fun ps => .pure ?_
    have hcode : 4 ≤ c.extent h := by
      unfold Code.extent
      omega
    rw [Prototype.walk_ofItems, List.map_cons, List.sum_cons, Prototype.sum_walkAll]
    show c.extent h + _ ≤ _
    omega

theorem file_pays : Pays 0 file ChunkFile.extent :=
  .bindGiven header_numberSize header_pays fun h hwidth => .look fun c =>
    (prototype_pays hwidth _).bind fun root => .pure (Nat.le_of_eq (by
      show h.extent + _ = 0 + h.extent + _
      rw [Nat.zero_add]
      rfl))

end Decoder

theorem ChunkFile.extent_le {data : Bytes} {f : ChunkFile} {c : Cursor}
    (h : Decoder.file (Cursor.start data .little) = .ok (f, c)) :
    f.extent ≤ c.offset ∧ c.offset ≤ data.length := by
  have hpaid : 0 + f.extent ≤ c.offset + 0 := Decoder.file_pays h
  exact ⟨by omega, (Decoder.fileWith_takes h _ (Nat.lt_succ_self _)).1⟩

/-- All functions of a file together take no more bytes than it has. -/
theorem ChunkFile.sum_extent_le {data : Bytes} {f : ChunkFile} (h : decode data = .ok f) :
    (f.walk.map fun p => p.toCode.extent f.header).sum ≤ data.length := by
  obtain ⟨c, hfile⟩ := file_of_decode h
  have hpaid : f.extent ≤ c.offset ∧ c.offset ≤ data.length := extent_le hfile
  unfold extent at hpaid
  omega

theorem ChunkFile.extent_le_of_mem {data : Bytes} {f : ChunkFile} (h : decode data = .ok f)
    {p : Prototype} (hp : p ∈ f.walk) : p.toCode.extent f.header ≤ data.length := by
  have hmem := List.mem_map_of_mem (f := fun q : Prototype => q.toCode.extent f.header) hp
  exact (List.single_le_sum (fun _ _ => Nat.zero_le _) _ hmem).trans (sum_extent_le h)

/-- **No count makes a file larger than it is.** All that was read has bytes of its own in front of the
position at which reading ended, so there are not more parts than bytes, whatever counts the file
declares. -/
theorem decode_extent {data : Bytes} {f : ChunkFile} (h : ChunkFile.decode data = .ok f) :
    ∃ n ≤ data.length,
      (∃ c, Decoder.file (Cursor.start data .little) = .ok (f, c) ∧ c.offset = n) ∧
      f.extent ≤ n ∧ f.elements ≤ n := by
  obtain ⟨c, hfile⟩ := ChunkFile.file_of_decode h
  obtain ⟨hextent, hle⟩ := ChunkFile.extent_le hfile
  exact ⟨c.offset, hle, ⟨c, hfile, rfl⟩, hextent, f.elements_le.trans hextent⟩

/-- The parts of the specimen take all of its bytes but the padding and the terminators. -/
theorem decode_extent_specimen :
    ∃ f, ChunkFile.decode Assembly.specimen.bytes = .ok f ∧
      ∃ n ≤ Assembly.specimen.bytes.length, f.extent ≤ n ∧ f.elements ≤ n := by
  have hread : (ChunkFile.decode Assembly.specimen.bytes).isOk := by decide +kernel
  cases hf : ChunkFile.decode Assembly.specimen.bytes with
  | error e =>
    rw [hf] at hread
    cases hread
  | ok f =>
    obtain ⟨n, hn, -, hextent, helements⟩ := decode_extent hf
    exact ⟨f, rfl, n, hn, hextent, helements⟩

end HavokScript
