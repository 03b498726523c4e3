import HavokScript.Proofs.Cbor.Imported
import HavokScript.Proofs.Chunk.Decoded
import HavokScript.Proofs.Chunk.Delimited

/-!
# Chunk files and their exports

Files that were decoded and files that were read from an export go through an export unchanged
(`ChunkFile.imported_exported`). Both are `Exportable`. For a decoded file this has two parts: its
constants are settled, as the header says what a number is (`Constant.Decoded.settled`), and its
positions are integers of 64 bits, as a byte string is not longer than that. The second part needs
the length of the data at every step of the decoder, which `Decoder.GivesBelow` carries along.
-/

namespace HavokScript

open Cbor Cbor.Item

/-! ## Decoded files -/

namespace Decoder

open Cursor (between)

variable {α β : Type} {P : α → Prop} {Q : β → Prop} {n : Nat}

/-- From data of fewer than `n` bytes the step gives a value with `P`. -/
def GivesBelow (n : Nat) (P : α → Prop) (m : Decoder α) : Prop :=
  ∀ ⦃passed ahead : Bytes⦄ ⦃o : ByteOrder⦄ ⦃x : α⦄ ⦃c : Cursor⦄, (passed ++ ahead).length < n →
    m (between passed ahead o) = .ok (x, c) → P x

theorem givesBelow_of_gives {m : Decoder α} (hm : Gives P (fun _ => True) m) : GivesBelow n P m :=
  fun _ _ _ _ _ _ h => hm.of_ok h

theorem GivesBelow.bind {m : Decoder α} {f : α → Decoder β} {slack : α → Nat}
    (hm : GivesBelow n P m) (hdelimits : Delimits m slack)
    (hf : ∀ x, P x → GivesBelow n Q (f x)) : GivesBelow n Q (m >>= f) := by
  intro passed ahead o y c hlength h
  obtain ⟨x, t, hx, hy⟩ := ok_of_bind h
  have hP := hm hlength hx
  obtain ⟨bs, rest, o', rfl, -, rfl, -⟩ := hdelimits hx
  rw [← List.append_assoc] at hlength
  exact hf x hP hlength hy

theorem givesBelow_any (m : Decoder α) : GivesBelow n (fun _ => True) m :=
  givesBelow_of_gives (gives_any m)

theorem givesBelow_get {f : Cursor → Decoder α} (hf : ∀ c, c.offset < n → GivesBelow n P (f c)) :
    GivesBelow n P (get >>= f) := by
  intro passed ahead o x c hlength h
  refine hf _ ?_ hlength h
  rw [List.length_append] at hlength
  rw [Cursor.between_offset]
  omega

theorem givesBelow_repeated {item : Nat → Decoder α} (hitem : ∀ i, GivesBelow n P (item i))
    (hdelimits : ∀ i, SelfDelimiting (item i)) (i count : Nat) :
    GivesBelow n (fun xs => ∀ x ∈ xs, P x) (repeated item i count) := by
  induction count generalizing i with
  | zero => exact givesBelow_of_gives (Gives.pure (by simp))
  | succ count ih =>
    refine (hitem i).bind (hdelimits i) fun x hx =>
      (ih (i + 1)).bind (repeated_delimits hdelimits _ _) fun xs hxs =>
        givesBelow_of_gives (Gives.pure ?_)
    exact List.forall_mem_cons.mpr ⟨hx, hxs⟩

end Decoder

/-! ### Instructions -/

theorem Fits64.ofNat {n : Nat} (hn : n < 2 ^ 63) : Fits64 n := by
  unfold Fits64
  omega

theorem Operand.fits_ofField (argument : Argument) {x : Nat} (hx : x < 2 ^ 17) :
    ∀ o ∈ ofField argument x, Fits64 o.value := by
  have hvalue : Fits64 x := .ofNat (by omega)
  cases argument with
  | unused => simp [ofField]
  | registerOrConstant =>
    rw [ofField, List.forall_mem_singleton, ofRegisterOrConstant]
    split
    · exact .ofNat (show x % 256 < 2 ^ 63 by omega)
    · exact hvalue
  | number | offset | register | constant => exact List.forall_mem_singleton.mpr hvalue

/-- The fields of a word have at most 17 bits. -/
theorem Instruction.fits_operandsOf (layout : Layout) (w : Word) :
    ∀ o ∈ operandsOf layout w, Fits64 o.value := by
  have ha : w.a < 2 ^ 17 := by unfold Word.a; omega
  have hb : w.b < 2 ^ 17 := by unfold Word.b; omega
  have hc : w.c < 2 ^ 17 := by unfold Word.c; omega
  have hbx : w.bx < 2 ^ 17 := by unfold Word.bx; omega
  have hsbx : Fits64 w.sbx := by
    unfold Fits64 Word.sbx Word.bias
    omega
  cases layout with
  | abc a b c =>
    rw [operandsOf, List.forall_mem_append, List.forall_mem_append]
    exact ⟨⟨Operand.fits_ofField a ha, Operand.fits_ofField b hb⟩, Operand.fits_ofField c hc⟩
  | abx a b =>
    rw [operandsOf, List.forall_mem_append]
    exact ⟨Operand.fits_ofField a ha, Operand.fits_ofField b hbx⟩
  | asbx a =>
    rw [operandsOf, List.forall_mem_append, List.forall_mem_singleton]
    exact ⟨Operand.fits_ofField a ha, hsbx⟩

theorem Instruction.fits_decode {address : Nat} (haddress : address < 2 ^ 63) {w : Word}
    {i : Instruction} (h : decode address w = some i) : i.Fits := by
  obtain ⟨op, -, rfl⟩ := Option.map_eq_some_iff.mp h
  refine ⟨.ofNat haddress, ?_⟩
  rw [Section.items_ofItems]
  exact fits_operandsOf op.layout w

/-! ### Constants -/

theorem Constant.Decoded.settled {h : Header} {k : Constant} (hk : k.Decoded h) :
    k.payload.isBasic ∧ k.Settled h.integers := by
  obtain ⟨hsupported, hnumber⟩ := hk
  cases hsupported with
  | integer i =>
    rw [(hnumber rfl).mp ⟨i, rfl⟩]
    exact ⟨rfl, settled_signed i⟩
  | float x =>
    have hfloat : h.integers = false := Bool.eq_false_iff.mpr fun htrue =>
      nomatch (hnumber rfl).mpr htrue
    rw [hfloat]
    exact ⟨rfl, rfl⟩
  | _ => exact ⟨rfl, rfl⟩

/-! ### Functions -/

namespace Decoder

open Cursor (between)

theorem instruction_givesBelow (i : Nat) :
    GivesBelow (2 ^ 63) Instruction.Fits (instruction i) := by
  refine givesBelow_get fun c hc => (givesBelow_any _).bind (word_delimits _) fun w _ => ?_
  cases hdecode : Instruction.decode c.offset w with
  | none => exact givesBelow_of_gives (within_gives _ (failAt_gives _ _))
  | some x => exact givesBelow_of_gives (Gives.pure (Instruction.fits_decode hc hdecode))

theorem instructions_givesBelow (h : Header) :
    GivesBelow (2 ^ 63) (fun is => ∀ i ∈ is, i.Fits) (instructions h) := by
  refine (givesBelow_any _).bind ((size_delimits h).within _) fun count _ =>
    (givesBelow_any _).bind (pad_takesBytes.delimits.within _) fun _ _ =>
    givesBelow_get fun c _ => ?_
  split
  · exact givesBelow_of_gives ((fail_gives _).bind fun _ hfalse => hfalse.elim)
  · exact givesBelow_repeated instruction_givesBelow instruction_delimits 0 count

/-- What decoding makes of a function. -/
def Sound (h : Header) (c : Code) : Prop :=
  c.Exportable ∧ ∀ k ∈ c.constants.items, k.Settled h.integers

theorem code_givesBelow (h : Header) : GivesBelow (2 ^ 63) (Sound h) (code h) := by
  refine givesBelow_get fun c hc =>
    (givesBelow_any _).bind (word_delimits _) fun upvalues _ =>
    (givesBelow_any _).bind (word_delimits _) fun parameters _ =>
    (givesBelow_any _).bind (byte_delimits _) fun varargFlags _ =>
    (givesBelow_any _).bind (word_delimits _) fun registers _ =>
    (instructions_givesBelow h).bind (instructions_delimits h) fun is his =>
    (givesBelow_any _).bind (word_delimits _) fun count _ =>
    (givesBelow_of_gives (repeated_gives (constant_gives h) 0 count.toNat)).bind
      (repeated_delimits (constant_delimits h) _ _) fun constants hconstants =>
    (givesBelow_any _).bind debug_delimits fun debug _ => givesBelow_of_gives (Gives.pure ?_)
  refine ⟨⟨.ofNat hc, his, ?_⟩, ?_⟩
  · rw [Section.items_ofItems]
    exact fun k hk => (hconstants k hk).settled.1
  · rw [Section.items_ofItems]
    exact fun k hk => (hconstants k hk).settled.2

theorem prototype_givesBelow (h : Header) (depth : Nat) :
    GivesBelow (2 ^ 63) (fun p => ∀ q ∈ p.walk, Sound h q.toCode) (prototype h depth) := by
  induction depth with
  | zero => exact givesBelow_of_gives ((fail_gives _).mono (fun _ h => h.elim) fun _ h => h)
  | succ depth ih =>
    refine (code_givesBelow h).bind (code_delimits h) fun c hc =>
      (givesBelow_any _).bind (word_delimits _) fun count _ =>
      (givesBelow_repeated (fun _ => ih) (fun _ => prototype_delimits h depth) 0 count.toNat).bind
        (repeated_delimits (fun _ => prototype_delimits h depth) _ _) fun ps hps =>
      givesBelow_of_gives (Gives.pure ?_)
    intro q hq
    rcases Prototype.mem_walk.mp hq with rfl | ⟨p, hp, hq⟩
    · exact hc
    · exact hps p hp q hq

theorem file_givesBelow : GivesBelow (2 ^ 63) ChunkFile.Exportable file := by
  refine (givesBelow_any _).bind header_delimits fun h _ => givesBelow_get fun c _ =>
    (prototype_givesBelow h _).bind (prototype_delimits h _) fun p hp =>
    givesBelow_of_gives (Gives.pure ?_)
  -- A decoded file has no further functions.
  refine ⟨?_, fun q hq => (hp q hq).2, List.forall_mem_nil _⟩
  rw [ChunkFile.codes, List.forall_mem_append, List.forall_mem_map]
  exact ⟨fun q hq => (hp q hq).1, List.forall_mem_nil _⟩

end Decoder

namespace ChunkFile

/-- Decoding gives what an export can hold. -/
theorem decode_exportable {data : Bytes} {f : ChunkFile} (hlength : data.length < 2 ^ 63)
    (h : decode data = .ok f) : f.Exportable := by
  obtain ⟨c, hfile⟩ := file_of_decode h
  have hwhole : (([] : Bytes) ++ data).length < 2 ^ 63 := hlength
  exact Decoder.file_givesBelow hwhole hfile

/-- **Exports round-trip.** A byte string has fewer than `2 ^ 63` bytes.

* The export of a decoded file is read back exactly if its string constants and the names of its
  types are UTF-8 and it is within the limits of the reader, and then as the same file with all
  not-a-numbers made one.
* A file that was read from any export and has only payloads that a chunk can have is read back from
  its own export as the same file, within the limits of the reader. -/
theorem imported_exported :
    (∀ (data : Bytes) (f : ChunkFile), data.length < 2 ^ 63 → decode data = .ok f →
      f.exported.length < 2 ^ 63 →
        ((∃ g, imported f.exported = .ok g) ↔ f.isText ∧ f.toItem.within maxLevels) ∧
        ∀ g, imported f.exported = .ok g → g = f.quieted) ∧
    ∀ (data : Bytes) (g : ChunkFile), imported data = .ok g →
      (∀ c ∈ g.codes, ∀ k ∈ c.constants.items, k.payload.isBasic) →
      g.exported.length < 2 ^ 63 → g.toItem.within maxLevels →
        imported g.exported = .ok g.quieted := by
  constructor
  · intro data f hdata hdecode hlength
    have hread := imported_toBytes (decode_exportable hdata hdecode) (by omega)
    rw [hread, ← Bool.and_eq_true]
    split
    · rename_i hok
      exact ⟨⟨fun _ => hok, fun _ => ⟨_, rfl⟩⟩, fun g hg => (Except.ok.inj hg).symm⟩
    · rename_i hbad
      exact ⟨⟨nofun, fun hok => absurd hok hbad⟩, nofun⟩
  · intro data g himported hbasic hlength hwithin
    obtain ⟨hexportable, htext⟩ := imported_exportable himported hbasic
    rw [imported_toBytes hexportable (by omega), htext, hwithin]
    rfl

/-- An export that no file has: most fields are left out, an integer is given where the tag asks for
a signed one, and a negative one where it asks for an address. -/
def bareExport : Bytes :=
  [0xA2, 0x01, 0xA1, 0x09, 0x01, 0x02, 0xA1, 0x07, 0x82, 0xA2, 0x01, 0x03, 0x02, 0x05, 0xA2, 0x01,
    0x02, 0x02, 0x20]

theorem imported_exported_specimens :
    (∃ f, decode Assembly.specimen.bytes = .ok f ∧ imported f.exported = .ok f.quieted) ∧
    ∃ g, imported bareExport = .ok g ∧ imported g.exported = .ok g.quieted := by
  constructor
  · have hspecimen : (decode Assembly.specimen.bytes).toOption.any fun f =>
        f.exported.length < 2 ^ 63 && f.isText && f.toItem.within maxLevels := by
      decide +kernel
    obtain ⟨f, hf, hfacts⟩ := exists_ok_of_any hspecimen
    simp only [Bool.and_eq_true, decide_eq_true_eq] at hfacts
    obtain ⟨⟨hlength, htext⟩, hwithin⟩ := hfacts
    obtain ⟨hiff, hvalue⟩ := imported_exported.1 _ f (by decide +kernel) hf hlength
    obtain ⟨g, hg⟩ := hiff.mpr ⟨htext, hwithin⟩
    exact ⟨f, hf, hvalue g hg ▸ hg⟩
  · have hbare : (imported bareExport).toOption.any fun g =>
        g.exported.length < 2 ^ 63 && g.toItem.within maxLevels &&
          g.codes.all fun c => c.constants.items.all fun k => k.payload.isBasic := by
      decide +kernel
    obtain ⟨g, hg, hfacts⟩ := exists_ok_of_any hbare
    simp only [Bool.and_eq_true, decide_eq_true_eq, List.all_eq_true] at hfacts
    obtain ⟨⟨hlength, hwithin⟩, hbasic⟩ := hfacts
    exact ⟨g, hg, imported_exported.2 _ g hg hbasic hlength hwithin⟩

end ChunkFile

end HavokScript
