import HavokScript.Proofs.Chunk.Placement
import HavokScript.Proofs.Chunk.Shown

/-!
# Listings determine the code

Files with the same listing have the same code (`ChunkFile.listing_determines`). The listing leaves
out the signature, the version, the debug records and the words of instructions, and it shows numbers
by their text; in all else the files are the same, function by function.

A listing is read from the front. A line with a name or a number is ended by its line break, and a line
with a string by the string itself, which may have line breaks in it. The numbers of instructions,
constants and closures are shown in front of them, so it is known how many follow; type records are
followed by an empty line. From one prototype to the next the argument goes by induction on the tree.
-/

namespace HavokScript

open Listing

/-! ## What a listing shows -/

/-- Headers that a listing shows alike. -/
structure Header.Resembles (h k : Header) : Prop where
  format : h.format = k.format
  bigEndian : h.endianness = 0 ↔ k.endianness = 0
  intSize : h.intSize = k.intSize
  sizeSize : h.sizeSize = k.sizeSize
  instructionSize : h.instructionSize = k.instructionSize
  numberSize : h.numberSize = k.numberSize
  numberType : h.numberType = k.numberType
  buildFlags : h.buildFlags = k.buildFlags
  sharingMode : h.sharingMode = k.sharingMode
  types : h.types.items = k.types.items

/-- Functions that a listing shows alike, without their closures. -/
structure Code.Resembles (c d : Code) : Prop where
  address : c.address = d.address
  upvalues : c.upvalues = d.upvalues
  parameters : c.parameters = d.parameters
  varargFlags : c.varargFlags = d.varargFlags
  registers : c.registers = d.registers
  instructions : List.Forall₂ Instruction.Resembles c.instructions.items d.instructions.items
  constants : List.Forall₂ Constant.Resembles c.constants.items d.constants.items

/-- Prototypes that a listing shows alike, and so all below them. -/
inductive Prototype.Resembles : Prototype → Prototype → Prop
  | intro {p q : Prototype} (code : p.toCode.Resembles q.toCode)
      (closures : List.Forall₂ Resembles p.inner q.inner) : Resembles p q

/-! ## Directives -/

section

variable {s t : Bytes} {P : Prop} (name : String)

theorem directive_tells (h : Tells s t P) : Tells (directive name s) (directive name t) P :=
  (h.literal_append _).append_literal _

theorem directive_line_tells (hs : newline ∉ s) (ht : newline ∉ t) :
    Tells (directive name s) (directive name t) (s = t) := by
  unfold directive
  rw [List.append_assoc _ s, List.append_assoc _ t]
  exact (Tells.of_stop hs ht).literal_append _

theorem directive_nat_tells (m n : Nat) :
    Tells (directive name (Numeral.nat m)) (directive name (Numeral.nat n)) (m = n) :=
  (directive_line_tells name (Decimal.notMem_nat (by decide) m)
    (Decimal.notMem_nat (by decide) n)).imp Numeral.nat_injective

theorem directive_byte_tells (a b : UInt8) :
    Tells (directive name (Numeral.nat a.toNat)) (directive name (Numeral.nat b.toNat)) (a = b) :=
  (directive_nat_tells name _ _).imp UInt8.toNat_inj.mp

theorem directive_word_tells (a b : UInt32) :
    Tells (directive name (Numeral.nat a.toNat)) (directive name (Numeral.nat b.toNat)) (a = b) :=
  (directive_nat_tells name _ _).imp UInt32.toNat_inj.mp

end

/-! ## Headers -/

theorem TypeRecord.listing_tells (t u : TypeRecord) : Tells t.listing u.listing (t = u) := by
  have hid : Tells (Numeral.nat t.id.toNat ++ [space]) (Numeral.nat u.id.toNat ++ [space])
      (t.id = u.id) :=
    (Tells.of_stop (Decimal.notMem_nat (by decide) _) (Decimal.notMem_nat (by decide) _)).imp
      fun h => UInt32.toNat_inj.mp (Numeral.nat_injective h)
  have hrecord := hid.append fun _ => Quoted.quote_tells t.name u.name
  refine (directive_tells "type" hrecord).imp fun h => ?_
  cases t
  cases u
  simpa using h

/-- The empty line behind the type records is not the start of one. -/
theorem types_tells (ts us : List TypeRecord) :
    Tells (ts.flatMap TypeRecord.listing ++ utf8 "\n") (us.flatMap TypeRecord.listing ++ utf8 "\n")
      (ts = us) := by
  have hstart (t : TypeRecord) (x y : Bytes) : t.listing ++ x ≠ utf8 "\n" ++ y := fun h =>
    absurd (show some (46 : UInt8) = some newline from congrArg List.head? h) (by decide)
  have hall := Tells.flatMap_close hstart TypeRecord.listing_tells ts us
  rwa [List.forall₂_eq_eq_eq] at hall

theorem DistinctNames.directive_tells {kind : String} {names : List (UInt8 × String)}
    (hnames : DistinctNames kind names) (name : String) (a b : UInt8) :
    Tells (directive name (lowerCase (codeName kind names a)))
      (directive name (lowerCase (codeName kind names b))) (a = b) := by
  have hline (c : UInt8) : newline ∉ lowerCase (codeName kind names c) :=
    mt (mem_lowerCase (by decide)).mp (hnames.codeName_line c)
  exact (directive_line_tells name (hline a) (hline b)).imp hnames.injective

theorem endianness_tells (a b : UInt8) :
    Tells (directive "endianness" (lowerCase (endiannessName a)))
      (directive "endianness" (lowerCase (endiannessName b))) (a = 0 ↔ b = 0) := by
  have hline (c : UInt8) : newline ∉ lowerCase (endiannessName c) := by
    unfold endiannessName
    split <;> decide
  refine (directive_line_tells _ (hline a) (hline b)).imp fun h => ?_
  unfold endiannessName at h
  split at h <;> split at h
  · simp [*]
  · exact absurd h (by decide)
  · exact absurd h (by decide)
  · simp [*]

theorem Header.listing_tells (h k : Header) : Tells h.listing k.listing (h.Resembles k) := by
  intro x y hxy
  simp only [Header.listing, List.append_assoc] at hxy
  obtain ⟨format, hxy⟩ := directive_line_tells _ (DistinctNames.formats.codeName_line _)
    (DistinctNames.formats.codeName_line _) hxy
  obtain ⟨bigEndian, hxy⟩ := endianness_tells _ _ hxy
  obtain ⟨intSize, hxy⟩ := directive_byte_tells _ _ _ hxy
  obtain ⟨sizeSize, hxy⟩ := directive_byte_tells _ _ _ hxy
  obtain ⟨instructionSize, hxy⟩ := directive_byte_tells _ _ _ hxy
  obtain ⟨numberSize, hxy⟩ := directive_byte_tells _ _ _ hxy
  obtain ⟨numberType, hxy⟩ := DistinctNames.numberTypes.directive_tells _ _ _ hxy
  obtain ⟨buildFlags, hxy⟩ := directive_byte_tells _ _ _ hxy
  obtain ⟨sharingMode, hxy⟩ := DistinctNames.sharingModes.directive_tells _ _ _ hxy
  rw [← List.append_assoc, ← List.append_assoc] at hxy
  obtain ⟨types, hxy⟩ := types_tells _ _ hxy
  refine ⟨?_, hxy⟩
  exact {
    format := DistinctNames.formats.injective (congrArg lowerCase format)
    bigEndian, intSize, sizeSize, instructionSize, numberSize, numberType, buildFlags, sharingMode,
    types }

/-! ## Functions -/

theorem label_tells {c d : Code} (hc : c.Decoded) (hd : d.Decoded) :
    Tells (directive "function" c.label) (directive "function" d.label)
      (c.address = d.address) := by
  have hline {e : Code} (he : e.Decoded) : newline ∉ e.label := by
    obtain ⟨n, hn⟩ := he.address
    rw [Code.label, hn, List.mem_append, not_or]
    exact ⟨by decide, fun hmem => absurd (Numeral.isHexDigit_hex 8 n _ hmem) (by decide)⟩
  obtain ⟨n, hn⟩ := hc.address
  obtain ⟨m, hm⟩ := hd.address
  exact (directive_line_tells _ (hline hc) (hline hd)).imp (Code.address_of_label hn hm)

/-- Constants are listed with their index, so that the same number of them is read off. -/
theorem constantListing_tells {cs ds : List Constant} (hlength : cs.length = ds.length)
    (hc : ∀ c ∈ cs, c.Supported) (hd : ∀ d ∈ ds, d.Supported) (i : Nat) :
    Tells (constantListing i cs) (constantListing i ds) (List.Forall₂ Constant.Resembles cs ds) := by
  induction cs generalizing ds i with
  | nil =>
    cases ds with
    | nil => exact (Tells.refl []).imp fun _ => .nil
    | cons d ds => cases hlength
  | cons c cs ih =>
    cases ds with
    | nil => cases hlength
    | cons d ds =>
      rw [List.forall_mem_cons] at hc hd
      have hconstant : Tells (directive "constant" (c.text ++ utf8 " ; " ++ Numeral.nat i))
          (directive "constant" (d.text ++ utf8 " ; " ++ Numeral.nat i)) (c.Resembles d) := by
        have htext := (Constant.text_tells hc.1 hd.1).append_literal (utf8 "; " ++ Numeral.nat i)
        refine directive_tells _ ?_
        simpa [show utf8 " ; " = space :: utf8 "; " from rfl] using htext
      exact (hconstant.append fun _ => ih (Nat.succ.inj hlength) hc.2 hd.2 (i + 1)).imp fun h =>
        .cons h.1 h.2

theorem instructions_tells {is js : List Instruction} (hlength : is.length = js.length)
    (hi : ∀ i ∈ is, i.Decoded) (hj : ∀ j ∈ js, j.Decoded) :
    Tells (is.flatMap fun i => i.text ++ utf8 "\n") (js.flatMap fun j => j.text ++ utf8 "\n")
      (List.Forall₂ Instruction.Resembles is js) :=
  Tells.flatMap hlength fun i hmem j hmem' => Instruction.text_tells (hi i hmem) (hj j hmem')

theorem Code.listing_tells {c d : Code} (hc : c.Decoded) (hd : d.Decoded) (m n : Nat) :
    Tells (c.listing m) (d.listing n) (c.Resembles d ∧ m = n) := by
  intro x y hxy
  simp only [Code.listing, List.append_assoc] at hxy
  obtain ⟨address, hxy⟩ := label_tells hc hd hxy
  obtain ⟨upvalues, hxy⟩ := directive_word_tells _ _ _ hxy
  obtain ⟨parameters, hxy⟩ := directive_word_tells _ _ _ hxy
  obtain ⟨varargFlags, hxy⟩ := directive_byte_tells _ _ _ hxy
  obtain ⟨registers, hxy⟩ := directive_word_tells _ _ _ hxy
  obtain ⟨hinstructions, hxy⟩ := directive_nat_tells _ _ _ hxy
  obtain ⟨hconstants, hxy⟩ := directive_nat_tells _ _ _ hxy
  obtain ⟨hclosures, hxy⟩ := directive_nat_tells _ _ _ hxy
  obtain ⟨constants, hxy⟩ := constantListing_tells hconstants hc.constants hd.constants 0 hxy
  obtain ⟨instructions, hxy⟩ :=
    instructions_tells hinstructions hc.instructions hd.instructions hxy
  exact ⟨⟨⟨address, upvalues, parameters, varargFlags, registers, instructions, constants⟩,
    hclosures⟩, List.append_cancel_left hxy⟩

/-! ## Prototypes -/

namespace Prototype

theorem listings_eq (ps : List Prototype) : listings ps = ps.flatMap listing := by
  induction ps with
  | nil => rfl
  | cons p ps ih => rw [listings, ih, List.flatMap_cons]

theorem listing_eq (p : Prototype) :
    p.listing = p.toCode.listing p.inner.length ++ p.inner.flatMap listing := by
  obtain ⟨code, closures⟩ := p
  cases closures with
  | none => exact (List.append_nil _).symm
  | some ps => exact congrArg (code.listing ps.length ++ ·) (listings_eq ps)

theorem mem_walk_self (p : Prototype) : p ∈ p.walk := by
  obtain ⟨code, closures⟩ := p
  cases closures <;> exact List.mem_cons_self

theorem mem_walk_of_inner {p q r : Prototype} (hq : q ∈ p.inner) (hr : r ∈ q.walk) :
    r ∈ p.walk := by
  obtain ⟨code, closures⟩ := p
  cases closures with
  | none => cases hq
  | some ps => exact List.mem_cons_of_mem _ (mem_walkAll.mpr ⟨q, hq, hr⟩)

theorem sizeOf_inner {p q : Prototype} (hq : q ∈ p.inner) : sizeOf q < sizeOf p := by
  obtain ⟨code, closures⟩ := p
  cases closures with
  | none => cases hq
  | some ps =>
    have := List.sizeOf_lt_of_mem (show q ∈ ps from hq)
    simp only [mk.sizeOf_spec, Option.some.sizeOf_spec]
    omega

/-- The induction is on the first tree; the other one has as many closures everywhere. -/
theorem listing_tells {p q : Prototype} (hp : ∀ r ∈ p.walk, r.toCode.Decoded)
    (hq : ∀ r ∈ q.walk, r.toCode.Decoded) : Tells p.listing q.listing (p.Resembles q) := by
  rw [listing_eq, listing_eq]
  have hcode := Code.listing_tells (hp p p.mem_walk_self) (hq q q.mem_walk_self) p.inner.length
    q.inner.length
  have hclosures (hlength : p.inner.length = q.inner.length) :
      Tells (p.inner.flatMap listing) (q.inner.flatMap listing)
        (List.Forall₂ Resembles p.inner q.inner) :=
    Tells.flatMap hlength fun p' hp' q' hq' =>
      listing_tells (fun r hr => hp r (mem_walk_of_inner hp' hr))
        (fun r hr => hq r (mem_walk_of_inner hq' hr))
  exact (hcode.append fun h => hclosures h.2).imp fun h => .intro h.1.1 h.2
termination_by sizeOf p
decreasing_by exact sizeOf_inner hp'

end Prototype

/-! ## Decoded files -/

namespace ChunkFile

/-- **The listing determines the code.** Two decoded files with the same listing have the same
header, apart from the signature, the version and what the endianness code says beyond the byte order,
and trees of functions of the same shape. Function by function, these have the same address, upvalue
count, parameter count, vararg flags and register count, the same opcodes and operands, and constants
of the same types with the same values, where of numbers only the text is the same. -/
theorem listing_determines {data data' : Bytes} {f g : ChunkFile} (hf : decode data = .ok f)
    (hg : decode data' = .ok g) (h : f.listing = g.listing) :
    f.header.Resembles g.header ∧
      ∃ p q, f.root = some p ∧ g.root = some q ∧ p.Resembles q := by
  obtain ⟨hroot, hwalk⟩ := decode_codes hf
  obtain ⟨hroot', hwalk'⟩ := decode_codes hg
  obtain ⟨p, hp⟩ := Option.isSome_iff_exists.mp hroot
  obtain ⟨q, hq⟩ := Option.isSome_iff_exists.mp hroot'
  rw [walk, hp] at hwalk
  rw [walk, hq] at hwalk'
  rw [listing, listing, hp, hq] at h
  have htells := (Header.listing_tells f.header g.header).append fun _ =>
    Prototype.listing_tells hwalk hwalk'
  obtain ⟨hheader, htree⟩ := htells.of_eq h
  exact ⟨hheader, p, q, hp, hq, htree⟩

/-- A chunk with a closure and a string of more than one line. The version, the hash of the debug record
and the unused field of the one instruction are not in the listing. -/
def listed (version : UInt8) (hash : UInt32) (unused : Int) : Bytes :=
  Assembly.bytes ⟨{ Header.standard with version, types := some [⟨7, utf8 "Vec3"⟩] },
    some ⟨⟨1, 2, 3, 4, [Word.ofABC 7 0 1 unused],
        [⟨.string, .string (utf8 "a\n\"b")⟩, ⟨.number, .float ⟨0x4004000000000000⟩⟩], some hash⟩,
      [⟨⟨0, 0, 1, 2, [], [⟨.ui64, .unsigned 5⟩], none⟩, []⟩]⟩⟩

theorem listing_determines_listed :
    ∃ f g, decode (listed 0x51 1 0) = .ok f ∧ decode (listed 0x52 2 3) = .ok g ∧
      f.header.version ≠ g.header.version ∧ f.listing = g.listing ∧
      f.header.Resembles g.header ∧
      ∃ p q, f.root = some p ∧ g.root = some q ∧ p.Resembles q := by
  have hboth : (decode (listed 0x51 1 0)).toOption.any fun f =>
      (decode (listed 0x52 2 3)).toOption.any fun g =>
        f.header.version ≠ g.header.version && f.listing = g.listing := by
    decide +kernel
  obtain ⟨f, hf, hboth⟩ := exists_ok_of_any hboth
  obtain ⟨g, hg, hboth⟩ := exists_ok_of_any hboth
  rw [Bool.and_eq_true, decide_eq_true_eq, decide_eq_true_eq] at hboth
  exact ⟨f, g, hf, hg, hboth.1, hboth.2, listing_determines hf hg hboth.2⟩

end ChunkFile

end HavokScript
