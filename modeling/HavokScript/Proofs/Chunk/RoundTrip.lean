import HavokScript.Chunk.Assemble
import HavokScript.Proofs.Chunk.Reading

/-!
# Reading back what was written

`Assembly.bytes` writes a chunk file and `ChunkFile.decode` reads one. The two agree
(`decode_assembly`): whatever the header says about byte order, the width of sizes and the kind and
width of numbers, and however deep functions are nested, the file that is read back has the header
that was written and a tree of prototypes that mirrors the tree of functions
(`SourceFunction.Mirrors`), and reading ends behind the last byte.

What a file keeps of a constant is `Header.kept`: strings, booleans and unsigned integers come back
unchanged, an address is cut to the width of a size, and a number becomes a number of the file.

The writer and the reader are matched part by part: each `_reads` lemma says that a reader takes
exactly the bytes that a writer made, behind any bytes and in front of any bytes. Only the alignment
of the instructions depends on the position, and only sizes look at what follows. For the tree of
functions the induction is on the function, and the bound on the depth of the reader is the length
of the bytes written: each level has bytes of its own.
-/

namespace HavokScript

/-! ## What can be written -/

/-- The constants whose payload belongs to their tag. -/
inductive Constant.Supported : Constant → Prop
  | nil : Supported ⟨.nil, .nil⟩
  | boolean (b : Bool) : Supported ⟨.boolean, .bool b⟩
  | lightUserdata (n : UInt64) : Supported ⟨.lightUserdata, .unsigned n⟩
  | integer (i : Int64) : Supported ⟨.number, .signed i⟩
  | float (x : Double) : Supported ⟨.number, .float x⟩
  | string (s : Bytes) : Supported ⟨.string, .string s⟩
  | ui64 (n : UInt64) : Supported ⟨.ui64, .unsigned n⟩

/-- What a size of the file stays below. -/
def Header.sizeBound (h : Header) : Nat := Nat.pow 256 h.sizeSize.toNat

/-- The headers of the layout: the lengths of names are signed numbers of four bytes, and the zero
bytes at the end of a name are not part of it. -/
structure Header.Supported (h : Header) : Prop where
  format : h.format = 13 ∨ h.format = 14
  instructionSize : h.instructionSize = 4
  sizeSize : h.sizeSize = 4 ∨ h.sizeSize = 8
  numberSize : h.numberSize = 4 ∨ h.numberSize = 8
  typeCount : h.types.items.length < 0x100000000
  nameLength : ∀ t ∈ h.types.items, t.name.length + 1 < 0x80000000
  nameEnd : ∀ t ∈ h.types.items, t.name.getLast? ≠ some 0

/-- The headers that are read back, up to the zero bytes at the end of a name. -/
structure Header.Accepted (h : Header) : Prop where
  format : h.format = 13 ∨ h.format = 14
  instructionSize : h.instructionSize = 4
  sizeSize : h.sizeSize = 4 ∨ h.sizeSize = 8
  numberSize : h.numberSize = 4 ∨ h.numberSize = 8
  typeCount : h.types.items.length < 0x100000000
  nameLength : ∀ t ∈ h.types.items, t.name.length + 1 < 0x80000000

theorem Header.Supported.accepted {h : Header} (hh : h.Supported) : h.Accepted :=
  ⟨hh.format, hh.instructionSize, hh.sizeSize, hh.numberSize, hh.typeCount, hh.nameLength⟩

/-- The functions a file with this header can hold, closures aside. -/
structure SourceCode.Supported (h : Header) (f : SourceCode) : Prop where
  opcodes : ∀ w ∈ f.words, (Opcode.ofCode? w.op).isSome
  wordCount : f.words.length < h.sizeBound
  constants : ∀ c ∈ f.constants, c.Supported
  stringLength : ∀ c ∈ f.constants, ∀ s, c.payload = .string s → s.length + 1 < h.sizeBound
  constantCount : f.constants.length < 0x100000000

/-- The functions a file with this header can hold. -/
inductive SourceFunction.Supported (h : Header) : SourceFunction → Prop
  | intro {f : SourceCode} {closures : List SourceFunction} (code : f.Supported h)
      (closureCount : closures.length < 0x100000000) (inner : ∀ g ∈ closures, Supported h g) :
      Supported h ⟨f, closures⟩

/-! ## What is kept -/

/-- What the numbers of a file keep of an integer: all of it, or its low four bytes. -/
def Header.keptInteger (h : Header) (i : Int) : Int64 :=
  .ofInt (if h.numberSize = 4 then Int.bmod i 0x100000000 else i)

/-- What the numbers of a file keep of a floating point number: all of it, or the nearest one of
four bytes. -/
def Header.keptFloat (h : Header) (x : Double) : Double :=
  if h.numberSize = 4 then .ofSingle (x.toFormat .single) else x

/-- What the numbers of a file keep of a payload: an integer or a floating point number. -/
def Header.numberOf (h : Header) (p : Payload) : Payload :=
  if h.integers then .signed (h.keptInteger (Assembly.integerOf p))
  else .float (h.keptFloat (Assembly.floatOf p))

/-- What a file keeps of a payload. Numbers become numbers of the file, an address loses what does
not fit a size, and all else is kept as it is. -/
def Header.kept (h : Header) (tag : Tag) : Payload → Payload
  | .signed i =>
    if h.integers then .signed (h.keptInteger i.toInt) else .float (h.keptFloat (.ofInt i.toInt))
  | .float x => if h.integers then .signed (h.keptInteger x.truncate) else .float (h.keptFloat x)
  | .unsigned n =>
    .unsigned (if tag = .lightUserdata then (n.toNat % h.sizeBound).toUInt64 else n)
  | p => p

/-- A prototype that was read is the function that was written: the same counts, words, debug hash
and closures in the same order, and what the file keeps of the constants. -/
inductive SourceFunction.Mirrors (h : Header) : SourceFunction → Prototype → Prop
  | intro {f : SourceFunction} {p : Prototype} {instructions : List Instruction}
      (upvalues : p.upvalues = f.upvalues) (parameters : p.parameters = f.parameters)
      (varargFlags : p.varargFlags = f.varargFlags) (registers : p.registers = f.registers)
      (present : p.instructions = some instructions)
      (words : instructions.map (·.raw) = f.words)
      (constants : p.constants.items = f.constants.map fun c => ⟨c.tag, h.kept c.tag c.payload⟩)
      (debug : p.debug = f.debug)
      (closures : List.Forall₂ (Mirrors h) f.closures p.inner) : Mirrors h f p

/-! ## Numbers -/

theorem Format.round_le_infinity (f : Format) (m : Nat) (e : Int) : f.round m e ≤ f.infinity := by
  unfold Format.round
  split
  · exact Nat.zero_le _
  · exact Nat.min_le_right _ _

/-- A number of four bytes fits four bytes. -/
theorem Format.convert_single_lt (f : Format) (bits : Nat) :
    f.convert .single bits < 0x100000000 := by
  have hinf : Format.single.infinity = 0x7F800000 := by decide
  have hsign : ∀ b, Format.single.sign b ≤ 0x80000000 := by decide
  unfold Format.convert
  split
  · rename_i negative _
    have := hsign negative
    omega
  · rename_i negative m e _
    have := hsign negative
    have := Format.round_le_infinity .single m e
    omega
  · have := hsign (f.isNegative bits)
    dsimp only
    have hq : Nat.pow 2 (Format.single.fraction - 1) = 0x400000 := by decide
    rw [hq]
    generalize (if f.fraction ≤ Format.single.fraction then _ else _) = aligned
    omega

theorem Double.truncate_range (x : Double) :
    -0x8000000000000000 ≤ x.truncate ∧ x.truncate < 0x8000000000000000 := by
  unfold Double.truncate
  split
  · rename_i negative m e _
    dsimp only
    generalize (if negative then _ else _ : Int) = i
    by_cases hi : -0x8000000000000000 ≤ i ∧ i < 0x8000000000000000
    · rwa [if_pos hi]
    · rw [if_neg hi]
      decide
  · decide

theorem signed_unsigned64_eight (i : Int) (hlow : -0x8000000000000000 ≤ i)
    (hhigh : i < 0x8000000000000000) :
    signed 8 (unsigned64 i % Nat.pow 256 8 : Nat) = i := by
  have hp : Nat.pow 256 8 = 0x10000000000000000 := by decide
  unfold signed unsigned64
  rw [hp, Int.bmod_def]
  omega

theorem signed_unsigned64_four (i : Int) :
    signed 4 (unsigned64 i % Nat.pow 256 4 : Nat) = Int.bmod i 0x100000000 := by
  have hp : Nat.pow 256 4 = 0x100000000 := by decide
  unfold signed unsigned64
  rw [hp, Int.bmod_def, Int.bmod_def]
  omega

namespace Decoder

/-! ## Sizes and constants -/

theorem sized_reads (passed : Bytes) (h : Header) (hs : h.sizeSize = 4 ∨ h.sizeSize = 8)
    (n : Nat) :
    Reads (lift (Cursor.sized h.sizeSize.toNat)) passed h.order (Assembly.size h n) h.order 0
      (n % h.sizeBound) := by
  rcases hs with hs | hs
  · have hread := unsigned_reads passed h.order 4 n
    simp only [Header.sizeBound, Assembly.size, hs, if_pos]
    exact hread
  · have hread := unsigned_reads passed h.order 8 n
    simp only [Header.sizeBound, Assembly.size, hs]
    exact hread

/-- A size is read if what it counts follows. -/
theorem size_reads (passed : Bytes) (h : Header) (hs : h.sizeSize = 4 ∨ h.sizeSize = 8) (n : Nat)
    (hn : n < h.sizeBound) :
    Reads (size h) passed h.order (Assembly.size h n) h.order n n := by
  have hsized := sized_reads passed h hs n
  rw [Nat.mod_eq_of_lt hn] at hsized
  rw [← List.append_nil (Assembly.size h n)]
  refine hsized.andThen (Reads.look fun c _ hc _ => ?_)
  rw [if_neg (by simp at hc; omega)]
  exact (pure_reads n).weaken (Nat.zero_le _)


theorem keptInteger_reads (passed : Bytes) (h : Header) (i : Int)
    (hlow : -0x8000000000000000 ≤ i) (hhigh : i < 0x8000000000000000) :
    Reads (lift (Cursor.integer (if h.numberSize = 4 then 4 else 8))) passed h.order
      (if h.numberSize = 4 then Assembly.word h (unsigned64 i) else Assembly.long h (unsigned64 i))
      h.order 0 (if h.numberSize = 4 then Int.bmod i 0x100000000 else i) := by
  split
  · have hread := integer_reads passed h.order 4 (unsigned64 i)
    rwa [signed_unsigned64_four] at hread
  · have hread := integer_reads passed h.order 8 (unsigned64 i)
    rwa [signed_unsigned64_eight i hlow hhigh] at hread

theorem keptFloat_reads (passed : Bytes) (h : Header) (x : Double) :
    Reads (do
        let bits ← lift (Cursor.unsigned (if h.numberSize = 4 then 4 else 8))
        return Payload.float (if (if h.numberSize = 4 then 4 else 8) = 4 then .ofSingle bits
          else ⟨bits.toUInt64⟩)) passed h.order
      (if h.numberSize = 4 then Assembly.word h (x.toFormat .single)
        else Assembly.long h x.bits.toNat)
      h.order 0 (.float (h.keptFloat x)) := by
  unfold Header.keptFloat
  split
  · have hread := unsigned_reads passed h.order 4 (x.toFormat .single)
    rw [Nat.mod_eq_of_lt (show x.toFormat .single < Nat.pow 256 4 from
      Format.convert_single_lt _ _)] at hread
    exact hread.map
  · have hread := unsigned_reads passed h.order 8 x.bits.toNat
    rw [Nat.mod_eq_of_lt (show _ < Nat.pow 256 8 from x.bits.toNat_lt)] at hread
    have hbits : x.bits.toNat.toUInt64 = x.bits := UInt64.ofNat_toNat
    have hfloat := hread.map (f := fun bits => Payload.float ⟨bits.toUInt64⟩)
    rw [hbits] at hfloat
    exact hfloat

theorem number_reads (passed : Bytes) (h : Header) (p : Payload) :
    Reads (number h) passed h.order (Assembly.number h p) h.order 0 (h.numberOf p) := by
  have hrange : -0x8000000000000000 ≤ Assembly.integerOf p ∧
      Assembly.integerOf p < 0x8000000000000000 := by
    cases p with
    | float x => exact x.truncate_range
    | signed i => exact ⟨i.le_toInt, i.toInt_lt⟩
    | _ => simp [Assembly.integerOf]
  unfold number Assembly.number Header.numberOf
  by_cases hintegers : h.integers
  · simp only [if_pos hintegers]
    exact (keptInteger_reads passed h _ hrange.1 hrange.2).map
  · simp only [if_neg hintegers]
    exact keptFloat_reads passed h (Assembly.floatOf p)

theorem string_reads (passed : Bytes) (h : Header) (hs : h.sizeSize = 4 ∨ h.sizeSize = 8)
    (s : Bytes) (hlen : s.length + 1 < h.sizeBound) :
    Reads (string h) passed h.order (Assembly.string h s) h.order 0 s := by
  unfold Assembly.string
  split
  · rename_i hempty
    have hnil : s = [] := List.isEmpty_iff.mp hempty
    have hsize := (size_reads passed h hs 0 (by omega)).within (.reading .stringLength)
    subst hnil
    rw [← List.append_nil (Assembly.size h 0)]
    exact hsize.andThen (pure_reads [])
  · have hsize := (size_reads passed h hs (s.length + 1) hlen).within (.reading .stringLength)
    rw [List.append_assoc]
    refine hsize.bind ?_ (by simp)
    have htake := (take_reads (passed ++ Assembly.size h (s.length + 1)) (s ++ [0]) h.order
      ((s.length + 1 : Nat) : Int) (by simp)).within (.reading .string)
    have hs' : (s ++ [(0 : UInt8)]).dropLast = s := by simp
    rw [if_neg (by omega)]
    have hmap := htake.map (f := List.dropLast)
    rwa [hs'] at hmap

theorem boolean_reads (passed : Bytes) (o : ByteOrder) (b : Bool) :
    Reads (do return Payload.bool ((← lift (Cursor.unsigned 1)) ≠ 0)) passed o
      [if b then 1 else 0] o 0 (.bool b) := by
  have hread := (octet_reads passed o (if b then 1 else 0)).map
    (f := fun n => Payload.bool (n ≠ 0))
  have hb : decide ((if b then 1 else 0 : UInt8).toNat ≠ 0) = b := by cases b <;> rfl
  rw [hb] at hread
  exact hread

theorem ui64_reads (passed : Bytes) (o : ByteOrder) (n : Nat) :
    Reads (do return Payload.unsigned (← lift (Cursor.unsigned 8)).toUInt64) passed o
      (Bytes.ofNat o 8 n) o 0 (.unsigned n.toUInt64) := by
  have hread := (unsigned_reads passed o 8 n).map (f := fun n => Payload.unsigned n.toUInt64)
  have hn : (n % Nat.pow 256 8).toUInt64 = n.toUInt64 := by
    apply UInt64.toNat_inj.mp
    rw [UInt64.toNat_ofNat', UInt64.toNat_ofNat', show Nat.pow 256 8 = Nat.pow 2 64 by decide]
    exact Nat.mod_mod _ _
  rw [hn] at hread
  exact hread

theorem payload_reads (passed : Bytes) (h : Header) (hh : h.Supported) (c : Constant)
    (hc : c.Supported) (hlen : ∀ s, c.payload = .string s → s.length + 1 < h.sizeBound)
    (offset : Nat) :
    Reads (payload h offset c.tag) passed h.order (Assembly.constant h c).tail h.order 0
      (h.kept c.tag c.payload) := by
  cases hc with
  | nil => exact pure_reads _
  | boolean b => exact boolean_reads passed h.order b
  | lightUserdata n => exact (sized_reads passed h hh.sizeSize n.toNat).map
  | integer i => exact number_reads passed h (.signed i)
  | float x => exact number_reads passed h (.float x)
  | string s => exact (string_reads passed h hh.sizeSize s (hlen s rfl)).map
  | ui64 n =>
    have hread := ui64_reads passed h.order n.toNat
    rw [show n.toNat.toUInt64 = n from UInt64.ofNat_toNat] at hread
    exact hread

theorem constant_reads (passed : Bytes) (h : Header) (hh : h.Supported) (c : Constant)
    (hc : c.Supported) (hlen : ∀ s, c.payload = .string s → s.length + 1 < h.sizeBound) (i : Nat) :
    Reads (constant h i) passed h.order (Assembly.constant h c) h.order 0
      ⟨c.tag, h.kept c.tag c.payload⟩ := by
  refine Reads.within (.constant i) (Reads.look fun cursor _ _ _ => ?_)
  have hbytes : Assembly.constant h c = [c.tag.code] ++ (Assembly.constant h c).tail := rfl
  rw [hbytes]
  exact (byte_reads passed h.order .constantType c.tag.code).andThen
    (payload_reads _ h hh c hc hlen cursor.offset).map

theorem debug_reads (passed : Bytes) (h : Header) (hash : Option UInt32) :
    Reads debug passed h.order (Assembly.debug h hash) h.order 0 hash := by
  cases hash with
  | none =>
    have hflag := count_reads passed h.order .debugFlag 0 (by decide)
    rw [Assembly.debug, ← List.append_nil (Assembly.word h 0)]
    exact hflag.andThen (pure_reads none)
  | some hash =>
    have hflag := count_reads passed h.order .debugFlag 1 (by decide)
    exact hflag.andThen (word_reads _ h.order .debugHash hash).map

/-! ## The header -/

theorem trimZeros_terminated (name : Bytes) (hend : name.getLast? ≠ some 0) :
    trimZeros (name ++ [0]) = name := by
  unfold trimZeros
  rw [List.reverse_append, List.reverse_singleton, List.singleton_append,
    List.dropWhile_cons_of_pos (by simp)]
  cases hrev : name.reverse with
  | nil =>
    rw [List.dropWhile_nil, List.reverse_nil]
    exact (List.reverse_eq_nil_iff.mp hrev).symm
  | cons b bs =>
    have hlast : name.getLast? = some b := by
      rw [← List.head?_reverse, hrev, List.head?_cons]
    have hb : b ≠ 0 := fun h => hend (h ▸ hlast)
    rw [List.dropWhile_cons_of_neg (by simpa using hb), ← hrev, List.reverse_reverse]

/-- The type record as it is read back. -/
def trimmed (t : TypeRecord) : TypeRecord := ⟨t.id, trimZeros (t.name ++ [0])⟩

theorem typeRecord_reads (passed : Bytes) (h : Header) (t : TypeRecord)
    (hlen : t.name.length + 1 < 0x80000000) (i : Nat) :
    Reads (typeRecord i) passed h.order (Assembly.typeRecord h t) h.order 0 (trimmed t) := by
  have hlength := (integer_reads (passed ++ Assembly.word h t.id.toNat) h.order 4
    (t.name.length + 1)).within (.reading (.typeNameLength i))
  have hsigned : signed 4 ((t.name.length + 1) % Nat.pow 256 4 : Nat) = t.name.length + 1 := by
    have hp : Nat.pow 256 4 = 0x100000000 := by decide
    unfold signed
    rw [hp, Int.bmod_def]
    omega
  rw [hsigned] at hlength
  have hname := (take_reads (passed ++ Assembly.word h t.id.toNat ++
    Assembly.word h (t.name.length + 1)) (t.name ++ [0]) h.order (t.name.length + 1)
    (by simp)).within (.reading (.typeName i))
  have hrecord := hname.map (f := fun name => (⟨t.id, trimZeros name⟩ : TypeRecord))
  unfold Assembly.typeRecord
  rw [List.append_assoc, List.append_assoc]
  exact (word_reads passed h.order (.typeId i) t.id).andThen (hlength.andThen hrecord)

/-- The bytes of the header, part by part. -/
theorem headerBytes_eq (h : Header) :
    Assembly.headerBytes h = Bytes.ofNat .little 4 h.signature.toNat ++ ([h.version] ++
      ([h.format] ++ ([h.endianness] ++ ([] ++ ([h.intSize] ++ ([h.sizeSize] ++
      ([h.instructionSize] ++ ([h.numberSize] ++ ([h.numberType] ++ ([h.buildFlags] ++
      ([h.sharingMode] ++ (Assembly.word h h.types.items.length ++
      h.types.items.flatMap (Assembly.typeRecord h))))))))))))) := by
  simp [Assembly.headerBytes]

theorem accepted_reads (h : Header) (hh : h.Accepted) :
    Reads header [] .little (Assembly.headerBytes h) h.order 0
      { h with types := Section.ofItems (h.types.items.map trimmed) } := by
  rw [headerBytes_eq]
  refine (word_reads _ _ .signature h.signature).andThen ?_
  refine (byte_reads _ _ .version h.version).andThen ?_
  refine (byte_reads _ _ .format h.format).andThen ?_
  rw [if_pos hh.format]
  refine (byte_reads _ _ .endianness h.endianness).andThen ?_
  refine (setOrder_reads h.order).andThen ?_
  refine (byte_reads _ _ .typeSizes h.intSize).andThen ?_
  refine (byte_reads _ _ .typeSizes h.sizeSize).andThen ?_
  refine (byte_reads _ _ .typeSizes h.instructionSize).andThen ?_
  refine (byte_reads _ _ .typeSizes h.numberSize).andThen ?_
  rw [if_pos hh.instructionSize, if_pos hh.sizeSize, if_pos hh.numberSize]
  refine (byte_reads _ _ .numberType h.numberType).andThen ?_
  refine (byte_reads _ _ .buildFlags h.buildFlags).andThen ?_
  refine (byte_reads _ _ .sharingMode h.sharingMode).andThen ?_
  refine (count_reads _ _ .typeCount _ hh.typeCount).andThen ?_
  rw [toNat_toUInt32 hh.typeCount]
  obtain ⟨types, hall, hreads⟩ := repeated_reads typeRecord (Assembly.typeRecord h)
    (fun t t' => trimmed t = t') _ h.types.items 0 fun t ht i passed =>
      ⟨_, rfl, typeRecord_reads passed h t (hh.nameLength t ht) i⟩
  have htypes := List.forall₂_map_left_iff.mpr hall
  rw [List.forall₂_eq_eq_eq] at htypes
  subst htypes
  exact hreads.map

theorem header_reads (h : Header) (hh : h.Supported) :
    Reads header [] .little (Assembly.headerBytes h) h.order 0
      { h with types := Section.ofItems h.types.items } := by
  have hnames : h.types.items.map trimmed = h.types.items := by
    refine (List.map_congr_left fun t ht => ?_).trans (List.map_id _)
    rw [trimmed, trimZeros_terminated t.name (hh.nameEnd t ht), id]
  have hread := accepted_reads h hh.accepted
  rwa [hnames] at hread

/-! ## Functions -/

/-- An instruction that was read from a word. -/
theorem instruction_reads (passed : Bytes) (h : Header) (w : Word)
    (hw : (Opcode.ofCode? w.op).isSome) (i : Nat) :
    ∃ x : Instruction, w = x.raw ∧
      Reads (instruction i) passed h.order (Assembly.word h w.toNat) h.order 0 x := by
  obtain ⟨op, hop⟩ := Option.isSome_iff_exists.mp hw
  let x : Instruction :=
    ⟨passed.length, w.op, w, Section.ofItems (Instruction.operandsOf op.layout w)⟩
  have hdecode : Instruction.decode passed.length w = some x := by
    rw [Instruction.decode, hop]
    rfl
  refine ⟨x, rfl, Reads.look fun c hc _ _ => ?_⟩
  rw [hc, ← List.append_nil (Assembly.word h w.toNat)]
  refine (word_reads passed h.order (.instruction i) w).andThen ?_
  rw [hdecode]
  exact pure_reads _

theorem length_flatMap_word (h : Header) (words : List Word) :
    (words.flatMap fun w => Assembly.word h w.toNat).length = 4 * words.length := by
  induction words with
  | nil => rfl
  | cons w ws ih =>
    rw [List.flatMap_cons, List.length_append, ih, Assembly.word, Bytes.length_ofNat,
      List.length_cons]
    omega

theorem instructions_reads (passed : Bytes) (h : Header) (hh : h.Supported) (words : List Word)
    (hwords : ∀ w ∈ words, (Opcode.ofCode? w.op).isSome) (hcount : words.length < h.sizeBound) :
    ∃ is : List Instruction, is.map (·.raw) = words ∧
      Reads (instructions h) passed h.order
        (Assembly.size h words.length ++
          (List.replicate
            (Assembly.padding (passed.length + (Assembly.size h words.length).length)) 0 ++
          words.flatMap fun w => Assembly.word h w.toNat)) h.order 0 is := by
  have hsize := (size_reads passed h hh.sizeSize words.length hcount).within
    (.reading .instructionCount)
  let front := passed ++ Assembly.size h words.length
  let zeros : Bytes := List.replicate
    (Assembly.padding (passed.length + (Assembly.size h words.length).length)) 0
  have hpad : Reads (within .aligning (lift (Cursor.pad 4))) front h.order zeros h.order 0 () :=
    (lift_reads fun rest => Cursor.pad_between front zeros rest h.order
      (by simp [zeros, front, Assembly.padding])).within .aligning
  obtain ⟨is, hall, hreads⟩ := repeated_reads instruction (fun w => Assembly.word h w.toNat)
    (fun w x => w = x.raw) (front ++ zeros) words 0
    fun w hw i passed => instruction_reads passed h w (hwords w hw) i
  have hraw := List.forall₂_map_right_iff.mpr hall
  rw [List.forall₂_eq_eq_eq] at hraw
  have hlen := length_flatMap_word h words
  refine ⟨is, hraw.symm,
    hsize.bind (hpad.andThen (Reads.look fun c _ hc _ => ?_)) ?_⟩
  · rw [if_neg (by omega)]
    exact hreads
  · -- the words alone are as many bytes as the count wants to follow
    rw [List.length_append, hlen]
    omega

/-- The bytes of a function up to the number of its closures, part by part. -/
theorem code_eq (h : Header) (offset : Nat) (f : SourceCode) :
    Assembly.code h offset f = Assembly.word h f.upvalues.toNat ++
      (Assembly.word h f.parameters.toNat ++ ([f.varargFlags] ++
      (Assembly.word h f.registers.toNat ++ ((Assembly.size h f.words.length ++
      (List.replicate (Assembly.padding (offset + 13 + (Assembly.size h f.words.length).length)) 0
        ++ f.words.flatMap fun w => Assembly.word h w.toNat)) ++
      (Assembly.word h f.constants.length ++ (f.constants.flatMap (Assembly.constant h) ++
      Assembly.debug h f.debug)))))) := by
  have hfront : offset + (Assembly.word h f.upvalues.toNat ++ Assembly.word h f.parameters.toNat ++
      [f.varargFlags] ++ Assembly.word h f.registers.toNat ++
      Assembly.size h f.words.length).length =
      offset + 13 + (Assembly.size h f.words.length).length := by
    simp [Assembly.word]
    omega
  rw [Assembly.code, hfront]
  simp only [List.append_assoc]

theorem code_reads (passed : Bytes) (h : Header) (hh : h.Supported) (f : SourceCode)
    (hf : f.Supported h) :
    ∃ c : Code, c.upvalues = f.upvalues ∧ c.parameters = f.parameters ∧
      c.varargFlags = f.varargFlags ∧ c.registers = f.registers ∧
      (∃ is, c.instructions = some is ∧ is.map (·.raw) = f.words) ∧
      c.constants.items = f.constants.map (fun c => ⟨c.tag, h.kept c.tag c.payload⟩) ∧
      c.debug = f.debug ∧
      Reads (code h) passed h.order (Assembly.code h passed.length f) h.order 0 c := by
  let front := passed ++ Assembly.word h f.upvalues.toNat ++ Assembly.word h f.parameters.toNat ++
    [f.varargFlags] ++ Assembly.word h f.registers.toNat
  have hfront : front.length = passed.length + 13 := by
    simp [front, Assembly.word]
  obtain ⟨is, hwords, hinstructions⟩ :=
    instructions_reads front h hh f.words hf.opcodes hf.wordCount
  rw [hfront] at hinstructions
  obtain ⟨constants, hall, hconstants⟩ := repeated_reads (constant h) (Assembly.constant h)
    (fun c c' => ⟨c.tag, h.kept c.tag c.payload⟩ = c') (front ++ (Assembly.size h f.words.length ++
      (List.replicate (Assembly.padding (passed.length + 13 +
        (Assembly.size h f.words.length).length)) 0 ++
      f.words.flatMap fun w => Assembly.word h w.toNat)) ++ Assembly.word h f.constants.length)
    f.constants 0 fun c hc i passed => ⟨_, rfl,
      constant_reads passed h hh c (hf.constants c hc) (hf.stringLength c hc) i⟩
  have hkept := List.forall₂_map_left_iff.mpr hall
  rw [List.forall₂_eq_eq_eq] at hkept
  refine ⟨⟨passed.length, f.upvalues, f.parameters, f.varargFlags, f.registers, some is,
    Section.ofItems constants, f.debug⟩, rfl, rfl, rfl, rfl, ⟨is, rfl, hwords⟩, ?_, rfl, ?_⟩
  · rw [Section.items_ofItems, ← hkept]
  · rw [code_eq]
    refine Reads.look fun c hc _ _ => ?_
    rw [hc]
    refine (word_reads _ _ .upvalueCount f.upvalues).andThen ?_
    refine (word_reads _ _ .parameterCount f.parameters).andThen ?_
    refine (byte_reads _ _ .varargFlags f.varargFlags).andThen ?_
    refine (word_reads _ _ .registerCount f.registers).andThen ?_
    refine hinstructions.andThen ?_
    refine (count_reads _ _ .constantCount _ hf.constantCount).andThen ?_
    rw [toNat_toUInt32 hf.constantCount]
    exact hconstants.andThen (debug_reads _ h f.debug).map

theorem code_length_pos (h : Header) (offset : Nat) (f : SourceCode) :
    0 < (Assembly.code h offset f).length := by
  rw [code_eq, List.length_append, Assembly.word, Bytes.length_ofNat]
  omega

/-- A function can be read back wherever it stands, if the depth is at least its length. -/
def Readable (h : Header) (f : SourceFunction) : Prop :=
  ∀ (passed : Bytes) (depth : Nat), (Assembly.function h passed.length f).length ≤ depth →
    ∃ p, f.Mirrors h p ∧
      Reads (prototype h depth) passed h.order (Assembly.function h passed.length f) h.order 0 p

theorem functions_reads (h : Header) (depth : Nat) (fs : List SourceFunction)
    (hfs : ∀ f ∈ fs, Readable h f) (passed : Bytes) (i : Nat)
    (hdepth : (Assembly.functions h passed.length fs).length ≤ depth) :
    ∃ ps, List.Forall₂ (SourceFunction.Mirrors h) fs ps ∧
      Reads (repeated (fun _ => prototype h depth) i fs.length) passed h.order
        (Assembly.functions h passed.length fs) h.order 0 ps := by
  induction fs generalizing passed i with
  | nil => exact ⟨[], .nil, pure_reads []⟩
  | cons f fs ih =>
    rw [Assembly.functions, List.length_append] at hdepth
    obtain ⟨p, hp, hread⟩ := hfs f (by simp) passed depth (by omega)
    obtain ⟨ps, hps, hreads⟩ := ih (fun g hg => hfs g (by simp [hg]))
      (passed ++ Assembly.function h passed.length f) (i + 1)
      (by rw [List.length_append]; omega)
    rw [List.length_append] at hreads
    exact ⟨p :: ps, .cons hp hps, hread.andThen hreads.map⟩

theorem readable_of_supported (h : Header) (hh : h.Supported) (f : SourceFunction)
    (hf : f.Supported h) : Readable h f := by
  induction hf with
  | @intro f closures hcode hcount _ ih =>
    intro passed depth hdepth
    let front := Assembly.code h passed.length f ++ Assembly.word h closures.length
    have hlength : (Assembly.function h passed.length ⟨f, closures⟩).length = front.length +
        (Assembly.functions h (passed.length + front.length) closures).length := by
      rw [Assembly.function, List.length_append]
    have hpos : 0 < front.length := by
      have := code_length_pos h passed.length f
      rw [List.length_append]
      omega
    obtain ⟨depth, rfl⟩ : ∃ d, depth = d + 1 := ⟨depth - 1, by omega⟩
    obtain ⟨c, hupvalues, hparameters, hvararg, hregisters, ⟨is, hpresent, hwords⟩, hconstants,
      hdebug, hread⟩ := code_reads passed h hh f hcode
    have hfront : (passed ++ front).length = passed.length + front.length := List.length_append
    obtain ⟨ps, hps, hreads⟩ := functions_reads h depth closures ih (passed ++ front) 0
      (by rw [hfront]; omega)
    rw [hfront] at hreads
    refine ⟨{ toCode := c, closures := Section.ofItems ps }, ?_, ?_⟩
    · refine .intro hupvalues hparameters hvararg hregisters hpresent hwords hconstants hdebug ?_
      rw [Prototype.inner, Section.items_ofItems]
      exact hps
    · rw [Assembly.function, List.append_assoc]
      refine hread.andThen ((count_reads _ _ .closureCount _ hcount).andThen ?_)
      rw [toNat_toUInt32 hcount, List.append_assoc]
      exact hreads.map

/-- The type records of the header do not matter for the functions. -/
theorem prototype_types (h : Header) (types : Section TypeRecord) (depth : Nat) :
    prototype { h with types } depth = prototype h depth := by
  induction depth with
  | zero => rfl
  | succ depth ih =>
    unfold prototype
    rw [ih]
    rfl

/-- Reading the whole file ends behind its last byte. -/
theorem file_bytes (a : Assembly) (f : SourceFunction) (hroot : a.root = some f)
    (hh : a.header.Supported) (hf : f.Supported a.header) :
    ∃ p, f.Mirrors a.header p ∧
      Decoder.file (Cursor.start a.bytes .little) =
        .ok (⟨{ a.header with types := Section.ofItems a.header.types.items }, some p, none⟩,
          ⟨a.bytes, a.bytes.length, a.header.order, []⟩) := by
  let front := Assembly.headerBytes a.header
  have hbytes : a.bytes = front ++ Assembly.function a.header front.length f := by
    rw [Assembly.bytes, hroot]
  obtain ⟨p, hp, hread⟩ := readable_of_supported a.header hh f hf front (a.bytes.length + 1)
    (by rw [hbytes, List.length_append]; omega)
  refine ⟨p, hp, ?_⟩
  have hheader := header_reads a.header hh (Assembly.function a.header front.length f)
    (Nat.zero_le _)
  have hroot := hread [] (Nat.zero_le _)
  rw [List.append_nil, ← prototype_types a.header (Section.ofItems a.header.types.items)] at hroot
  show (header (Cursor.between [] a.bytes .little) >>= fun r => _) = _
  rw [hbytes, hheader]
  show (prototype _ ((front ++ Assembly.function a.header front.length f).length + 1)
    (Cursor.between front _ _) >>= fun r => _) = _
  rw [← hbytes, hroot]
  show Except.ok (_, Cursor.between (front ++ Assembly.function a.header front.length f) [] _) = _
  rw [← hbytes, Cursor.between_nil]

end Decoder

/-! ## Files -/

/-- **Decoding undoes assembling.** A file that was written is read to its last byte, with the
header that was written and a tree of prototypes that mirrors the tree of functions. -/
theorem decode_assembly (a : Assembly) (f : SourceFunction) (hroot : a.root = some f)
    (hh : a.header.Supported) (hf : f.Supported a.header) :
    ∃ (file : ChunkFile) (c : Cursor) (p : Prototype),
      Decoder.file (Cursor.start a.bytes .little) = .ok (file, c) ∧ c.offset = a.bytes.length ∧
      ChunkFile.decode a.bytes = .ok file ∧
      file.header = { a.header with types := Section.ofItems a.header.types.items } ∧
      file.header.types.items = a.header.types.items ∧
      file.root = some p ∧ f.Mirrors a.header p ∧ file.prototypes = none := by
  obtain ⟨p, hp, hrun⟩ := Decoder.file_bytes a f hroot hh hf
  refine ⟨_, _, p, hrun, rfl, ?_, rfl, Section.items_ofItems _, rfl, hp, rfl⟩
  show (Decoder.file (Cursor.start a.bytes .little)).map Prod.fst = _
  rw [hrun]
  rfl

/-- A big-endian file with integers and sizes of four bytes, a custom type and a closure. Its
constants hold more than the file keeps of them. -/
def Assembly.specimen : Assembly where
  header := { Header.standard with
    format := 13, endianness := 0, sizeSize := 4, numberSize := 4, numberType := 1
    types := some [⟨7, utf8 "Vec\x003"⟩] }
  root := some ⟨⟨1, 2, 3, 4, [0x0C000100, 0], [⟨.nil, .nil⟩, ⟨.boolean, .bool true⟩,
      ⟨.lightUserdata, .unsigned 0x123456789⟩, ⟨.number, .signed 0x123456789⟩,
      ⟨.string, .string [97, 0]⟩, ⟨.string, .string []⟩], some 9⟩,
    [⟨⟨0, 0, 1, 2, [0], [⟨.number, .float ⟨0x4004000000000000⟩⟩, ⟨.ui64, .unsigned 5⟩], none⟩,
      []⟩]⟩

theorem decode_assembly_specimen :
    ∃ f, Assembly.specimen.root = some f ∧ Assembly.specimen.header.Supported ∧
      f.Supported Assembly.specimen.header ∧
      ∃ (file : ChunkFile) (c : Cursor) (p : Prototype),
        Decoder.file (Cursor.start Assembly.specimen.bytes .little) = .ok (file, c) ∧
        c.offset = Assembly.specimen.bytes.length ∧
        ChunkFile.decode Assembly.specimen.bytes = .ok file ∧
        file.header.types.items = Assembly.specimen.header.types.items ∧
        file.root = some p ∧ f.Mirrors Assembly.specimen.header p := by
  have hh : Assembly.specimen.header.Supported :=
    ⟨by decide, by decide, by decide, by decide, by decide, by decide, by decide⟩
  have hf : ∀ f, Assembly.specimen.root = some f → f.Supported Assembly.specimen.header := by
    rintro f ⟨⟩
    refine .intro ⟨?_, by decide, ?_, ?_, by decide⟩ (by decide) ?_
    · simp only [List.forall_mem_cons, List.not_mem_nil, false_implies, implies_true, and_true]
      decide
    · simp only [List.forall_mem_cons, List.not_mem_nil, false_implies, implies_true, and_true]
      exact ⟨.nil, .boolean true, .lightUserdata _, .integer _, .string _, .string _⟩
    · simp [Header.sizeBound, Assembly.specimen]
    · simp only [List.forall_mem_cons, List.not_mem_nil, false_implies, implies_true, and_true]
      refine .intro ⟨?_, by decide, ?_, ?_, by decide⟩ (by decide) ?_
      · simp only [List.forall_mem_cons, List.not_mem_nil, false_implies, implies_true, and_true]
        decide
      · simp only [List.forall_mem_cons, List.not_mem_nil, false_implies, implies_true, and_true]
        exact ⟨.float _, .ui64 _⟩
      · simp
      · simp
  obtain ⟨file, c, p, hfile, hoffset, hdecode, _, htypes, hp, hmirrors, _⟩ :=
    decode_assembly Assembly.specimen _ rfl hh (hf _ rfl)
  exact ⟨_, rfl, hh, hf _ rfl, file, c, p, hfile, hoffset, hdecode, htypes, hp, hmirrors⟩

end HavokScript
