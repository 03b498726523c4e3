import HavokScript.Proofs.Chunk.Positions
import HavokScript.Proofs.Chunk.RoundTrip
import HavokScript.Proofs.Decompile.Shifting

/-!
# One function in two layouts

A function that was written need not be readable: it may have words with unknown opcodes and
constants with tags that no file has. `SourceFunction.readBack` says what reading it back gives, the
prototype or the kind of the failure, and `Decoder.prototype_meets` that the reader meets it,
wherever the function stands and whatever the header declares.

The header decides where a function stands and how wide its parts are written, but not what they
are. So under two headers with the same kind and width of numbers the two readings agree
(`SourceFunction.readBack_alike`): both fail with the same kind, or the prototypes are alike. The
words of a function start at the next multiple of four behind its front, so in each function the
instructions are shifted by a distance of its own.
-/

namespace HavokScript

/-! ## What fits -/

/-- The lengths of the function fit the sizes of the header, closures aside. -/
structure SourceCode.Fits (h : Header) (f : SourceCode) : Prop where
  wordCount : f.words.length < h.sizeBound
  stringLength : ∀ c ∈ f.constants, c.tag = .string →
    (Assembly.stringOf c.payload).length + 1 < h.sizeBound
  constantCount : f.constants.length < 0x100000000

/-- The lengths of the function and of its closures fit. -/
inductive SourceFunction.Fits (h : Header) : SourceFunction → Prop
  | intro {f : SourceCode} {closures : List SourceFunction} (code : f.Fits h)
      (closureCount : closures.length < 0x100000000) (inner : ∀ g ∈ closures, Fits h g) :
      Fits h ⟨f, closures⟩

/-! ## What is read back -/

/-- What reading the word at a position gives. -/
def Word.readBack (n : Nat) (w : Word) : Except DecodeFault Instruction :=
  match Instruction.decode n w with
  | some i => .ok i
  | none => .error .unknownOpcode

/-- What reading the payload of a constant gives. -/
def Header.payloadOf (h : Header) (c : Constant) : Except DecodeFault Payload :=
  if c.tag = .nil then .ok .nil
  else if c.tag = .boolean then .ok (.bool c.isTrue)
  else if c.tag = .lightUserdata then
    .ok (.unsigned (Assembly.unsignedOf c.payload % h.sizeBound).toUInt64)
  else if c.tag = .number then .ok (h.numberOf c.payload)
  else if c.tag = .string then .ok (.string (Assembly.stringOf c.payload))
  else if c.tag = .ui64 then .ok (.unsigned (Assembly.unsignedOf c.payload).toUInt64)
  else .error .unsupportedConstant

/-- What reading a constant gives. -/
def Constant.readBack (h : Header) (c : Constant) : Except DecodeFault Constant := do
  return ⟨c.tag, ← h.payloadOf c⟩

/-- What reading items gives that are written one behind the other from a position on. -/
def readBackAll {α β : Type} (readBack : Nat → α → Except DecodeFault β) (write : α → Bytes) :
    Nat → List α → Except DecodeFault (List β)
  | _, [] => return []
  | n, x :: xs => do
    let y ← readBack n x
    let ys ← readBackAll readBack write (n + (write x).length) xs
    return y :: ys

/-- Where the words of a function that starts at a position start. -/
def SourceCode.firstWord (h : Header) (n : Nat) (f : SourceCode) : Nat :=
  let front := n + 13 + (Assembly.size h f.words.length).length
  front + Assembly.padding front

/-- What reading a function at a position gives, closures aside. -/
def SourceCode.readBack (h : Header) (n : Nat) (f : SourceCode) : Except DecodeFault Code := do
  let is ← readBackAll Word.readBack (fun w => Assembly.word h w.toNat) (f.firstWord h n) f.words
  let constants ← f.constants.mapM (Constant.readBack h)
  return { address := n, upvalues := f.upvalues, parameters := f.parameters,
           varargFlags := f.varargFlags, registers := f.registers, instructions := some is,
           constants := Section.ofItems constants, debug := f.debug }

mutual

/-- What reading a function at a position gives. -/
def SourceFunction.readBack (h : Header) (n : Nat) : SourceFunction → Except DecodeFault Prototype
  | ⟨f, closures⟩ => do
    let c ← f.readBack h n
    let front := Assembly.code h n f ++ Assembly.word h closures.length
    let ps ← SourceFunction.readBacks h (n + front.length) closures
    return { toCode := c, closures := Section.ofItems ps }

/-- What reading functions one behind the other gives. -/
def SourceFunction.readBacks (h : Header) (n : Nat) :
    List SourceFunction → Except DecodeFault (List Prototype)
  | [] => return []
  | f :: fs => do
    let p ← f.readBack h n
    let ps ← SourceFunction.readBacks h (n + (Assembly.function h n f).length) fs
    return p :: ps

end

namespace Decoder

open Cursor (between)

variable {α β : Type} {passed bs bs' : Bytes} {o : ByteOrder} {k k' : Nat}

/-! ## Steps that may fail -/

/-- The step fails behind `passed` in front of `bs`, with a failure of this kind. -/
def Fails (step : Decoder α) (passed : Bytes) (o : ByteOrder) (bs : Bytes) (slack : Nat)
    (fault : DecodeFault) : Prop :=
  ∀ rest : Bytes, slack ≤ rest.length →
    ∃ e, step (between passed (bs ++ rest) o) = .error e ∧ e.cause.fault? = some fault

/-- The step reads `bs` as the value, or it fails with the kind. -/
def Meets (step : Decoder α) (passed : Bytes) (o : ByteOrder) (bs : Bytes) (slack : Nat) :
    Except DecodeFault α → Prop
  | .ok x => Reads step passed o bs o slack x
  | .error fault => Fails step passed o bs slack fault

theorem Reads.meets {s : Decoder α} {x : α} (h : Reads s passed o bs o k x) :
    Meets s passed o bs k (.ok x) := h

theorem Meets.bind {s : Decoder α} {f : α → Decoder β} {v : Except DecodeFault α}
    {w : α → Except DecodeFault β} (hs : Meets s passed o bs k v)
    (hf : ∀ x, v = .ok x → Meets (f x) (passed ++ bs) o bs' k' (w x))
    (hk : k ≤ bs'.length + k') : Meets (s >>= f) passed o (bs ++ bs') k' (v >>= w) := by
  have hrest : ∀ rest : Bytes, k' ≤ rest.length → k ≤ (bs' ++ rest).length := by
    intro rest hrest
    rw [List.length_append]
    omega
  cases v with
  | error fault =>
    intro rest hlength
    obtain ⟨e, he, hfault⟩ := hs (bs' ++ rest) (hrest rest hlength)
    refine ⟨e, ?_, hfault⟩
    show (s _ >>= fun r => f r.1 r.2) = _
    rw [List.append_assoc, he]
    rfl
  | ok x =>
    have hx := hf x rfl
    change Meets (s >>= f) passed o (bs ++ bs') k' (w x)
    cases hw : w x with
    | ok y =>
      rw [hw] at hx
      exact Reads.bind hs hx hk
    | error fault =>
      rw [hw] at hx
      intro rest hlength
      obtain ⟨e, he, hfault⟩ := hx rest hlength
      refine ⟨e, ?_, hfault⟩
      show (s _ >>= fun r => f r.1 r.2) = _
      rw [List.append_assoc, hs (bs' ++ rest) (hrest rest hlength)]
      exact he

/-- A step behind one that reads its bytes. -/
theorem Reads.before {s : Decoder α} {f : α → Decoder β} {x : α} {w : Except DecodeFault β}
    (hs : Reads s passed o bs o k x) (hf : Meets (f x) (passed ++ bs) o bs' k' w)
    (hk : k ≤ bs'.length + k') : Meets (s >>= f) passed o (bs ++ bs') k' w := by
  refine Meets.bind (v := .ok x) (w := fun _ => w) hs (fun y hy => ?_) hk
  cases hy
  exact hf

theorem Meets.map {s : Decoder α} {f : α → β} {v : Except DecodeFault α}
    (hs : Meets s passed o bs k v) :
    Meets (s >>= fun a => pure (f a)) passed o bs k (v >>= fun a => pure (f a)) := by
  have hmap : Meets (s >>= fun a => pure (f a)) passed o (bs ++ []) k
      (v >>= fun a => pure (f a)) :=
    hs.bind (fun x _ => (pure_reads (f x)).weaken (Nat.zero_le k)) (by omega)
  rwa [List.append_nil] at hmap

theorem Meets.look {f : Cursor → Decoder α} {v : Except DecodeFault α}
    (hf : ∀ c : Cursor, c.offset = passed.length → bs.length + k ≤ c.remaining →
      Meets (f c) passed o bs k v) : Meets (get >>= f) passed o bs k v := by
  cases v with
  | ok x => exact Reads.look fun c hoffset hremaining _ => hf c hoffset hremaining
  | error fault =>
    intro rest hrest
    refine hf (between passed (bs ++ rest) o) rfl ?_ rest hrest
    rw [Cursor.between_remaining, List.length_append]
    omega

theorem Meets.within {s : Decoder α} {v : Except DecodeFault α} (context : Context)
    (hs : Meets s passed o bs k v) : Meets (within context s) passed o bs k v := by
  cases v with
  | ok x => exact Reads.within context hs
  | error fault =>
    intro rest hrest
    obtain ⟨e, he, hfault⟩ := hs rest hrest
    refine ⟨{ e with path := context :: e.path }, ?_, hfault⟩
    unfold Decoder.within
    rw [he]

theorem failAt_meets {n : Nat} {cause : DecodeCause} {fault : DecodeFault}
    (hfault : cause.fault? = some fault) :
    Meets (failAt n cause : Decoder α) passed o bs k (.error fault) :=
  fun _ _ => ⟨_, rfl, hfault⟩

theorem repeated_meets (item : Nat → Decoder β) (write : α → Bytes)
    (readBack : Nat → α → Except DecodeFault β) (passed : Bytes) (xs : List α) (i : Nat)
    (hitem : ∀ x ∈ xs, ∀ i passed, Meets (item i) passed o (write x) 0 (readBack passed.length x)) :
    Meets (repeated item i xs.length) passed o (xs.flatMap write) 0
      (readBackAll readBack write passed.length xs) := by
  induction xs generalizing i passed with
  | nil => exact pure_reads []
  | cons x xs ih =>
    refine (hitem x (by simp) i passed).bind (fun y _ => Meets.map ?_) (Nat.zero_le _)
    rw [← List.length_append]
    exact ih (passed ++ write x) (i + 1) fun z hz => hitem z (by simp [hz])

/-! ## Parts of a function -/

theorem instruction_meets (passed : Bytes) (h : Header) (w : Word) (i : Nat) :
    Meets (instruction i) passed h.order (Assembly.word h w.toNat) 0
      (Word.readBack passed.length w) := by
  refine Meets.look fun c hc _ => ?_
  rw [hc, ← List.append_nil (Assembly.word h w.toNat), Word.readBack]
  refine (word_reads passed h.order (.instruction i) w).before ?_ (Nat.zero_le _)
  cases Instruction.decode passed.length w with
  | some x => exact pure_reads x
  | none => exact (failAt_meets rfl).within _

theorem instructions_meets (passed : Bytes) (h : Header) (hh : h.Accepted) (words : List Word)
    (hcount : words.length < h.sizeBound) :
    Meets (instructions h) passed h.order
      (Assembly.size h words.length ++
        (List.replicate
          (Assembly.padding (passed.length + (Assembly.size h words.length).length)) 0 ++
        words.flatMap fun w => Assembly.word h w.toNat)) 0
      (readBackAll Word.readBack (fun w => Assembly.word h w.toNat)
        (passed.length + (Assembly.size h words.length).length +
          Assembly.padding (passed.length + (Assembly.size h words.length).length)) words) := by
  let front := passed ++ Assembly.size h words.length
  have hfront : front.length = passed.length + (Assembly.size h words.length).length :=
    List.length_append
  rw [← hfront]
  let zeros : Bytes := List.replicate (Assembly.padding front.length) 0
  have hsize := (size_reads passed h hh.sizeSize words.length hcount).within
    (.reading .instructionCount)
  have hpad : Reads (within .aligning (lift (Cursor.pad 4))) front h.order zeros h.order 0 () :=
    (lift_reads fun rest => Cursor.pad_between front zeros rest h.order
      (by simp [zeros, Assembly.padding])).within .aligning
  have hwords := repeated_meets (o := h.order) instruction (fun w => Assembly.word h w.toNat)
    Word.readBack (front ++ zeros) words 0 fun w _ i passed => instruction_meets passed h w i
  have hlength := length_flatMap_word h words
  refine hsize.before (hpad.before (Meets.look fun c _ hc => ?_) (Nat.zero_le _)) ?_
  · rw [if_neg (by omega)]
    rw [List.length_append, List.length_replicate] at hwords
    exact hwords
  · -- the words alone are as many bytes as the count wants to follow
    rw [List.length_append, hlength]
    omega

theorem payload_meets (passed : Bytes) (h : Header) (hh : h.Accepted) (c : Constant)
    (hlength : c.tag = .string → (Assembly.stringOf c.payload).length + 1 < h.sizeBound)
    (offset : Nat) :
    Meets (payload h offset c.tag) passed h.order (Assembly.constant h c).tail 0
      (h.payloadOf c) := by
  obtain ⟨tag, p⟩ := c
  dsimp only at hlength ⊢
  by_cases hnil : tag = .nil
  · subst hnil
    exact pure_reads _
  by_cases hboolean : tag = .boolean
  · subst hboolean
    exact boolean_reads passed h.order _
  by_cases hlight : tag = .lightUserdata
  · subst hlight
    exact (sized_reads passed h hh.sizeSize (Assembly.unsignedOf p)).map
  by_cases hnumber : tag = .number
  · subst hnumber
    exact number_reads passed h p
  by_cases hstring : tag = .string
  · subst hstring
    exact (string_reads passed h hh.sizeSize _ (hlength rfl)).map
  by_cases hui64 : tag = .ui64
  · subst hui64
    exact ui64_reads passed h.order _
  · simp only [payload, Header.payloadOf, Assembly.constant, if_neg hnil, if_neg hboolean,
      if_neg hlight, if_neg hnumber, if_neg hstring, if_neg hui64]
    exact failAt_meets rfl

theorem constant_meets (passed : Bytes) (h : Header) (hh : h.Accepted) (c : Constant)
    (hlength : c.tag = .string → (Assembly.stringOf c.payload).length + 1 < h.sizeBound) (i : Nat) :
    Meets (constant h i) passed h.order (Assembly.constant h c) 0 (c.readBack h) := by
  refine Meets.within (.constant i) (Meets.look fun cursor _ _ => ?_)
  have hbytes : Assembly.constant h c = [c.tag.code] ++ (Assembly.constant h c).tail := rfl
  rw [hbytes]
  exact (byte_reads passed h.order .constantType c.tag.code).before
    (payload_meets _ h hh c hlength cursor.offset).map (Nat.zero_le _)

theorem readBackAll_eq_mapM (readBack : α → Except DecodeFault β) (write : α → Bytes) (n : Nat)
    (xs : List α) : readBackAll (fun _ => readBack) write n xs = xs.mapM readBack := by
  induction xs generalizing n with
  | nil => rfl
  | cons x xs ih => rw [readBackAll, ih, List.mapM_cons]

theorem constants_meets (passed : Bytes) (h : Header) (hh : h.Accepted) (cs : List Constant)
    (hlength : ∀ c ∈ cs, c.tag = .string →
      (Assembly.stringOf c.payload).length + 1 < h.sizeBound) :
    Meets (repeated (constant h) 0 cs.length) passed h.order (cs.flatMap (Assembly.constant h)) 0
      (cs.mapM (Constant.readBack h)) := by
  rw [← readBackAll_eq_mapM _ (Assembly.constant h) passed.length]
  exact repeated_meets _ _ _ passed cs 0 fun c hc i passed =>
    constant_meets passed h hh c (hlength c hc) i

theorem code_meets (passed : Bytes) (h : Header) (hh : h.Accepted) (f : SourceCode)
    (hf : f.Fits h) :
    Meets (code h) passed h.order (Assembly.code h passed.length f) 0
      (f.readBack h passed.length) := by
  let front := passed ++ Assembly.word h f.upvalues.toNat ++ Assembly.word h f.parameters.toNat ++
    [f.varargFlags] ++ Assembly.word h f.registers.toNat
  have hfront : front.length = passed.length + 13 := by
    simp [front, Assembly.word]
  have hinstructions := instructions_meets front h hh f.words hf.wordCount
  rw [hfront] at hinstructions
  rw [code_eq]
  refine Meets.look fun c hc _ => ?_
  rw [hc]
  refine (word_reads _ _ .upvalueCount f.upvalues).before ?_ (Nat.zero_le _)
  refine (word_reads _ _ .parameterCount f.parameters).before ?_ (Nat.zero_le _)
  refine (byte_reads _ _ .varargFlags f.varargFlags).before ?_ (Nat.zero_le _)
  refine (word_reads _ _ .registerCount f.registers).before ?_ (Nat.zero_le _)
  refine hinstructions.bind (fun is _ => ?_) (Nat.zero_le _)
  refine (count_reads _ _ .constantCount _ hf.constantCount).before ?_ (Nat.zero_le _)
  rw [toNat_toUInt32 hf.constantCount]
  refine (constants_meets _ h hh f.constants hf.stringLength).bind (fun ks _ => ?_) (Nat.zero_le _)
  exact (debug_reads _ h f.debug).map.meets

/-! ## Trees of functions -/

/-- Reading the function back, wherever it stands, gives what it should if the depth is at least its
length. -/
def ReadsBack (h : Header) (f : SourceFunction) : Prop :=
  ∀ (passed : Bytes) (depth : Nat), (Assembly.function h passed.length f).length ≤ depth →
    Meets (prototype h depth) passed h.order (Assembly.function h passed.length f) 0
      (f.readBack h passed.length)

theorem functions_meets (h : Header) (depth : Nat) (fs : List SourceFunction)
    (hfs : ∀ f ∈ fs, ReadsBack h f) (passed : Bytes) (i : Nat)
    (hdepth : (Assembly.functions h passed.length fs).length ≤ depth) :
    Meets (repeated (fun _ => prototype h depth) i fs.length) passed h.order
      (Assembly.functions h passed.length fs) 0
      (SourceFunction.readBacks h passed.length fs) := by
  induction fs generalizing passed i with
  | nil => exact pure_reads []
  | cons f fs ih =>
    rw [Assembly.functions, List.length_append] at hdepth
    rw [Assembly.functions, SourceFunction.readBacks]
    refine (hfs f (by simp) passed depth (by omega)).bind (fun p _ => Meets.map ?_) (Nat.zero_le _)
    rw [← List.length_append]
    exact ih (fun g hg => hfs g (by simp [hg])) (passed ++ Assembly.function h passed.length f)
      (i + 1) (by rw [List.length_append]; omega)

theorem prototype_meets (h : Header) (hh : h.Accepted) (f : SourceFunction) (hf : f.Fits h) :
    ReadsBack h f := by
  induction hf with
  | @intro f closures hcode hcount _ ih =>
    intro passed depth hdepth
    let front := Assembly.code h passed.length f ++ Assembly.word h closures.length
    have hlength : (Assembly.function h passed.length ⟨f, closures⟩).length = front.length +
        (Assembly.functions h (passed.length + front.length) closures).length := by
      rw [Assembly.function, List.length_append]
    have hpos : 0 < front.length := by
      have := code_length_pos h passed.length f
      rw [List.length_append]
      omega
    -- the front of the function has bytes, so one level less is enough for its closures
    obtain ⟨depth, rfl⟩ : ∃ d, depth = d + 1 := ⟨depth - 1, by omega⟩
    have hfront : (passed ++ front).length = passed.length + front.length := List.length_append
    have hclosures := functions_meets h depth closures ih (passed ++ front) 0
      (by rw [hfront]; omega)
    rw [hfront] at hclosures
    rw [Assembly.function, List.append_assoc, SourceFunction.readBack]
    refine (code_meets passed h hh f hcode).bind (fun c _ => ?_) (Nat.zero_le _)
    refine (count_reads _ _ .closureCount _ hcount).before ?_ (Nat.zero_le _)
    rw [toNat_toUInt32 hcount, List.append_assoc]
    exact hclosures.map

/-- Decoding what was written under an accepted header gives what reading the main function back
gives. -/
theorem decode_readBack (h : Header) (hh : h.Accepted) (f : SourceFunction) (hf : f.Fits h) :
    Agree (fun p file => file.root = some p) (fun fault e => e.cause.fault? = some fault)
      (f.readBack h (Assembly.headerBytes h).length)
      (ChunkFile.decode (Assembly.bytes ⟨h, some f⟩)) := by
  let front := Assembly.headerBytes h
  let types := Section.ofItems (h.types.items.map trimmed)
  let body := Assembly.function h front.length f
  have hdepth : body.length ≤ (front ++ body).length + 1 := by
    rw [List.length_append]
    omega
  have hroot := prototype_meets h hh f hf front ((front ++ body).length + 1) hdepth
  have hheader := accepted_reads h hh body (Nat.zero_le _)
  have hrun : file (Cursor.start (front ++ body) .little) =
      (prototype h ((front ++ body).length + 1) (between front (body ++ []) h.order) >>= fun r =>
        .ok (⟨{ h with types }, some r.1, none⟩, r.2)) := by
    show (header (between [] (front ++ body) .little) >>= fun r => _) = _
    rw [hheader, List.append_nil]
    show (prototype { h with types } _ _ >>= fun r => _) = _
    rw [prototype_types]
    rfl
  change Agree _ _ _ (Except.map Prod.fst (file (Cursor.start (front ++ body) .little)))
  rw [hrun]
  cases hback : f.readBack h front.length with
  | ok p =>
    rw [hback] at hroot
    rw [hroot [] (Nat.zero_le _)]
    exact .ok rfl
  | error fault =>
    rw [hback] at hroot
    obtain ⟨e, he, hfault⟩ := hroot [] (Nat.zero_le _)
    rw [he]
    exact .error hfault

end Decoder

/-! ## Two layouts -/

section

variable {h h' : Header}

theorem Header.numberOf_congr (htype : h'.numberType = h.numberType)
    (hsize : h'.numberSize = h.numberSize) (p : Payload) : h'.numberOf p = h.numberOf p := by
  unfold Header.numberOf Header.integers Header.keptInteger Header.keptFloat
  rw [htype, hsize]

/-- Only an address depends on how wide a size is. -/
theorem Header.payloadOf_congr (htype : h'.numberType = h.numberType)
    (hsize : h'.numberSize = h.numberSize) {c : Constant} (hc : c.tag ≠ .lightUserdata) :
    h'.payloadOf c = h.payloadOf c := by
  simp only [Header.payloadOf, if_neg hc, Header.numberOf_congr htype hsize]

theorem Constant.readBack_alike (htype : h'.numberType = h.numberType)
    (hsize : h'.numberSize = h.numberSize) (c : Constant) :
    Agree Constant.Alike (· = ·) (c.readBack h) (c.readBack h') := by
  unfold Constant.readBack
  by_cases hlight : c.tag = .lightUserdata
  · -- the two payloads may be cut to different widths, so only the tags are the same
    have hok : ∀ h : Header, ∃ p, h.payloadOf c = .ok p := by
      intro h
      simp only [Header.payloadOf, hlight]
      exact ⟨_, rfl⟩
    obtain ⟨p, hp⟩ := hok h
    obtain ⟨p', hp'⟩ := hok h'
    rw [hp, hp']
    exact .ok ⟨rfl, fun hne => absurd hlight hne⟩
  · rw [Header.payloadOf_congr htype hsize hlight]
    cases h.payloadOf c with
    | ok p => exact .ok ⟨rfl, fun _ => rfl⟩
    | error fault => exact .error rfl

theorem constants_readBack_alike (htype : h'.numberType = h.numberType)
    (hsize : h'.numberSize = h.numberSize) (cs : List Constant) :
    Agree (List.Forall₂ Constant.Alike) (· = ·) (cs.mapM (Constant.readBack h))
      (cs.mapM (Constant.readBack h')) := by
  induction cs with
  | nil => exact .ok .nil
  | cons c cs ih =>
    rw [List.mapM_cons, List.mapM_cons]
    exact (Constant.readBack_alike htype hsize c).bind fun _ _ hc =>
      ih.bind fun _ _ hcs => .ok (.cons hc hcs)

theorem Word.readBack_alike {n n' : Nat} {k : Int} (hk : (n' : Int) = n + k) (w : Word) :
    Agree (fun i i' => i' = i.moved (· + k)) (· = ·) (Word.readBack n w) (Word.readBack n' w) := by
  unfold Word.readBack Instruction.decode
  cases Opcode.ofCode? w.op with
  | none => exact .error rfl
  | some op =>
    refine .ok ?_
    rw [hk]
    rfl

/-- The words of a function are four bytes apart in every layout. -/
theorem words_readBack_alike (h h' : Header) {n n' : Nat} {k : Int} (hk : (n' : Int) = n + k)
    (ws : List Word) :
    Agree (fun is is' => is' = is.map (Instruction.moved (· + k))) (· = ·)
      (readBackAll Word.readBack (fun w => Assembly.word h w.toNat) n ws)
      (readBackAll Word.readBack (fun w => Assembly.word h' w.toNat) n' ws) := by
  induction ws generalizing n n' with
  | nil => exact .ok rfl
  | cons w ws ih =>
    have hnext : ((n' + (Assembly.word h' w.toNat).length : Nat) : Int) =
        (n + (Assembly.word h w.toNat).length : Nat) + k := by
      simp only [Assembly.word, Bytes.length_ofNat]
      omega
    refine (Word.readBack_alike hk w).bind fun i _ hi => (ih hnext).bind fun is _ his => .ok ?_
    rw [hi, his, List.map_cons]

/-- Every instruction that is read back comes from one of the words, between the first and the last
of them. -/
theorem words_readBack_outcome (h : Header) (n : Nat) (ws : List Word) :
    Outcome (fun is : List Instruction => ∀ i ∈ is, i.Decoded ∧ i.raw ∈ ws ∧
        i.address < (n + 4 * ws.length : Nat))
      (fun _ => True) (readBackAll Word.readBack (fun w => Assembly.word h w.toNat) n ws) := by
  induction ws generalizing n with
  | nil => exact fun _ hi => absurd hi List.not_mem_nil
  | cons w ws ih =>
    have hword : Outcome (fun i => Instruction.decode n w = some i) (fun _ => True)
        (Word.readBack n w) := by
      unfold Word.readBack
      cases Instruction.decode n w with
      | none => trivial
      | some i => rfl
    refine hword.bind fun i hi => (ih _).bind fun is his => Outcome.pure ?_
    have hraw := Instruction.decode_raw hi
    rw [List.forall_mem_cons]
    refine ⟨⟨⟨n, by rw [hraw, hi]⟩, by simp [hraw], ?_⟩, fun j hj => ?_⟩
    · rw [Instruction.decode_address hi, List.length_cons]
      omega
    · obtain ⟨hdecoded, hmem, hlt⟩ := his j hj
      refine ⟨hdecoded, by simp [hmem], ?_⟩
      simp only [Assembly.word, Bytes.length_ofNat] at hlt
      rw [List.length_cons]
      omega

/-- The words of a function end before the function does. -/
theorem SourceCode.firstWord_le (h : Header) (n : Nat) (f : SourceCode) :
    f.firstWord h n + 4 * f.words.length ≤ n + (Assembly.code h n f).length := by
  have hwords := Decoder.length_flatMap_word h f.words
  rw [Decoder.code_eq, SourceCode.firstWord]
  simp only [List.length_append, List.length_replicate, List.length_cons, List.length_nil,
    Assembly.word, Bytes.length_ofNat] at hwords ⊢
  omega

theorem SourceCode.readBack_placed {n : Nat} {f : SourceCode} {is : List Instruction}
    (hn : n + (Assembly.code h n f).length < 2 ^ 63)
    (his : readBackAll Word.readBack (fun w => Assembly.word h w.toNat) (f.firstWord h n) f.words =
      .ok is) : ∀ i ∈ is, i.Decoded ∧ i.address < 2 ^ 63 := by
  intro i hi
  have hplaced := words_readBack_outcome h (f.firstWord h n) f.words
  rw [his] at hplaced
  obtain ⟨hdecoded, -, hlt⟩ := hplaced i hi
  have hle := f.firstWord_le h n
  exact ⟨hdecoded, by omega⟩

theorem SourceCode.readBack_alike (htype : h'.numberType = h.numberType)
    (hsize : h'.numberSize = h.numberSize) (f : SourceCode) {n n' : Nat}
    (hn : n + (Assembly.code h n f).length < 2 ^ 63)
    (hn' : n' + (Assembly.code h' n' f).length < 2 ^ 63) :
    Agree (fun c c' => (∃ k, c.Alike (· + k) c') ∧ c.Placed ∧ c'.Placed) (· = ·)
      (f.readBack h n) (f.readBack h' n') := by
  -- the words are not shifted as far as the function: the padding in front of them differs
  let k : Int := f.firstWord h' n' - f.firstWord h n
  have hk : (f.firstWord h' n' : Int) = f.firstWord h n + k := by omega
  have hwords := ((words_readBack_alike h h' hk f.words).and_left
    fun is his => SourceCode.readBack_placed hn his).and_right
    fun is his => SourceCode.readBack_placed hn' his
  refine hwords.bind fun is is' ⟨⟨his, hplaced⟩, hplaced'⟩ => ?_
  refine (constants_readBack_alike htype hsize f.constants).bind fun cs cs' hcs => .ok ?_
  refine ⟨⟨k, rfl, rfl, his, ?_⟩, hplaced, hplaced'⟩
  rw [Section.items_ofItems, Section.items_ofItems]
  exact hcs

theorem Prototype.alike_of_closures {k : Int} {c c' : Code} {ps ps' : List Prototype}
    (hc : c.Alike (· + k) c') (hplaced : c.Placed) (hplaced' : c'.Placed)
    (hps : Prototype.AllAlike ps ps') :
    Prototype.Alike ⟨c, Section.ofItems ps⟩ ⟨c', Section.ofItems ps'⟩ := by
  cases hps with
  | nil => exact .leaf hc hplaced hplaced'
  | cons head tail => exact .node hc hplaced hplaced' (.cons head tail)

mutual

/-- Under headers with the same kind and width of numbers a function is read back as functions that
are alike, or both times with a failure of the same kind. -/
theorem SourceFunction.readBack_alike (htype : h'.numberType = h.numberType)
    (hsize : h'.numberSize = h.numberSize) (f : SourceFunction) {n n' : Nat}
    (hn : n + (Assembly.function h n f).length < 2 ^ 63)
    (hn' : n' + (Assembly.function h' n' f).length < 2 ^ 63) :
    Agree Prototype.Alike (· = ·) (f.readBack h n) (f.readBack h' n') := by
  obtain ⟨f, closures⟩ := f
  simp only [Assembly.function, List.length_append] at hn hn'
  refine (f.readBack_alike htype hsize (by omega) (by omega)).bind ?_
  intro c c' ⟨⟨k, hc⟩, hplaced, hplaced'⟩
  refine (SourceFunction.readBacks_alike htype hsize closures ?_ ?_).bind fun ps ps' hps =>
    .ok (Prototype.alike_of_closures hc hplaced hplaced' hps)
  · rw [List.length_append]
    omega
  · rw [List.length_append]
    omega

theorem SourceFunction.readBacks_alike (htype : h'.numberType = h.numberType)
    (hsize : h'.numberSize = h.numberSize) (fs : List SourceFunction) {n n' : Nat}
    (hn : n + (Assembly.functions h n fs).length < 2 ^ 63)
    (hn' : n' + (Assembly.functions h' n' fs).length < 2 ^ 63) :
    Agree Prototype.AllAlike (· = ·) (SourceFunction.readBacks h n fs)
      (SourceFunction.readBacks h' n' fs) := by
  cases fs with
  | nil => exact .ok .nil
  | cons f fs =>
    simp only [Assembly.functions, List.length_append] at hn hn'
    refine (SourceFunction.readBack_alike htype hsize f (by omega) (by omega)).bind
      fun p p' hp => ?_
    refine (SourceFunction.readBacks_alike htype hsize fs ?_ ?_).bind fun ps ps' hps =>
      .ok (.cons hp hps)
    · omega
    · omega

end

end

end HavokScript
