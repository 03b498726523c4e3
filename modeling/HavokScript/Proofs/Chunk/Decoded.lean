import HavokScript.Chunk.Decode
import HavokScript.Proofs.Chunk.RoundTrip
import HavokScript.Proofs.Outcome

/-!
# What decoding gives

Every instruction of a decoded file is the decoding of a word at a position of the file
(`ChunkFile.decode_gives`), so what the layout of an opcode says about operands holds of all
of them. The payload of a constant belongs to its tag, and every function has its position
(`ChunkFile.decode_codes`). A decoded file has a main function.
-/

namespace HavokScript

/-- The instruction is the decoding of its word at some position. -/
def Instruction.Decoded (i : Instruction) : Prop :=
  ∃ address : Nat, Instruction.decode address i.raw = some i

theorem Instruction.decode_raw {address : Nat} {w : Word} {i : Instruction}
    (h : Instruction.decode address w = some i) : i.raw = w := by
  obtain ⟨op, _, rfl⟩ := Option.map_eq_some_iff.mp h
  rfl

theorem Instruction.decode_op {address : Int} {w : Word} {i : Instruction}
    (h : Instruction.decode address w = some i) : i.op = Word.op w := by
  obtain ⟨op, -, rfl⟩ := Option.map_eq_some_iff.mp h
  rfl

theorem Instruction.decode_address {address : Int} {w : Word} {i : Instruction}
    (h : Instruction.decode address w = some i) : i.address = address := by
  obtain ⟨op, -, rfl⟩ := Option.map_eq_some_iff.mp h
  rfl

theorem Instruction.Decoded.address_nonneg {i : Instruction} (h : i.Decoded) : 0 ≤ i.address := by
  obtain ⟨address, hdecode⟩ := h
  rw [Instruction.decode_address hdecode]
  exact Int.natCast_nonneg address

/-- The payload belongs to the tag, and a number is an integer exactly if the header says so. -/
structure Constant.Decoded (h : Header) (c : Constant) : Prop where
  supported : c.Supported
  number : c.tag = .number → ((∃ i, c.payload = .signed i) ↔ h.integers)

/-- The function stands at some position, its instructions are decodings of words, and the payloads of
its constants belong to their tags. -/
structure Code.Decoded (c : Code) : Prop where
  address : ∃ n : Nat, c.address = n
  instructions : ∀ i ∈ c.instructions.items, i.Decoded
  constants : ∀ k ∈ c.constants.items, k.Supported

namespace Prototype

/-- All instructions of the function are decodings of their words. -/
def Decoded (p : Prototype) : Prop := ∀ i ∈ p.instructions.items, i.Decoded

theorem mem_walkAll {q : Prototype} {ps : List Prototype} :
    q ∈ walkAll ps ↔ ∃ p ∈ ps, q ∈ walk p := by
  induction ps with
  | nil => simp [walkAll]
  | cons p ps ih => simp [walkAll, ih]

theorem mem_walk {q : Prototype} {code : Code} {ps : List Prototype} :
    q ∈ walk ⟨code, Section.ofItems ps⟩ ↔
      q = ⟨code, Section.ofItems ps⟩ ∨ ∃ p ∈ ps, q ∈ walk p := by
  cases ps with
  | nil => simp [Section.ofItems, walk]
  | cons p ps =>
    show q ∈ walk ⟨code, some (p :: ps)⟩ ↔ q = ⟨code, some (p :: ps)⟩ ∨ _
    rw [walk, List.mem_cons, mem_walkAll]

end Prototype

namespace Decoder

variable {α : Type} {P : α → Prop}

theorem fail_gives (cause : DecodeCause) :
    Gives (fun _ : α => False) (fun _ => True) (fail cause) := fun _ => trivial

theorem failAt_gives (offset : Nat) (cause : DecodeCause) :
    Gives P (fun _ => True) (failAt offset cause) := fun _ => trivial

theorem within_gives {m : Decoder α} (context : Context) (hm : Gives P (fun _ => True) m) :
    Gives P (fun _ => True) (within context m) := by
  intro c
  have h := hm c
  unfold within
  cases hc : m c with
  | ok r => rwa [hc] at h
  | error e => trivial

theorem repeated_gives {item : Nat → Decoder α} (hitem : ∀ i, Gives P (fun _ => True) (item i))
    (i count : Nat) : Gives (fun xs => ∀ x ∈ xs, P x) (fun _ => True) (repeated item i count) := by
  induction count generalizing i with
  | zero => exact Gives.pure (by simp)
  | succ count ih =>
    refine (hitem i).bind fun x hx => (ih (i + 1)).bind fun xs hxs => Gives.pure ?_
    exact List.forall_mem_cons.mpr ⟨hx, hxs⟩

theorem instruction_gives (i : Nat) :
    Gives Instruction.Decoded (fun _ => True) (instruction i) := by
  refine (gives_any get).bind fun c _ => (gives_any _).bind fun w _ => ?_
  cases hdecode : Instruction.decode c.offset w with
  | none => exact within_gives _ (failAt_gives _ _)
  | some x =>
    exact Gives.pure ⟨c.offset, by rw [Instruction.decode_raw hdecode, hdecode]⟩

theorem instructions_gives (h : Header) :
    Gives (fun is => ∀ i ∈ is, i.Decoded) (fun _ => True) (instructions h) := by
  refine (gives_any _).bind fun count _ => (gives_any _).bind fun _ _ =>
    (gives_any get).bind fun c _ => ?_
  split
  · exact (fail_gives _).bind fun _ h => h.elim
  · exact repeated_gives instruction_gives 0 count

theorem payload_gives (h : Header) (offset : Nat) (tag : Tag) :
    Gives (fun p => (⟨tag, p⟩ : Constant).Decoded h) (fun _ => True) (payload h offset tag) := by
  unfold payload
  split_ifs with hnil hboolean haddress hnumber hstring hui64
  · subst hnil
    exact Gives.pure ⟨.nil, nofun⟩
  · subst hboolean
    exact (gives_any _).bind fun n _ => Gives.pure ⟨.boolean _, nofun⟩
  · subst haddress
    exact (gives_any _).bind fun n _ => Gives.pure ⟨.lightUserdata _, nofun⟩
  · subst hnumber
    unfold number
    dsimp only
    split
    · rename_i hintegers
      exact (gives_any _).bind fun n _ =>
        Gives.pure ⟨.integer _, fun _ => iff_of_true ⟨_, rfl⟩ hintegers⟩
    · rename_i hintegers
      exact (gives_any _).bind fun bits _ =>
        Gives.pure ⟨.float _, fun _ => iff_of_false nofun hintegers⟩
  · subst hstring
    exact (gives_any _).bind fun s _ => Gives.pure ⟨.string s, nofun⟩
  · subst hui64
    exact (gives_any _).bind fun n _ => Gives.pure ⟨.ui64 _, nofun⟩
  · exact failAt_gives _ _

theorem constant_gives (h : Header) (i : Nat) :
    Gives (Constant.Decoded h) (fun _ => True) (constant h i) := by
  refine within_gives _ ((gives_any get).bind fun c _ => (gives_any _).bind fun tag _ => ?_)
  exact (payload_gives h c.offset ⟨tag⟩).bind fun p hp => Gives.pure hp

theorem code_gives (h : Header) :
    Gives (fun c => c.Decoded ∧ ∀ k ∈ c.constants.items, k.Decoded h) (fun _ => True) (code h) := by
  refine (gives_any get).bind fun c _ => (gives_any _).bind fun upvalues _ =>
    (gives_any _).bind fun parameters _ => (gives_any _).bind fun varargFlags _ =>
    (gives_any _).bind fun registers _ => (instructions_gives h).bind fun is his =>
    (gives_any _).bind fun count _ =>
    (repeated_gives (constant_gives h) 0 count.toNat).bind fun constants hconstants =>
    (gives_any _).bind fun debug _ => Gives.pure ?_
  rw [← Section.items_ofItems constants] at hconstants
  exact ⟨⟨⟨c.offset, rfl⟩, his, fun k hk => (hconstants k hk).supported⟩, hconstants⟩

theorem prototype_gives (h : Header) (depth : Nat) :
    Gives (fun p => ∀ q ∈ p.walk, q.toCode.Decoded ∧ ∀ k ∈ q.constants.items, k.Decoded h)
      (fun _ => True) (prototype h depth) := by
  induction depth with
  | zero => exact (fail_gives _).mono (fun _ h => h.elim) (fun _ h => h)
  | succ depth ih =>
    refine (code_gives h).bind fun c hc => (gives_any _).bind fun count _ =>
      (repeated_gives (fun _ => ih) 0 count.toNat).bind fun ps hps => Gives.pure ?_
    intro q hq
    rcases Prototype.mem_walk.mp hq with rfl | ⟨p, hp, hq⟩
    · exact hc
    · exact hps p hp q hq

theorem file_gives :
    Gives (fun f => f.root.isSome ∧ ∀ p ∈ f.walk, p.toCode.Decoded ∧
      ∀ k ∈ p.constants.items, k.Decoded f.header) (fun _ => True) file := by
  refine (gives_any _).bind fun h _ => (gives_any get).bind fun c _ =>
    (prototype_gives h _).bind fun p hp => Gives.pure ⟨rfl, ?_⟩
  exact hp

end Decoder

namespace ChunkFile

variable {data : Bytes} {f : ChunkFile}

theorem decode_walk (h : decode data = .ok f) : f.root.isSome ∧ ∀ p ∈ f.walk,
    p.toCode.Decoded ∧ ∀ k ∈ p.constants.items, k.Decoded f.header := by
  unfold decode at h
  cases hrun : Decoder.file.run (Cursor.start data .little) with
  | error e =>
    rw [hrun] at h
    cases h
  | ok r =>
    rw [hrun] at h
    cases h
    exact Decoder.file_gives.of_ok hrun

theorem decode_codes (h : decode data = .ok f) :
    f.root.isSome ∧ ∀ p ∈ f.walk, p.toCode.Decoded :=
  (decode_walk h).imp_right fun hall p hp => (hall p hp).1

/-- The payload of a number is of the type that the header declares. -/
theorem decode_constants (h : decode data = .ok f) {p : Prototype} (hp : p ∈ f.walk) :
    ∀ k ∈ p.constants.items, k.Decoded f.header := ((decode_walk h).2 p hp).2

theorem decode_gives (h : decode data = .ok f) : f.root.isSome ∧ ∀ p ∈ f.walk, p.Decoded :=
  (decode_codes h).imp_right fun hall p hp => (hall p hp).instructions

end ChunkFile

end HavokScript
