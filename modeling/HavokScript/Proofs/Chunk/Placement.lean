import HavokScript.Proofs.Chunk.Positions
import HavokScript.Proofs.Chunk.RoundTrip
import HavokScript.Proofs.Text.Numeral
import HavokScript.Tree.Basic
import Mathlib.Algebra.Group.Int.Defs
import Mathlib.Algebra.Group.Nat.Defs

/-!
# Where decoded functions stand

The functions of a decoded file stand in its data one behind the other in the order of the walk, and
the instructions of each stand between its address and the address of the next function, four bytes
apart (`ChunkFile.decode_wellPlaced`). So functions have different labels, every instruction is the
decoding of the word at its address, and a branch that stays inside its function leads to the
instruction that its offset counts.
-/

namespace HavokScript

theorem Bytes.word?_eq_some {o : ByteOrder} {data : Bytes} {n : Nat} {w : Word}
    (h : data.word? o n = some w) : n + 4 ≤ data.length := by
  unfold Bytes.word? at h
  split at h
  · assumption
  · cases h

namespace Instruction

variable {data : Bytes} {o : ByteOrder} {n m : Nat} {is : List Instruction}

/-- The instruction stands at a position of the data that is a multiple of four: it is the decoding of
the word there. -/
structure StandsAt (data : Bytes) (o : ByteOrder) (n : Nat) (i : Instruction) : Prop where
  address : i.address = n
  aligned : n % 4 = 0
  inside : n + 4 ≤ data.length
  word : data.word? o n = some i.raw
  decoded : Instruction.decode i.address i.raw = some i

theorem Row.length (h : Row data o n is m) : m = n + 4 * is.length := by
  induction h with
  | nil n => rfl
  | cons word decoded rest ih =>
    rw [ih, List.length_cons]
    omega

theorem Row.standsAt (h : Row data o n is m) (hn : n % 4 = 0) {k : Nat} {i : Instruction}
    (hi : is[k]? = some i) : i.StandsAt data o (n + 4 * k) := by
  induction h generalizing k with
  | nil n => simp at hi
  | @cons n m i' is hword hdecoded rest ih =>
    cases k with
    | zero =>
      obtain rfl : i' = i := by simpa using hi
      have haddress := decode_address hdecoded
      exact ⟨haddress, hn, Bytes.word?_eq_some hword, hword, by rw [haddress, hdecoded]⟩
    | succ k =>
      have hstands := ih (by omega) (k := k) (by simpa using hi)
      rwa [show n + 4 + 4 * k = n + 4 * (k + 1) by omega] at hstands

end Instruction

/-- The label of a function at a position names the position. -/
theorem Code.address_of_label {c c' : Code} {n n' : Nat} (hn : c.address = n) (hn' : c'.address = n')
    (h : c.label = c'.label) : c.address = c'.address := by
  have hhex : Numeral.hex 8 n = Numeral.hex 8 n' := by
    rw [← hn, ← hn']
    exact List.append_cancel_left h
  have hread := congrArg (Numeral.ofDigits 16) hhex
  rw [Numeral.ofDigits_hex, Numeral.ofDigits_hex] at hread
  rw [hn, hn', hread]

namespace Prototype

variable {data : Bytes} {o : ByteOrder} {n m : Nat} {ps : List Prototype}

/-- A function takes at least the room in front of its instructions. -/
theorem lt_of_placedIn {c : Code} (h : c.PlacedIn data o n m) : n < m := by
  obtain ⟨first, last, hfirst, -, hrow, hlast⟩ := h.row
  have := hrow.length
  omega

theorem Laid.le (h : Laid data o n ps m) : n ≤ m := by
  induction h with
  | nil le => exact le
  | cons le placed _ ih =>
    have := lt_of_placedIn placed
    omega

/-- Every function has its place between the two positions. -/
theorem Laid.placedIn (h : Laid data o n ps m) {p : Prototype} (hp : p ∈ ps) :
    ∃ k l, n ≤ k ∧ p.toCode.PlacedIn data o k l ∧ l ≤ m := by
  induction h with
  | nil => exact absurd hp List.not_mem_nil
  | @cons n k l m q qs le placed rest ih =>
    rcases List.mem_cons.mp hp with rfl | hp
    · exact ⟨k, l, le, placed, rest.le⟩
    · obtain ⟨k', l', hle, hplaced, hm⟩ := ih hp
      have := lt_of_placedIn placed
      exact ⟨k', l', by omega, hplaced, hm⟩

theorem Laid.le_address (h : Laid data o n ps m) {p : Prototype} (hp : p ∈ ps) :
    (n : Int) ≤ p.address := by
  obtain ⟨k, l, hle, hplaced, -⟩ := h.placedIn hp
  rw [hplaced.address]
  omega

theorem Laid.pairwise_address (h : Laid data o n ps m) :
    (ps.map (·.address)).Pairwise (· < ·) := by
  induction h with
  | nil => exact .nil
  | @cons n k l m p ps le placed rest ih =>
    rw [List.map_cons, List.pairwise_cons, List.forall_mem_map]
    refine ⟨fun q hq => ?_, ih⟩
    have hq := rest.le_address hq
    have := lt_of_placedIn placed
    rw [placed.address]
    omega

/-- Functions that stand at different addresses have different labels. -/
theorem Laid.nodup_label (h : Laid data o n ps m) : (ps.map (·.label)).Nodup := by
  have haddress := h.pairwise_address
  unfold List.Nodup
  rw [List.pairwise_map] at haddress ⊢
  refine haddress.imp_of_mem fun {p q} hp hq hlt hlabel => ?_
  obtain ⟨k, l, -, hplaced, -⟩ := h.placedIn hp
  obtain ⟨k', l', -, hplaced', -⟩ := h.placedIn hq
  have hsame := Code.address_of_label hplaced.address hplaced'.address hlabel
  omega

/-- The instructions of a function end in front of the next one. -/
theorem Laid.before_next (h : Laid data o n ps m) {before after : List Prototype} {p q : Prototype}
    (hps : ps = before ++ p :: q :: after) :
    ∃ k l, p.toCode.PlacedIn data o k l ∧ (l : Int) ≤ q.address := by
  induction h generalizing before with
  | nil => simp at hps
  | @cons n k l m p' ps le placed rest ih =>
    cases before with
    | nil =>
      obtain ⟨rfl, rfl⟩ := List.cons.inj hps
      exact ⟨k, l, placed, rest.le_address (by simp)⟩
    | cons q' before => exact ih (List.cons.inj hps).2

end Prototype

/-- Offsets count instructions: addresses are four bytes apart and far from wrapping around. -/
theorem branchTarget_row {a b offset : Int} {k l : Nat} {n : Nat} (ha : a = n + 4 * k)
    (hb : b = n + 4 * l) (hl : (l : Int) = k + 1 + offset) (hb' : b < 2 ^ 63) (hn : 0 ≤ b) :
    branchTarget a offset = b := by
  have hsum : a + 4 + offset * 4 = b := by omega
  rw [branchTarget, hsum, wrap64, Int.bmod_def]
  omega

/-- **Decoded functions are well placed.** In the order of the walk the addresses of functions increase,
so that their labels differ. Every instruction stands behind the address of its function, and in front
of the next function; it is the decoding of the word at its address, which is a multiple of four. The
instructions of a function are four bytes apart, so a branch inside the function leads to the
instruction that its offset counts. A byte string has fewer than `2 ^ 63` bytes. -/
theorem ChunkFile.decode_wellPlaced {data : Bytes} {f : ChunkFile}
    (h : ChunkFile.decode data = .ok f) :
    (f.walk.map (·.address)).Pairwise (· < ·) ∧ (f.walk.map (·.label)).Nodup ∧
    (∀ p ∈ f.walk, ∀ i ∈ p.instructions.items, p.address < i.address ∧
      ∃ n, i.StandsAt data f.header.order n) ∧
    (∀ p ∈ f.walk, ∀ (k : Nat) i j, p.instructions.items[k]? = some i →
      p.instructions.items[k + 1]? = some j → j.address = i.address + 4) ∧
    (∀ before p q after, f.walk = before ++ p :: q :: after →
      ∀ i ∈ p.instructions.items, i.address < q.address) ∧
    (data.length < 2 ^ 63 → ∀ p ∈ f.walk, ∀ (k : Nat) (offset : Int) i j,
      p.instructions.items[k]? = some i → 0 ≤ k + 1 + offset →
      p.instructions.items[(k + 1 + offset).toNat]? = some j →
      branchTarget i.address offset = j.address) := by
  have houtcome := ChunkFile.decode_outcome data
  rw [h] at houtcome
  obtain ⟨horder, m, hm, hlaid⟩ := houtcome
  rw [← horder] at hlaid
  refine ⟨hlaid.pairwise_address, hlaid.nodup_label, ?_, ?_, ?_, ?_⟩
  · intro p hp i hi
    obtain ⟨k, l, -, hplaced, -⟩ := hlaid.placedIn hp
    obtain ⟨first, last, hfirst, haligned, hrow, -⟩ := hplaced.row
    obtain ⟨j, hj⟩ := List.mem_iff_getElem?.mp hi
    have hstands := hrow.standsAt haligned hj
    refine ⟨?_, _, hstands⟩
    rw [hplaced.address, hstands.address]
    omega
  · intro p hp k i j hi hj
    obtain ⟨n, l, -, hplaced, -⟩ := hlaid.placedIn hp
    obtain ⟨first, last, -, haligned, hrow, -⟩ := hplaced.row
    have hk := (hrow.standsAt haligned hi).address
    have hk' := (hrow.standsAt haligned hj).address
    omega
  · intro before p q after hwalk i hi
    obtain ⟨k, l, hplaced, hle⟩ := hlaid.before_next hwalk
    obtain ⟨first, last, -, haligned, hrow, hlast⟩ := hplaced.row
    obtain ⟨j, hj⟩ := List.mem_iff_getElem?.mp hi
    obtain ⟨hlt, -⟩ := List.getElem?_eq_some_iff.mp hj
    have hlength := hrow.length
    rw [(hrow.standsAt haligned hj).address]
    omega
  · intro hlength p hp k offset i j hi hoffset hj
    obtain ⟨n, l, -, hplaced, -⟩ := hlaid.placedIn hp
    obtain ⟨first, last, -, haligned, hrow, -⟩ := hplaced.row
    have hstands := hrow.standsAt haligned hi
    have hstands' := hrow.standsAt haligned hj
    have hinside := hstands'.inside
    refine branchTarget_row (n := first) (k := k) (l := (k + 1 + offset).toNat) ?_ ?_ ?_ ?_ ?_
    · rw [hstands.address]
      omega
    · rw [hstands'.address]
      omega
    · omega
    · rw [hstands'.address]
      omega
    · rw [hstands'.address]
      omega

/-- The specimen has a function with two instructions and a closure behind it. -/
theorem ChunkFile.decode_wellPlaced_specimen :
    ∃ f p q, ChunkFile.decode Assembly.specimen.bytes = .ok f ∧ f.walk = [p, q] ∧
      p.address < q.address ∧ p.label ≠ q.label ∧
      (∀ i ∈ p.instructions.items, p.address < i.address ∧ i.address < q.address ∧
        ∃ n, i.StandsAt Assembly.specimen.bytes f.header.order n) ∧
      ∀ i j, p.instructions.items = [i, j] →
        branchTarget i.address 0 = j.address ∧ branchTarget j.address (-2) = i.address := by
  have hread : (match ChunkFile.decode Assembly.specimen.bytes with
      | .ok f => f.walk.length
      | .error _ => 0) = 2 := by decide +kernel
  have hlength : Assembly.specimen.bytes.length < 2 ^ 63 := by decide +kernel
  cases hf : ChunkFile.decode Assembly.specimen.bytes with
  | error e =>
    rw [hf] at hread
    cases hread
  | ok f =>
    rw [hf] at hread
    obtain ⟨p, q, hwalk⟩ := List.length_eq_two.mp hread
    obtain ⟨haddress, hlabel, hstands, -, hnext, hbranch⟩ := ChunkFile.decode_wellPlaced hf
    rw [hwalk] at haddress hlabel
    refine ⟨f, p, q, rfl, hwalk, by simpa using haddress, by simpa using hlabel, ?_, ?_⟩
    · intro i hi
      obtain ⟨hlt, hn⟩ := hstands p (by simp [hwalk]) i hi
      exact ⟨hlt, hnext [] p q [] hwalk i hi, hn⟩
    · intro i j hitems
      have hbranch := hbranch hlength p (by simp [hwalk])
      exact ⟨hbranch 0 0 i j (by simp [hitems]) (by simp) (by simp [hitems]),
        hbranch 1 (-2) j i (by simp [hitems]) (by simp) (by simp [hitems])⟩

end HavokScript
