import HavokScript.Bytes
import Mathlib.Data.List.Basic
import Mathlib.Data.List.Forall2

/-!
# Texts that tell what they were made from

Texts are written one behind the other without a mark in between, so that it takes an argument to see
where one ends. `Tells s t P` says that wherever one string starts with `s` and with `t`, `P` holds and
the same follows the two: the string shows what the text at its front was made from, and where that
text ends. Such texts can be put one behind the other (`Tells.append`), and lists of them too, if the
lists are known to be equally long (`Tells.flatMap`) or something follows that none of them starts
with (`Tells.flatMap_close`).
-/

namespace HavokScript

/-- A string that starts with both texts shows `P`, and has the same behind both. -/
def Tells (s t : Bytes) (P : Prop) : Prop := ∀ ⦃x y : Bytes⦄, s ++ x = t ++ y → P ∧ x = y

namespace Tells

variable {s s' t t' : Bytes} {P Q : Prop}

theorem refl (s : Bytes) : Tells s s True := fun _ _ h => ⟨trivial, List.append_cancel_left h⟩

theorem imp (h : Tells s t P) (hPQ : P → Q) : Tells s t Q := fun _ _ hxy => (h hxy).imp_left hPQ

/-- What the first texts show may be used for the second ones. -/
theorem append (h : Tells s t P) (h' : P → Tells s' t' Q) : Tells (s ++ s') (t ++ t') (P ∧ Q) := by
  intro x y hxy
  rw [List.append_assoc, List.append_assoc] at hxy
  obtain ⟨hP, hrest⟩ := h hxy
  obtain ⟨hQ, hrest⟩ := h' hP hrest
  exact ⟨⟨hP, hQ⟩, hrest⟩

theorem of_eq (h : Tells s t P) (hst : s = t) : P := (h (congrArg (· ++ []) hst)).1

/-- The same text in front shows nothing. -/
theorem literal_append (r : Bytes) (h : Tells s t P) : Tells (r ++ s) (r ++ t) P :=
  ((refl r).append fun _ => h).imp And.right

/-- The same text behind shows nothing. -/
theorem append_literal (h : Tells s t P) (r : Bytes) : Tells (s ++ r) (t ++ r) P :=
  (h.append fun _ => refl r).imp And.left

/-- Texts without some byte are ended by it. -/
theorem of_stop {b : UInt8} (hs : b ∉ s) (ht : b ∉ t) : Tells (s ++ [b]) (t ++ [b]) (s = t) := by
  intro x y hxy
  rw [List.append_assoc, List.append_assoc, List.singleton_append, List.singleton_append] at hxy
  have hfirst := congrArg (List.idxOf b) hxy
  rw [List.idxOf_append_of_notMem hs, List.idxOf_append_of_notMem ht, List.idxOf_cons_self,
    List.idxOf_cons_self] at hfirst
  obtain ⟨hst, hrest⟩ := List.append_inj hxy hfirst
  exact ⟨hst, (List.cons.inj hrest).2⟩

/-- Texts that one reader reads back are ended by what it reads. -/
theorem of_reader {α : Type} {a b : α} (read : Bytes → Option (α × Bytes))
    (hs : ∀ x, read (s ++ x) = some (a, x)) (ht : ∀ x, read (t ++ x) = some (b, x)) :
    Tells s t (a = b) := by
  intro x y hxy
  have hread := hs x
  rw [hxy, ht, Option.some.injEq, Prod.mk.injEq] at hread
  exact ⟨hread.1.symm, hread.2.symm⟩

/-! ## Lists -/

section

variable {α : Type} {text : α → Bytes} {R : α → α → Prop}

theorem flatMap {as bs : List α} (hlength : as.length = bs.length)
    (h : ∀ a ∈ as, ∀ b ∈ bs, Tells (text a) (text b) (R a b)) :
    Tells (as.flatMap text) (bs.flatMap text) (List.Forall₂ R as bs) := by
  induction as generalizing bs with
  | nil =>
    cases bs with
    | nil => exact (refl []).imp fun _ => .nil
    | cons b bs => cases hlength
  | cons a as ih =>
    cases bs with
    | nil => cases hlength
    | cons b bs =>
      rw [List.flatMap_cons, List.flatMap_cons]
      refine ((h a List.mem_cons_self b List.mem_cons_self).append fun _ =>
        ih (Nat.succ.inj hlength) fun a' ha b' hb => ?_).imp fun hR => .cons hR.1 hR.2
      exact h a' (List.mem_cons_of_mem a ha) b' (List.mem_cons_of_mem b hb)

/-- A list is ended by a text that none of its items starts with. -/
theorem flatMap_close {close : Bytes} (hclose : ∀ a, ∀ x y, text a ++ x ≠ close ++ y)
    (h : ∀ a b, Tells (text a) (text b) (R a b)) (as bs : List α) :
    Tells (as.flatMap text ++ close) (bs.flatMap text ++ close) (List.Forall₂ R as bs) := by
  induction as generalizing bs with
  | nil =>
    cases bs with
    | nil => exact (refl _).imp fun _ => .nil
    | cons b bs =>
      intro x y hxy
      rw [List.flatMap_nil, List.nil_append, List.flatMap_cons, List.append_assoc,
        List.append_assoc] at hxy
      exact absurd hxy.symm (hclose b _ _)
  | cons a as ih =>
    cases bs with
    | nil =>
      intro x y hxy
      rw [List.flatMap_nil, List.nil_append, List.flatMap_cons, List.append_assoc,
        List.append_assoc] at hxy
      exact absurd hxy (hclose a _ _)
    | cons b bs =>
      rw [List.flatMap_cons, List.flatMap_cons, List.append_assoc, List.append_assoc]
      exact ((h a b).append fun _ => ih bs).imp fun hR => .cons hR.1 hR.2

end

end Tells

theorem Bytes.notMem_join {b : UInt8} {separator : Bytes} (hb : b ∉ separator) {items : List Bytes}
    (hitems : ∀ s ∈ items, b ∉ s) : b ∉ join separator items := by
  induction items with
  | nil => exact List.not_mem_nil
  | cons s items ih =>
    rw [List.forall_mem_cons] at hitems
    cases items with
    | nil => exact hitems.1
    | cons s' items =>
      rw [join, List.mem_append, List.mem_append, not_or, not_or]
      · exact ⟨⟨hitems.1, hb⟩, ih hitems.2⟩
      · nofun

/-- Joined pieces can be told apart if no piece has the first byte of the separator in it. -/
theorem Bytes.join_injective {b : UInt8} {r : Bytes} {xs ys : List Bytes} (hxs : xs ≠ [])
    (hys : ys ≠ []) (hx : ∀ s ∈ xs, b ∉ s) (hy : ∀ s ∈ ys, b ∉ s)
    (h : join (b :: r) xs = join (b :: r) ys) : xs = ys := by
  induction xs generalizing ys with
  | nil => exact absurd rfl hxs
  | cons x xs ih =>
    obtain ⟨y, ys, rfl⟩ := List.exists_cons_of_ne_nil hys
    rw [List.forall_mem_cons] at hx hy
    -- The byte stands in the text exactly if there is a second piece.
    cases xs with
    | nil =>
      cases ys with
      | nil => exact congrArg (fun s => [s]) h
      | cons y' ys =>
        change x = y ++ b :: r ++ join (b :: r) (y' :: ys) at h
        exact absurd (h ▸ by simp) hx.1
    | cons x' xs =>
      cases ys with
      | nil =>
        change x ++ b :: r ++ join (b :: r) (x' :: xs) = y at h
        exact absurd (h ▸ by simp) hy.1
      | cons y' ys =>
        have hsplit : x ++ [b] ++ (r ++ join (b :: r) (x' :: xs)) =
            y ++ [b] ++ (r ++ join (b :: r) (y' :: ys)) := by
          simpa [join] using h
        obtain ⟨rfl, hrest⟩ := Tells.of_stop hx.1 hy.1 hsplit
        have hjoin := List.append_cancel_left hrest
        exact congrArg (x :: ·) (ih (List.cons_ne_nil _ _) (List.cons_ne_nil _ _) hx.2 hy.2 hjoin)

end HavokScript
