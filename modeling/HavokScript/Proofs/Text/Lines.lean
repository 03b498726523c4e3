import HavokScript.Tree.Outline
import Mathlib.Data.List.Basic

/-!
# Lines of a text

The lines of a text are what stands between its line breaks. A text that is put behind a line break is
lines of its own (`split_append_cons`), and a margin behind every line break stands in front of every
line but the first (`split_hanging`); with the margin in front of the text too, it stands in front of
every line.
-/

namespace HavokScript

/-- The byte of a line break. -/
def lineBreak : UInt8 := 10

namespace Bytes

variable {b : UInt8} {s t : Bytes}

theorem split_ne_nil (b : UInt8) (s : Bytes) : split b s ≠ [] := by
  cases s with
  | nil => exact List.cons_ne_nil _ _
  | cons c s =>
    rw [split]
    split_ifs
    · exact List.cons_ne_nil _ _
    · split <;> exact List.cons_ne_nil _ _

theorem split_cons_self (b : UInt8) (s : Bytes) : split b (b :: s) = [] :: split b s := by
  rw [split, if_pos rfl]

theorem split_cons_of_ne {c : UInt8} (hc : c ≠ b) (s : Bytes) :
    split b (c :: s) = (split b s).modifyHead (c :: ·) := by
  obtain ⟨piece, pieces, hs⟩ := List.exists_cons_of_ne_nil (split_ne_nil b s)
  rw [split, if_neg hc, hs]
  rfl

/-- A text without separators goes into the first piece. -/
theorem split_append (hs : b ∉ s) (t : Bytes) :
    split b (s ++ t) = (split b t).modifyHead (s ++ ·) := by
  induction s with
  | nil =>
    obtain ⟨piece, pieces, ht⟩ := List.exists_cons_of_ne_nil (split_ne_nil b t)
    rw [List.nil_append, ht]
    rfl
  | cons c s ih =>
    rw [List.mem_cons, not_or] at hs
    obtain ⟨piece, pieces, ht⟩ := List.exists_cons_of_ne_nil (split_ne_nil b t)
    rw [List.cons_append, split_cons_of_ne (Ne.symm hs.1), ih hs.2, ht]
    rfl

theorem split_of_notMem (hs : b ∉ s) : split b s = [s] := by
  have h := split_append hs []
  rwa [List.append_nil, split, List.modifyHead_cons, List.append_nil] at h

/-- A separator ends the pieces in front of it. -/
theorem split_append_cons (b : UInt8) (s t : Bytes) :
    split b (s ++ b :: t) = split b s ++ split b t := by
  induction s with
  | nil => exact split_cons_self b t
  | cons c s ih =>
    by_cases hc : c = b
    · rw [hc, List.cons_append, split_cons_self, split_cons_self, ih, List.cons_append]
    · obtain ⟨piece, pieces, hs⟩ := List.exists_cons_of_ne_nil (split_ne_nil b s)
      rw [List.cons_append, split_cons_of_ne hc, split_cons_of_ne hc, ih, hs]
      rfl

end Bytes

namespace Outline

variable {margin s t : Bytes}

theorem hanging_append (margin s t : Bytes) :
    hanging margin (s ++ t) = hanging margin s ++ hanging margin t := List.flatMap_append

theorem hanging_of_notMem (hs : lineBreak ∉ s) : hanging margin s = s := by
  induction s with
  | nil => rfl
  | cons b s ih =>
    rw [List.mem_cons, not_or] at hs
    have hb : ¬ b = 10 := fun h => hs.1 h.symm
    have hrest : hanging margin s = s := ih hs.2
    unfold hanging at hrest ⊢
    rw [List.flatMap_cons, if_neg hb, hrest, List.singleton_append]

theorem hanging_lineBreak (margin s : Bytes) :
    hanging margin (lineBreak :: s) = lineBreak :: margin ++ hanging margin s := rfl

/-- The margin stands in front of every line but the first. -/
theorem split_hanging (hmargin : lineBreak ∉ margin) {line : Bytes} {lines : List Bytes}
    (ht : Bytes.split lineBreak t = line :: lines) :
    Bytes.split lineBreak (hanging margin t) = line :: lines.map (margin ++ ·) := by
  induction t generalizing line lines with
  | nil =>
    cases ht
    rfl
  | cons b t ih =>
    obtain ⟨piece, pieces, hrest⟩ := List.exists_cons_of_ne_nil (Bytes.split_ne_nil lineBreak t)
    by_cases hb : b = lineBreak
    · rw [hb, Bytes.split_cons_self, hrest] at ht
      cases ht
      rw [hb, hanging_lineBreak, List.cons_append, Bytes.split_cons_self,
        Bytes.split_append hmargin, ih hrest]
      rfl
    · rw [Bytes.split_cons_of_ne hb, hrest] at ht
      cases ht
      have hcons : hanging margin (b :: t) = b :: hanging margin t := by
        rw [← List.singleton_append, hanging_append, hanging_of_notMem (by simpa using Ne.symm hb)]
        rfl
      rw [hcons, Bytes.split_cons_of_ne hb, ih hrest]
      rfl

/-- The margin in front of every line. -/
theorem split_margin_hanging (hmargin : lineBreak ∉ margin) (t : Bytes) :
    Bytes.split lineBreak (margin ++ hanging margin t) =
      (Bytes.split lineBreak t).map (margin ++ ·) := by
  obtain ⟨line, lines, ht⟩ := List.exists_cons_of_ne_nil (Bytes.split_ne_nil lineBreak t)
  rw [Bytes.split_append hmargin, split_hanging hmargin ht, ht]
  rfl

end Outline

end HavokScript
