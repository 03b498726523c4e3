import HavokScript.Proofs.Text.Telling
import HavokScript.Text.Quoted

/-!
# Reading string literals back

`Quoted.unquote` undoes `Quoted.quote` and stops behind the literal, whatever follows it
(`unquote_quote`). A quote inside the string has a backslash in front, and the scan takes the two
together; so it never mistakes that quote for the end, however many backslashes stand before it.
-/

namespace HavokScript.Quoted

theorem unescape_escape (s rest : Bytes) :
    unescape (escape s ++ quoteMark :: rest) = some (s, rest) := by
  induction s with
  | nil => cases rest <;> rfl
  | cons b bs ih =>
    by_cases hspecial : b = quoteMark ∨ b = backslash
    · -- the backslash and the byte behind it are one step of the scan
      rw [escape, if_pos hspecial, List.cons_append, List.cons_append, unescape,
        if_neg (by decide), if_pos rfl, ih, Option.map_some]
    · obtain ⟨c, cs, hnext⟩ := List.exists_cons_of_ne_nil
        (show escape bs ++ quoteMark :: rest ≠ [] by simp)
      rw [not_or] at hspecial
      rw [escape, if_neg (not_or.mpr hspecial), List.cons_append, hnext, unescape,
        if_neg hspecial.1, if_neg hspecial.2, ← hnext, ih, Option.map_some]

/-- The scan gives the string of the literal and what follows the literal. -/
theorem unquote_quote (s rest : Bytes) : unquote (quote s ++ rest) = some (s, rest) := by
  rw [quote, List.cons_append, List.append_assoc, unquote, if_pos rfl]
  exact unescape_escape s rest

/-- A literal shows its string and ends by itself. -/
theorem quote_tells (s t : Bytes) : Tells (quote s) (quote t) (s = t) :=
  Tells.of_reader unquote (unquote_quote s) (unquote_quote t)

end HavokScript.Quoted
