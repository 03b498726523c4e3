import HavokScript.Constant
import HavokScript.Proofs.Text.Quoted
import HavokScript.Tree.Source
import Mathlib.Algebra.Group.Nat.Even
import Mathlib.Algebra.Ring.Parity

/-!
# The quote that ends a string literal

Which quote ends a literal can be said without the scan that reads it: the first one that has an even
number of backslashes right in front of it (`Ends`). The scan of any text stops there
(`unquote_ends`), for it steps over a backslash together with the byte behind it, which keeps the number
even or odd (`odd_run_pair`). In a literal this is the last quote (`escape_ends`), whatever follows, so
literals show what they are literals of and where they end (`quote_delimits`).
-/

namespace HavokScript.Quoted

/-- How many backslashes a text ends with. -/
def run (front : Bytes) : Nat := (front.reverse.takeWhile (· = backslash)).length

/-- The first quote of a text that no backslash escapes stands between `body` and `rest`: an even
number of backslashes is right in front of it, and an odd number in front of every earlier quote. -/
structure Ends (text body rest : Bytes) : Prop where
  split : text = body ++ quoteMark :: rest
  unescaped : Even (run body)
  first : ∀ front back, body = front ++ quoteMark :: back → Odd (run front)

theorem run_cons_of_ne {b : UInt8} (hb : b ≠ backslash) (front : Bytes) :
    run (b :: front) = run front := by
  unfold run
  rw [List.reverse_cons, List.takeWhile_append]
  split_ifs with hall
  · rw [List.takeWhile_cons_of_neg (by simpa using hb), List.append_nil, hall]
  · rfl

/-- A backslash in front makes a difference only to a text of backslashes. -/
theorem run_cons_backslash (front : Bytes) :
    run (backslash :: front) = run front + if run front = front.length then 1 else 0 := by
  unfold run
  rw [List.reverse_cons, List.takeWhile_append, List.length_reverse]
  split_ifs with hall
  · rw [List.takeWhile_cons_of_pos (by simp), List.length_append, List.length_reverse, hall]
    rfl
  · rfl

theorem run_le_length (front : Bytes) : run front ≤ front.length := by
  have hle : run front ≤ front.reverse.length := (List.takeWhile_sublist _).length_le
  rwa [List.length_reverse] at hle

/-- An escaped byte and its backslash keep the number of backslashes even or odd. -/
theorem odd_run_pair (c : UInt8) (front : Bytes) :
    Odd (run (backslash :: c :: front)) ↔ Odd (run front) := by
  have hle := run_le_length front
  by_cases hc : c = backslash
  · rw [hc, run_cons_backslash, run_cons_backslash, List.length_cons]
    split_ifs <;> grind
  · have hshort : run front ≠ (c :: front).length := by
      rw [List.length_cons]
      omega
    rw [run_cons_backslash, run_cons_of_ne hc, if_neg hshort, Nat.add_zero]

namespace Ends

variable {text body rest : Bytes}

theorem head (rest : Bytes) : Ends (quoteMark :: rest) [] rest := by
  refine ⟨rfl, Even.zero, fun front back h => ?_⟩
  simp at h

theorem escaped (h : Ends text body rest) (c : UInt8) :
    Ends (backslash :: c :: text) (backslash :: c :: body) rest := by
  refine ⟨by rw [h.split]; rfl, ?_, fun front back hbody => ?_⟩
  · rw [← Nat.not_odd_iff_even, odd_run_pair, Nat.not_odd_iff_even]
    exact h.unescaped
  · match front with
    | [] => exact absurd (List.cons.inj hbody).1 (by decide)
    | [b] =>
      rw [← (List.cons.inj hbody).1]
      exact odd_one
    | b :: c' :: front =>
      obtain ⟨rfl, hpair⟩ := List.cons.inj hbody
      obtain ⟨rfl, hrest⟩ := List.cons.inj hpair
      exact (odd_run_pair c front).mpr (h.first front back hrest)

theorem plain {b : UInt8} (h : Ends text body rest) (hquote : b ≠ quoteMark)
    (hbackslash : b ≠ backslash) : Ends (b :: text) (b :: body) rest := by
  refine ⟨by rw [h.split]; rfl, ?_, fun front back hbody => ?_⟩
  · rw [run_cons_of_ne hbackslash]
    exact h.unescaped
  · cases front with
    | nil => exact absurd (List.cons.inj hbody).1 hquote
    | cons c front =>
      obtain ⟨rfl, hrest⟩ := List.cons.inj hbody
      rw [run_cons_of_ne hbackslash]
      exact h.first front back hrest

end Ends

/-- The scan stops at the first quote that is not escaped. -/
theorem unescape_ends {text s rest : Bytes} (h : unescape text = some (s, rest)) :
    ∃ body, Ends text body rest := by
  induction text using unescape.induct generalizing s with
  | case1 => cases h
  | case2 =>
    rw [unescape, if_pos rfl] at h
    cases h
    exact ⟨[], .head []⟩
  | case3 b hb =>
    rw [unescape, if_neg hb] at h
    cases h
  | case4 c text =>
    rw [unescape, if_pos rfl] at h
    cases h
    exact ⟨[], .head _⟩
  | case5 c text hb ih =>
    rw [unescape, if_neg hb, if_pos rfl, Option.map_eq_some_iff] at h
    obtain ⟨⟨u, rest'⟩, hu, heq⟩ := h
    cases heq
    obtain ⟨body, hbody⟩ := ih hu
    exact ⟨_, hbody.escaped c⟩
  | case6 b c text hb hbackslash ih =>
    rw [unescape, if_neg hb, if_neg hbackslash, Option.map_eq_some_iff] at h
    obtain ⟨⟨u, rest'⟩, hu, heq⟩ := h
    cases heq
    obtain ⟨body, hbody⟩ := ih hu
    exact ⟨_, hbody.plain hb hbackslash⟩

theorem unquote_ends {text s rest : Bytes} (h : unquote text = some (s, rest)) :
    ∃ inner body, text = quoteMark :: inner ∧ Ends inner body rest := by
  cases text with
  | nil => cases h
  | cons b inner =>
    rw [unquote] at h
    split_ifs at h with hb
    obtain ⟨body, hbody⟩ := unescape_ends h
    exact ⟨inner, body, congrArg (· :: inner) hb, hbody⟩

/-- The last quote of a literal is the first that is not escaped. -/
theorem escape_ends (s rest : Bytes) : Ends (escape s ++ quoteMark :: rest) (escape s) rest := by
  obtain ⟨body, hbody⟩ := unescape_ends (unescape_escape s rest)
  have hsame : escape s = body := List.append_cancel_right hbody.split
  rwa [← hsame] at hbody

/-- **String literals end by themselves.** Two literals in front of any texts make the same text only
if they are literals of the same string with the same text behind them. The scan from the left gives
the string back and what follows its literal, and the quote it stops at is the first with an even
number of backslashes right in front of it, in a literal as in any other text. A listing shows a string
constant by the same literal as the source shows the string. -/
theorem quote_delimits (s t x y : Bytes) :
    (quote s ++ x = quote t ++ y ↔ s = t ∧ x = y) ∧
    unquote (quote s ++ x) = some (s, x) ∧
    Ends (escape s ++ quoteMark :: x) (escape s) x ∧
    (∀ text u rest, unquote text = some (u, rest) →
      ∃ inner body, text = quoteMark :: inner ∧ Ends inner body rest) ∧
    (⟨.string, .string s⟩ : Constant).text = quote s ∧
    ∀ address, (Expr.string address s).source = (⟨.string, .string s⟩ : Constant).text := by
  refine ⟨⟨fun h => quote_tells s t h, ?_⟩, unquote_quote s x, escape_ends s x,
    fun text u rest => unquote_ends, rfl, fun address => ?_⟩
  · rintro ⟨rfl, rfl⟩
    rfl
  · rw [Expr.source]
    rfl

/-- The string of a backslash and a quote, with a quote behind its literal: the scan passes the quote
with three backslashes in front of it. -/
theorem quote_delimits_backslashQuote :
    unquote [34, 92, 92, 92, 34, 34, 34] = some ([92, 34], [34]) ∧
    ∃ inner body, [34, 92, 92, 92, 34, 34, 34] = quoteMark :: inner ∧ Ends inner body [34] := by
  obtain ⟨-, hread, -, hends, -⟩ := quote_delimits [92, 34] [92, 34] [34] [34]
  exact ⟨hread, hends _ _ _ hread⟩

end HavokScript.Quoted
