import HavokScript.Path
import HavokScript.Proofs.Text.Lines
import Mathlib.Data.List.Infix
import Mathlib.Tactic.SplitIfs

/-!
# Clean paths from the root

A path that starts at the root is cleaned to proper names (`ofBytes_absolute`), and a clean path is
written so that cleaning gives it back (`ofBytes_text`). So the written directory of a written path is
the directory above (`directory_text`), and only the root is its own directory
(`directory_text_eq_self`): going up from directory to directory ends there, after all directories above
a path (`ancestors_of_ne`, `mem_ancestors`), the nearest first (`ancestors_pairwise`).
-/

namespace HavokScript

theorem Bytes.notMem_of_mem_split {b : UInt8} {s piece : Bytes} (h : piece ∈ split b s) :
    b ∉ piece := by
  induction s generalizing piece with
  | nil =>
    rw [split, List.mem_singleton] at h
    rw [h]
    exact List.not_mem_nil
  | cons c s ih =>
    by_cases hc : c = b
    · rw [hc, split_cons_self, List.mem_cons] at h
      rcases h with rfl | h
      · exact List.not_mem_nil
      · exact ih h
    · obtain ⟨first, pieces, hs⟩ := List.exists_cons_of_ne_nil (split_ne_nil b s)
      rw [split_cons_of_ne hc, hs, List.modifyHead_cons, List.mem_cons] at h
      rcases h with rfl | h
      · rw [List.mem_cons, not_or]
        exact ⟨Ne.symm hc, ih (hs ▸ List.mem_cons_self)⟩
      · exact ih (hs ▸ List.mem_cons_of_mem _ h)

/-- Joined pieces without the separator are the pieces between the separators. -/
theorem Bytes.split_join {b : UInt8} {items : List Bytes} (hne : items ≠ [])
    (hitems : ∀ s ∈ items, b ∉ s) : split b (join [b] items) = items := by
  induction items with
  | nil => exact absurd rfl hne
  | cons s items ih =>
    rw [List.forall_mem_cons] at hitems
    cases items with
    | nil => exact split_of_notMem hitems.1
    | cons s' items =>
      change split b (s ++ [b] ++ join [b] (s' :: items)) = _
      rw [List.append_assoc, List.singleton_append, split_append_cons, split_of_notMem hitems.1,
        ih (List.cons_ne_nil _ _) hitems.2, List.singleton_append]

namespace Path

/-! ## Proper names -/

/-- A name that stands in a clean path from the root. -/
structure Proper (name : Bytes) : Prop where
  ne_nil : name ≠ []
  ne_dot : name ≠ dot
  ne_dotDot : name ≠ dotDot
  noSlash : slash ∉ name

/-- The path starts at the root and has proper names only. -/
structure Absolute (p : Path) : Prop where
  rooted : p.rooted = true
  proper : ∀ name ∈ p.names, Proper name

theorem push_nil (rooted : Bool) (stack : List Bytes) : push rooted stack [] = stack := by
  unfold push
  rw [if_pos (.inl rfl)]

theorem push_proper {name : Bytes} (h : Proper name) (rooted : Bool) (stack : List Bytes) :
    push rooted stack name = name :: stack := by
  unfold push
  rw [if_neg (not_or.mpr ⟨h.ne_nil, h.ne_dot⟩), if_neg h.ne_dotDot]

theorem foldl_push_proper {names : List Bytes} (h : ∀ name ∈ names, Proper name) (rooted : Bool)
    (stack : List Bytes) : names.foldl (push rooted) stack = names.reverse ++ stack := by
  induction names generalizing stack with
  | nil => rfl
  | cons name names ih =>
    rw [List.forall_mem_cons] at h
    rw [List.foldl_cons, push_proper h.1, ih h.2, List.reverse_cons, List.append_assoc,
      List.singleton_append]

/-- From the root `..` takes a name away, and is never kept. -/
theorem proper_push {name : Bytes} {stack : List Bytes} (hname : slash ∉ name)
    (hstack : ∀ n ∈ stack, Proper n) : ∀ n ∈ push true stack name, Proper n := by
  unfold push
  by_cases hempty : name = [] ∨ name = dot
  · rw [if_pos hempty]
    exact hstack
  rw [if_neg hempty]
  by_cases hup : name = dotDot
  · rw [if_pos hup]
    cases stack with
    | nil => exact hstack
    | cons top below =>
      rw [List.forall_mem_cons] at hstack
      dsimp only
      rw [if_neg hstack.1.ne_dotDot]
      exact hstack.2
  · rw [if_neg hup]
    rw [not_or] at hempty
    exact List.forall_mem_cons.mpr ⟨⟨hempty.1, hempty.2, hup, hname⟩, hstack⟩

theorem proper_foldl_push {pieces stack : List Bytes} (hpieces : ∀ n ∈ pieces, slash ∉ n)
    (hstack : ∀ n ∈ stack, Proper n) : ∀ n ∈ pieces.foldl (push true) stack, Proper n := by
  induction pieces generalizing stack with
  | nil => exact hstack
  | cons name pieces ih =>
    rw [List.forall_mem_cons] at hpieces
    exact ih hpieces.2 (proper_push hpieces.1 hstack)

/-! ## Cleaning and writing -/

theorem ofBytes_absolute {path : Bytes} (h : isAbsolute path = true) : (ofBytes path).Absolute := by
  refine ⟨h, fun name hname => ?_⟩
  rw [ofBytes, h] at hname
  exact proper_foldl_push (fun _ => Bytes.notMem_of_mem_split) (fun _ hn => absurd hn List.not_mem_nil)
    name (List.mem_reverse.mp hname)

theorem isAbsolute_text {p : Path} (h : p.rooted = true) : isAbsolute p.text = true := by
  rw [text, if_pos h, isAbsolute, List.head?_cons]
  exact decide_eq_true rfl

theorem isAbsolute_append {path : Bytes} (h : isAbsolute path = true) (s : Bytes) :
    isAbsolute (path ++ s) = true := by
  cases path with
  | nil => exact absurd h (by decide)
  | cons b path => exact h

/-- Any path is made a clean one from the root. -/
theorem absolute_absolute {here : Bytes} (hhere : isAbsolute here = true) (path : Bytes) :
    (absolute here path).Absolute := by
  unfold absolute
  split_ifs with hpath
  · exact ofBytes_absolute hpath
  · apply ofBytes_absolute
    have hne : here ≠ [] := by
      rintro rfl
      exact absurd hhere (by decide)
    rw [join, if_neg hne]
    split_ifs
    · exact isAbsolute_text (ofBytes_absolute hhere).rooted
    · exact isAbsolute_text (ofBytes_absolute (isAbsolute_append hhere _)).rooted

/-- A separator at the end of a path makes no difference. -/
theorem ofBytes_append_slash {path : Bytes} (hne : path ≠ []) :
    ofBytes (path ++ [slash]) = ofBytes path := by
  have hrooted : isAbsolute (path ++ [slash]) = isAbsolute path := by
    cases path with
    | nil => exact absurd rfl hne
    | cons b path => rfl
  have hsplit : Bytes.split slash (path ++ [slash]) = Bytes.split slash path ++ [[]] :=
    Bytes.split_append_cons slash path []
  rw [ofBytes, ofBytes, hrooted, hsplit, List.foldl_append, List.foldl_cons, push_nil]
  rfl

variable {p q : Path}

theorem ofBytes_text (h : p.Absolute) : ofBytes p.text = p := by
  obtain ⟨rooted, names⟩ := p
  obtain rfl : rooted = true := h.rooted
  have hnames : (Bytes.split slash (Bytes.join [slash] names)).foldl (push true) [] =
      names.reverse := by
    by_cases hne : names = []
    · rw [hne]
      rfl
    · rw [Bytes.split_join hne fun name hname => (h.proper name hname).noSlash,
        foldl_push_proper h.proper, List.append_nil]
  have hrooted : isAbsolute (slash :: Bytes.join [slash] names) = true := isAbsolute_text h.rooted
  change ofBytes (slash :: Bytes.join [slash] names) = _
  rw [ofBytes, hrooted, Bytes.split_cons_self, List.foldl_cons, push_nil, hnames,
    List.reverse_reverse]

theorem absolute_text (h : p.Absolute) (here : Bytes) : absolute here p.text = p := by
  rw [absolute, if_pos (isAbsolute_text h.rooted), ofBytes_text h]

theorem text_injective (hp : p.Absolute) (hq : q.Absolute) (h : p.text = q.text) : p = q := by
  rw [← ofBytes_text hp, ← ofBytes_text hq, h]

/-! ## The directory above -/

theorem Absolute.parent (h : p.Absolute) : p.parent.Absolute :=
  ⟨h.rooted, fun name hname => h.proper name (List.mem_of_mem_dropLast hname)⟩

theorem parent_of_nil (h : p.names = []) : p.parent = p := by
  obtain ⟨rooted, names⟩ := p
  cases h
  rfl

theorem parent_eq_self : p.parent = p ↔ p.names = [] := by
  refine ⟨fun h => ?_, parent_of_nil⟩
  have hlength := congrArg (fun p => p.names.length) h
  rw [parent, List.length_dropLast] at hlength
  by_contra hne
  have hpos := List.length_pos_of_ne_nil hne
  omega

theorem join_append_singleton {names : List Bytes} (hne : names ≠ []) (name : Bytes) :
    Bytes.join [slash] (names ++ [name]) = Bytes.join [slash] names ++ slash :: name := by
  induction names with
  | nil => exact absurd rfl hne
  | cons first names ih =>
    cases names with
    | nil => exact (List.append_assoc first [slash] name)
    | cons second names =>
      change first ++ [slash] ++ Bytes.join [slash] (second :: names ++ [name]) =
        first ++ [slash] ++ Bytes.join [slash] (second :: names) ++ slash :: name
      rw [ih (List.cons_ne_nil _ _), List.append_assoc, List.append_assoc, List.append_assoc]

/-- What stands in front of the last slash. -/
theorem directory_append (front : Bytes) {name : Bytes} (hname : slash ∉ name) :
    directory (front ++ slash :: name) = (ofBytes (front ++ [slash])).text := by
  have hdrop : ((front ++ slash :: name).reverse.dropWhile (· ≠ slash)).reverse =
      front ++ [slash] := by
    rw [List.reverse_append, List.reverse_cons, List.append_assoc,
      List.dropWhile_append_of_pos fun b hb => ?_]
    · rw [List.singleton_append, List.dropWhile_cons_of_neg (by simp), List.reverse_cons,
        List.reverse_reverse]
    · rw [List.mem_reverse] at hb
      exact decide_eq_true fun h => hname (h ▸ hb)
  rw [directory, hdrop]

/-- The written directory of a clean path is the directory above. -/
theorem directory_text (h : p.Absolute) : directory p.text = p.parent.text := by
  obtain ⟨rooted, names⟩ := p
  obtain rfl : rooted = true := h.rooted
  rcases List.eq_nil_or_concat' names with rfl | ⟨names, name, rfl⟩
  · rfl
  · have hname : slash ∉ name := (h.proper name (by simp)).noSlash
    have hparent : (⟨true, names ++ [name]⟩ : Path).parent = ⟨true, names⟩ := by
      rw [parent, List.dropLast_concat]
    have habove : (⟨true, names⟩ : Path).Absolute := hparent ▸ h.parent
    by_cases hne : names = []
    · subst hne
      exact directory_append [] hname
    · have htext : (⟨true, names ++ [name]⟩ : Path).text =
          (⟨true, names⟩ : Path).text ++ slash :: name :=
        congrArg (slash :: ·) (join_append_singleton hne name)
      have hwritten : (⟨true, names⟩ : Path).text ≠ [] := List.cons_ne_nil _ _
      rw [hparent, htext, directory_append _ hname, ofBytes_append_slash hwritten, ofBytes_text habove]

/-- Only the root is its own directory. -/
theorem directory_text_eq_self (h : p.Absolute) : directory p.text = p.text ↔ p.names = [] := by
  rw [directory_text h, ← parent_eq_self]
  exact ⟨text_injective h.parent h, congrArg text⟩

/-! ## All directories above -/

/-- A directory is the path itself or above it. -/
def Above (d p : Path) : Prop := d.rooted = p.rooted ∧ d.names <+: p.names

theorem Absolute.above {d : Path} (h : p.Absolute) (hd : d.Above p) : d.Absolute :=
  ⟨hd.1.trans h.rooted, fun name hname => h.proper name (hd.2.subset hname)⟩

theorem Above.ext {d e : Path} (hd : d.Above p) (he : e.Above p)
    (hlength : d.names.length = e.names.length) : d = e := by
  obtain ⟨rooted, names⟩ := d
  obtain ⟨rooted', names'⟩ := e
  obtain rfl : rooted = rooted' := hd.1.trans he.1.symm
  have hle : names <+: names' := List.prefix_of_prefix_length_le hd.2 he.2 hlength.le
  rw [hle.eq_of_length hlength]

variable {α : Type}

theorem mem_shrink {as bs : List α} : bs ∈ shrink as ↔ bs <+: as := by
  induction as generalizing bs with
  | nil => simp [shrink]
  | cons a as ih =>
    rw [shrink, List.mem_append, List.mem_map, List.mem_singleton, List.prefix_cons_iff]
    simp only [ih]
    constructor
    · rintro (⟨cs, hcs, rfl⟩ | rfl)
      · exact .inr ⟨cs, rfl, hcs⟩
      · exact .inl rfl
    · rintro (rfl | ⟨cs, rfl, hcs⟩)
      · exact .inr rfl
      · exact .inl ⟨cs, hcs, rfl⟩

theorem shrink_pairwise (as : List α) :
    (shrink as).Pairwise fun bs cs => cs.length < bs.length := by
  induction as with
  | nil => exact List.pairwise_singleton _ _
  | cons a as ih =>
    rw [shrink, List.pairwise_append]
    refine ⟨List.pairwise_map.mpr (ih.imp Nat.succ_lt_succ), List.pairwise_singleton _ _, ?_⟩
    intro bs hbs cs hcs
    obtain ⟨bs, -, rfl⟩ := List.mem_map.mp hbs
    obtain rfl := List.mem_singleton.mp hcs
    exact Nat.succ_pos _

theorem shrink_concat (as : List α) (a : α) : shrink (as ++ [a]) = (as ++ [a]) :: shrink as := by
  induction as with
  | nil => rfl
  | cons b as ih => rw [List.cons_append, shrink, ih, List.map_cons, List.cons_append, shrink]

theorem mem_ancestors {d : Path} : d ∈ p.ancestors ↔ d.Above p := by
  rw [ancestors, List.mem_map]
  constructor
  · rintro ⟨names, hnames, rfl⟩
    exact ⟨rfl, mem_shrink.mp hnames⟩
  · obtain ⟨rooted, names⟩ := d
    rintro ⟨hrooted, hnames⟩
    exact ⟨names, mem_shrink.mpr hnames, by rw [← show rooted = p.rooted from hrooted]⟩

/-- The nearest directories stand first. -/
theorem ancestors_pairwise (p : Path) :
    p.ancestors.Pairwise fun d e => e.names.length < d.names.length :=
  List.pairwise_map.mpr (shrink_pairwise p.names)

theorem ancestors_of_nil (h : p.names = []) : p.ancestors = [p] := by
  obtain ⟨rooted, names⟩ := p
  cases h
  rfl

/-- Next to a path come the directories from the one above it. -/
theorem ancestors_of_ne (h : p.names ≠ []) : p.ancestors = p :: p.parent.ancestors := by
  obtain ⟨rooted, names⟩ := p
  obtain ⟨names, name, rfl⟩ := (List.eq_nil_or_concat' names).resolve_left h
  rw [parent, ancestors, ancestors, List.dropLast_concat, shrink_concat, List.map_cons]

end Path

end HavokScript
