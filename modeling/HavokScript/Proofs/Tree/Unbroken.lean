import HavokScript.Proofs.Text.Decimal
import HavokScript.Proofs.Text.Lines
import HavokScript.Proofs.Text.Telling
import HavokScript.Proofs.Tree.Finding
import HavokScript.Tree.Source

/-!
# What stands on one line

Line breaks come into a text from the names, strings and operators of a tree, which are written as they
are, and from the bodies of statements. If no name, string or operator of a tree has a line break, then
each of its expressions is written on one line (`Expr.lineBreak_notMem_source`), and so is every part of
a statement that is no body.
-/

namespace HavokScript

/-! ## Trees without line breaks in their words -/

/-- What the text of an expression takes over from the tree as it is: a name, a string or an operator. -/
def Expr.word : Expr → Bytes
  | .identifier _ name => name
  | .string _ s => s
  | .binary _ op _ _ | .unary _ op _ => op
  | _ => []

/-- The same for a node; only expressions have one. -/
def Node.word : Node → Bytes
  | .expr e => e.word
  | _ => []

/-- No name, string or operator in the outlines has a line break. -/
def Outline.Unbroken (os : List Outline) : Prop :=
  ∀ n ∈ visitedAll (fun _ => true) os, lineBreak ∉ n.word

instance (os : List Outline) : Decidable (Outline.Unbroken os) :=
  inferInstanceAs (Decidable (∀ n ∈ Outline.visitedAll (fun _ => true) os, lineBreak ∉ n.word))

/-- No name, string or operator in an expression has a line break. -/
def Expr.Unbroken (e : Expr) : Prop := Outline.Unbroken e.outline

/-- No name, string or operator in a tree has a line break. -/
def Node.Unbroken (n : Node) : Prop := Outline.Unbroken n.outline

instance (n : Node) : Decidable n.Unbroken := inferInstanceAs (Decidable (Outline.Unbroken n.outline))

namespace Outline

theorem unbroken_nil : Unbroken [] := List.forall_mem_nil _

@[simp] theorem unbroken_append {xs ys : List Outline} :
    Unbroken (xs ++ ys) ↔ Unbroken xs ∧ Unbroken ys := by
  unfold Unbroken
  rw [visitedAll_append, List.forall_mem_append]

@[simp] theorem unbroken_node {n : Node} {cs : List Outline} :
    Unbroken [node n cs] ↔ lineBreak ∉ n.word ∧ Unbroken cs := by
  unfold Unbroken
  rw [visitedAll, visited, visitedAll, List.append_nil, if_pos rfl, List.forall_mem_cons]

@[simp] theorem unbroken_ofRegister {r : Register} {cs : List Outline} :
    Unbroken (ofRegister r :: cs) ↔ Unbroken cs := by
  rw [← List.singleton_append, unbroken_append, ofRegister, unbroken_node]
  exact ⟨And.right, fun h => ⟨⟨List.not_mem_nil, List.forall_mem_nil _⟩, h⟩⟩

end Outline

/-! ## Expressions -/

/-- The bytes of the words, digits and signs that texts are made of have no line break. -/
theorem lineBreak_notMem_alphabet : lineBreak ∉ Decimal.alphabet := by decide

theorem Numeral.lineBreak_notMem_int (i : Int) : lineBreak ∉ int i :=
  fun h => lineBreak_notMem_alphabet (Decimal.int_subset i h)

theorem Quoted.lineBreak_notMem_quote {s : Bytes} (hs : lineBreak ∉ s) : lineBreak ∉ quote s := by
  have hescape : lineBreak ∉ escape s := by
    induction s with
    | nil => exact List.not_mem_nil
    | cons b s ih =>
      rw [List.mem_cons, not_or] at hs
      rw [escape]
      split
      · exact List.not_mem_cons_of_ne_of_not_mem (by decide)
          (List.not_mem_cons_of_ne_of_not_mem hs.1 (ih hs.2))
      · exact List.not_mem_cons_of_ne_of_not_mem hs.1 (ih hs.2)
  exact List.not_mem_cons_of_ne_of_not_mem (by decide) (List.not_mem_append hescape (by decide))

namespace Expr

theorem outline_peel : ∀ e : Expr, e.peel.outline = e.outline
  | .shared _ e => outline_peel e
  | .missing | .register _ | .closure .. | .identifier .. | .nil _ | .bool .. | .number ..
  | .string .. | .vararg _ | .call .. | .binary .. | .unary .. | .table .. | .index .. => rfl

theorem unbroken_outlines_cons {e : Expr} {es : List Expr} :
    Outline.Unbroken (outlines (e :: es)) ↔ e.Unbroken ∧ Outline.Unbroken (outlines es) :=
  Outline.unbroken_append

/-- A key that is there is written like any other expression. -/
theorem mem_sources_of_keySources {s : Bytes} {ks : List Expr} (hs : some s ∈ keySources ks) :
    s ∈ sources ks := by
  induction ks with
  | nil => cases hs
  | cons k ks ih =>
    cases k with
    | missing =>
      rw [keySources] at hs
      exact List.mem_cons_of_mem _ (ih ((List.mem_cons.mp hs).resolve_left (Option.some_ne_none s)))
    | _ =>
      rw [keySources, List.mem_cons] at hs
      · obtain hs | hs := hs
        · rw [sources, Option.some.inj hs]
          exact List.mem_cons_self
        · exact List.mem_cons_of_mem _ (ih hs)
      · intro hmissing
        cases hmissing

end Expr

theorem lineBreak_notMem_tableEntries {ks : List (Option Bytes)} {vs : List Bytes}
    (hks : ∀ s, some s ∈ ks → lineBreak ∉ s) (hvs : ∀ s ∈ vs, lineBreak ∉ s) :
    ∀ s ∈ tableEntries ks vs, lineBreak ∉ s := by
  induction vs generalizing ks with
  | nil => cases ks <;> exact List.forall_mem_nil _
  | cons v vs ih =>
    rw [List.forall_mem_cons] at hvs
    cases ks with
    | nil => exact List.forall_mem_cons.mpr ⟨hvs.1, ih (by simp) hvs.2⟩
    | cons k ks =>
      have hrest := ih (fun s hs => hks s (List.mem_cons_of_mem _ hs)) hvs.2
      cases k with
      | none => exact List.forall_mem_cons.mpr ⟨hvs.1, hrest⟩
      | some k =>
        have hk := List.not_mem_append (s := utf8 "[") (by decide) (hks k List.mem_cons_self)
        exact List.forall_mem_cons.mpr
          ⟨List.not_mem_append (List.not_mem_append hk (by decide)) hvs.1, hrest⟩

theorem lineBreak_notMem_accessText {key : Expr} {text : Bytes} (hkey : key.Unbroken)
    (htext : lineBreak ∉ text) : lineBreak ∉ accessText key text := by
  have hbrackets {s : Bytes} (hs : lineBreak ∉ s) : lineBreak ∉ utf8 "[" ++ s ++ utf8 "]" :=
    List.not_mem_append (List.not_mem_append (by decide) hs) (by decide)
  have hdot {s : Bytes} (hs : lineBreak ∉ s) : lineBreak ∉ utf8 "." ++ s :=
    List.not_mem_append (by decide) hs
  rw [Expr.Unbroken, ← Expr.outline_peel] at hkey
  rw [accessText]
  split
  · next h =>
    rw [h] at hkey
    exact hdot (Outline.unbroken_node.mp hkey).1
  · next h =>
    rw [h] at hkey
    have hs := (Outline.unbroken_node.mp hkey).1
    split
    · exact hdot hs
    · exact hbrackets (Quoted.lineBreak_notMem_quote hs)
  · exact hbrackets htext

/-! An expression is written on one line. -/

mutual

theorem Expr.lineBreak_notMem_source {e : Expr} (he : e.Unbroken) : lineBreak ∉ e.source := by
  cases e with
  | missing | nil _ | vararg _ =>
    rw [Expr.source]
    decide
  | bool _ b =>
    rw [Expr.source]
    split <;> decide
  | register r | closure _ i =>
    exact List.not_mem_append (by decide) (Numeral.lineBreak_notMem_int _)
  | identifier _ name => exact (Outline.unbroken_node.mp he).1
  | string _ s => exact Quoted.lineBreak_notMem_quote (Outline.unbroken_node.mp he).1
  | number _ x => exact fun h => lineBreak_notMem_alphabet (Decimal.ofDouble_subset x h)
  | shared _ e => exact Expr.lineBreak_notMem_source (e := e) he
  | call _ f args =>
    obtain ⟨-, h⟩ := Outline.unbroken_node.mp he
    obtain ⟨hf, hargs⟩ := Outline.unbroken_append.mp h
    have hlist : lineBreak ∉ Bytes.join comma (Expr.sources args) :=
      Bytes.notMem_join (by decide) (Expr.lineBreak_notMem_sources hargs)
    rw [Expr.source]
    exact List.not_mem_append (List.not_mem_append (List.not_mem_append
      (Expr.lineBreak_notMem_source hf) (by decide)) hlist) (by decide)
  | binary _ op l r =>
    obtain ⟨hop, h⟩ := Outline.unbroken_node.mp he
    obtain ⟨hl, hr⟩ := Outline.unbroken_append.mp h
    rw [Expr.source]
    exact List.not_mem_append (List.not_mem_append (List.not_mem_append (List.not_mem_append
      (Expr.lineBreak_notMem_source hl) (by decide)) hop) (by decide))
      (Expr.lineBreak_notMem_source hr)
  | unary _ op e =>
    obtain ⟨hop, h⟩ := Outline.unbroken_node.mp he
    exact List.not_mem_append hop (Expr.lineBreak_notMem_source h)
  | table _ ks vs =>
    obtain ⟨-, h⟩ := Outline.unbroken_node.mp he
    obtain ⟨hks, hvs⟩ := Outline.unbroken_append.mp h
    have hkeys := Expr.lineBreak_notMem_sources hks
    have hentries := lineBreak_notMem_tableEntries
      (fun s hs => hkeys s (Expr.mem_sources_of_keySources hs)) (Expr.lineBreak_notMem_sources hvs)
    rw [Expr.source]
    exact List.not_mem_append (List.not_mem_append (by decide)
      (Bytes.notMem_join (by decide) hentries)) (by decide)
  | index _ t k =>
    obtain ⟨-, h⟩ := Outline.unbroken_node.mp he
    obtain ⟨ht, hk⟩ := Outline.unbroken_append.mp h
    exact List.not_mem_append (Expr.lineBreak_notMem_source ht)
      (lineBreak_notMem_accessText hk (Expr.lineBreak_notMem_source hk))

theorem Expr.lineBreak_notMem_sources {es : List Expr}
    (hes : Outline.Unbroken (Expr.outlines es)) : ∀ s ∈ Expr.sources es, lineBreak ∉ s := by
  cases es with
  | nil => exact List.forall_mem_nil _
  | cons e es =>
    obtain ⟨he, hes⟩ := Expr.unbroken_outlines_cons.mp hes
    exact List.forall_mem_cons.mpr
      ⟨Expr.lineBreak_notMem_source he, Expr.lineBreak_notMem_sources hes⟩

end

/-! ## The parts of a statement that stand on one line -/

section

variable {counts : Bool}

theorem lineBreak_notMem_valueList {es : List Expr} (hes : Outline.Unbroken (Expr.outlines es)) :
    lineBreak ∉ valueList es :=
  Bytes.notMem_join (by decide) (Expr.lineBreak_notMem_sources hes)

theorem lineBreak_notMem_targetSource {e : Expr} (he : e.Unbroken) :
    lineBreak ∉ targetSource counts e := by
  unfold targetSource
  split
  · next r =>
    have hname : lineBreak ∉ utf8 "R" ++ Numeral.int r.index :=
      List.not_mem_append (by decide) (Numeral.lineBreak_notMem_int _)
    split
    · exact List.not_mem_append (List.not_mem_append (List.not_mem_append hname (by decide))
        (Numeral.lineBreak_notMem_int _)) (by decide)
    · exact hname
  · exact Expr.lineBreak_notMem_source he

theorem lineBreak_notMem_targetList {es : List Expr} (hes : Outline.Unbroken (Expr.outlines es)) :
    lineBreak ∉ targetList counts es := by
  refine Bytes.notMem_join (by decide) ?_
  induction es with
  | nil => exact List.forall_mem_nil _
  | cons e es ih =>
    obtain ⟨he, hes⟩ := Expr.unbroken_outlines_cons.mp hes
    exact List.forall_mem_cons.mpr ⟨lineBreak_notMem_targetSource he, ih hes⟩

theorem lineBreak_notMem_assignText {ts vs : List Expr} (hts : Outline.Unbroken (Expr.outlines ts))
    (hvs : Outline.Unbroken (Expr.outlines vs)) (kept : Bool) :
    lineBreak ∉ assignText counts ts vs kept := by
  have hvalues := lineBreak_notMem_valueList hvs
  rw [assignText]
  split
  · exact hvalues
  · exact List.not_mem_append (List.not_mem_append (lineBreak_notMem_targetList hts) (by decide))
      hvalues

theorem lineBreak_notMem_boundText {n : Node} (hn : n.Unbroken) : lineBreak ∉ boundText n := by
  unfold boundText
  split
  · exact Expr.lineBreak_notMem_source hn
  · obtain ⟨-, h⟩ := Outline.unbroken_node.mp hn
    obtain ⟨-, hvs⟩ := Outline.unbroken_append.mp h
    exact Expr.lineBreak_notMem_source (Expr.unbroken_outlines_cons.mp hvs).1
  · exact List.not_mem_nil

theorem lineBreak_notMem_stepText {n : Node} (hn : n.Unbroken) : lineBreak ∉ stepText n := by
  unfold stepText
  split
  · exact List.not_mem_nil
  · exact List.not_mem_append (by decide) (lineBreak_notMem_boundText hn)

theorem lineBreak_notMem_functionName {e : Expr} (he : e.Unbroken) :
    lineBreak ∉ functionName e := by
  unfold functionName
  split
  · exact List.not_mem_nil
  · exact Expr.lineBreak_notMem_source he

theorem lineBreak_notMem_parameterText (params : List Register) (vararg : Bool) :
    lineBreak ∉ parameterText params vararg := by
  have hnames : ∀ s ∈ params.map fun r => Expr.source (.register r), lineBreak ∉ s :=
    List.forall_mem_map.mpr fun r _ =>
      Expr.lineBreak_notMem_source (e := .register r)
        (Outline.unbroken_ofRegister.mpr Outline.unbroken_nil)
  have hdots : ∀ s ∈ if vararg then [utf8 "..."] else [], lineBreak ∉ s := by
    split <;> decide
  exact List.not_mem_append (List.not_mem_append (by decide)
    (Bytes.notMem_join (by decide) (List.forall_mem_append.mpr ⟨hnames, hdots⟩))) (by decide)

end

end HavokScript
