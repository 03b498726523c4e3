import HavokScript.Proofs.Tree.Unbroken

/-!
# Indentation

A statement with bodies is a list of clauses, each a line that opens a body and the statements of the
body, and what closes the last one (`Node.source_eq_clauses`). If no name, string or operator has a line
break, the only line breaks of its text are those in front of the statements of a body and of what
follows it. Behind each of them the indentation is written, so a statement has the same lines at every
depth, up to the blanks in front of them (`Node.source_indents`), and a body shows the lines of each of
its statements one level deeper (`Node.split_source`).
-/

namespace HavokScript

/-! ## Clauses -/

/-- A line that opens a body, and the statements of the body. -/
structure Clause where
  /-- what stands on the line in front of the body -/
  opening : Bytes
  /-- the statements of the body -/
  body : List Node

/-- The text of a clause, up to the blanks in front of what follows the body. -/
def Clause.source (counts : Bool) (indent : Nat) (c : Clause) : Bytes :=
  c.opening ++ Node.lines counts indent c.body

namespace Node

/-- The clause of an `elseif` arm. -/
def armClause? : Node → Option Clause
  | .arm _ c body => some ⟨utf8 "elseif " ++ c.source ++ utf8 " then", body.statements⟩
  | _ => none

/-- The clauses of a statement; one without a body has none. -/
def clauses : Node → List Clause
  | .block _ body => [⟨utf8 "do", body⟩]
  | .scope _ body => [⟨utf8 "do", body.statements⟩]
  | .whileLoop _ c body => [⟨utf8 "while " ++ c.source ++ utf8 " do", body.statements⟩]
  | .repeatLoop _ body _ => [⟨utf8 "repeat", body.statements⟩]
  | .branch _ c body arms other =>
    ⟨utf8 "if " ++ c.source ++ utf8 " then", body.statements⟩ :: (arms.filterMap armClause? ++
      if other.isPresent then [⟨utf8 "else", other.statements⟩] else [])
  | .numericFor _ v init limit step body =>
    [⟨utf8 "for " ++ Expr.source (.register v) ++ utf8 " = " ++ boundText init ++ comma ++
      boundText limit ++ stepText step ++ utf8 " do", body.statements⟩]
  | .genericFor _ vars es body =>
    [⟨utf8 "for " ++ valueList vars ++ utf8 " in " ++ valueList es ++ utf8 " do", body.statements⟩]
  | .function _ name params vararg body =>
    [⟨utf8 "function " ++ functionName name ++ parameterText params vararg, body.statements⟩]
  | .localFunction _ name params vararg body =>
    [⟨utf8 "local function " ++ name.source ++ parameterText params vararg, body.statements⟩]
  | _ => []

/-- What closes the last body of a statement. -/
def closing : Node → Bytes
  | .repeatLoop _ _ c => utf8 "until " ++ c.source
  | _ => utf8 "end"

section

variable {counts : Bool} {n : Node}

theorem bodySource_eq (k : Nat) (n : Node) :
    n.bodySource counts k = lines counts k n.statements := by
  cases n <;> rfl

theorem armSources_eq (k : Nat) (arms : List Node) :
    armSources counts k arms = (arms.filterMap armClause?).flatMap (Clause.source counts k) := by
  induction arms with
  | nil => rfl
  | cons arm arms ih =>
    cases arm with
    | arm _ c body =>
      rw [armSources, ih, bodySource_eq]
      rfl
    | _ => exact ih

/-- A statement with bodies is its clauses and what closes the last one. -/
theorem source_eq_clauses (hn : n.clauses ≠ []) (k : Nat) :
    n.source counts k = n.clauses.flatMap (Clause.source counts k) ++ n.closing := by
  cases n with
  | branch _ c body arms other =>
    rw [source, bodySource_eq, armSources_eq, clauses, List.flatMap_cons, List.flatMap_append]
    split
    · rw [bodySource_eq, List.flatMap_singleton]
      simp only [Clause.source, closing, List.append_assoc]
    · simp only [Clause.source, closing, List.append_assoc, List.flatMap_nil, List.append_nil]
  | block _ body =>
    rw [clauses, List.flatMap_singleton]
    rfl
  | repeatLoop _ body c =>
    rw [source, bodySource_eq, clauses, List.flatMap_singleton, List.append_assoc]
    rfl
  | scope | whileLoop | numericFor | genericFor | function | localFunction =>
    rw [source, bodySource_eq, clauses, List.flatMap_singleton]
    rfl
  | _ => exact absurd rfl hn

/-- Without a body there is nothing to indent. -/
theorem source_eq_zero (hn : n.clauses = []) (k : Nat) :
    n.source counts k = n.source counts 0 := by
  cases n with
  | block | scope | whileLoop | repeatLoop | branch | numericFor | genericFor | function
  | localFunction => cases hn
  | _ => rfl

theorem sizeOf_lt_of_mem_statements {s : Node} (hs : s ∈ n.statements) : sizeOf s < sizeOf n := by
  cases n with
  | block _ body =>
    have h : sizeOf s < sizeOf body := List.sizeOf_lt_of_mem hs
    rw [block.sizeOf_spec]
    exact Nat.lt_of_lt_of_le h (Nat.le_add_left _ _)
  | _ => cases hs

theorem mem_statements_of_armClause? {c : Clause} (hc : n.armClause? = some c) {s : Node}
    (hs : s ∈ c.body) : sizeOf s < sizeOf n := by
  cases n with
  | arm a e body =>
    obtain rfl := Option.some.inj hc
    have hbody := sizeOf_lt_of_mem_statements hs
    rw [arm.sizeOf_spec]
    exact Nat.lt_of_lt_of_le hbody (Nat.le_add_left _ _)
  | _ => cases hc

/-- The statements of a body are smaller than the statement it belongs to. -/
theorem sizeOf_lt_of_mem_clauses {c : Clause} (hc : c ∈ n.clauses) {s : Node} (hs : s ∈ c.body) :
    sizeOf s < sizeOf n := by
  cases n with
  | block a body =>
    obtain rfl := List.mem_singleton.mp hc
    exact sizeOf_lt_of_mem_statements (n := .block a body) hs
  | branch a e body arms other =>
    rw [branch.sizeOf_spec]
    obtain rfl | hc := List.mem_cons.mp hc
    · have hbody := sizeOf_lt_of_mem_statements hs
      omega
    obtain hc | hc := List.mem_append.mp hc
    · obtain ⟨arm, harm, hclause⟩ := List.mem_filterMap.mp hc
      have hbody := mem_statements_of_armClause? hclause hs
      have harms := List.sizeOf_lt_of_mem harm
      omega
    · split at hc
      · obtain rfl := List.mem_singleton.mp hc
        have hbody := sizeOf_lt_of_mem_statements hs
        omega
      · cases hc
  | scope | whileLoop | repeatLoop | numericFor | genericFor | function | localFunction =>
    obtain rfl := List.mem_singleton.mp hc
    have hbody := sizeOf_lt_of_mem_statements hs
    simp only [scope.sizeOf_spec, whileLoop.sizeOf_spec, repeatLoop.sizeOf_spec,
      numericFor.sizeOf_spec, genericFor.sizeOf_spec, function.sizeOf_spec,
      localFunction.sizeOf_spec]
    omega
  | _ => cases hc

end

end Node

/-! ## Clauses without line breaks -/

/-- A clause whose opening has no line break, and neither have the words of its statements. -/
structure Clause.Unbroken (c : Clause) : Prop where
  opening : lineBreak ∉ c.opening
  body : ∀ s ∈ c.body, s.Unbroken

namespace Node

section

variable {counts : Bool} {n : Node}

theorem unbroken_of_mem {ns : List Node} (hns : Outline.Unbroken (outlines ns)) :
    ∀ s ∈ ns, s.Unbroken := by
  induction ns with
  | nil => exact List.forall_mem_nil _
  | cons n ns ih =>
    obtain ⟨hn, hns⟩ := Outline.unbroken_append.mp hns
    exact List.forall_mem_cons.mpr ⟨hn, ih hns⟩

theorem Unbroken.statements (hn : n.Unbroken) : ∀ s ∈ n.statements, s.Unbroken := by
  cases n with
  | block _ body => exact unbroken_of_mem (Outline.unbroken_node.mp hn).2
  | _ => exact List.forall_mem_nil _

theorem Unbroken.armClause? (hn : n.Unbroken) {c : Clause} (hc : n.armClause? = some c) :
    c.Unbroken := by
  cases n with
  | arm _ e body =>
    obtain rfl := Option.some.inj hc
    obtain ⟨he, hbody⟩ := Outline.unbroken_append.mp (Outline.unbroken_node.mp hn).2
    exact ⟨List.not_mem_append (List.not_mem_append (by decide) (Expr.lineBreak_notMem_source he))
      (by decide), Unbroken.statements hbody⟩
  | _ => cases hc

/-- The clauses of an unbroken statement. -/
theorem Unbroken.clauses (hn : n.Unbroken) : ∀ c ∈ n.clauses, c.Unbroken := by
  cases n with
  | block _ body =>
    exact List.forall_mem_singleton.mpr ⟨(by decide : lineBreak ∉ utf8 "do"), hn.statements⟩
  | scope _ body =>
    obtain ⟨-, hbody⟩ := Outline.unbroken_node.mp hn
    exact List.forall_mem_singleton.mpr
      ⟨(by decide : lineBreak ∉ utf8 "do"), Unbroken.statements hbody⟩
  | whileLoop _ e body =>
    obtain ⟨he, hbody⟩ := Outline.unbroken_append.mp (Outline.unbroken_node.mp hn).2
    exact List.forall_mem_singleton.mpr ⟨List.not_mem_append (List.not_mem_append (by decide)
      (Expr.lineBreak_notMem_source he)) (by decide), Unbroken.statements hbody⟩
  | repeatLoop _ body e =>
    obtain ⟨hbody, -⟩ := Outline.unbroken_append.mp (Outline.unbroken_node.mp hn).2
    exact List.forall_mem_singleton.mpr
      ⟨(by decide : lineBreak ∉ utf8 "repeat"), Unbroken.statements hbody⟩
  | branch _ e body arms other =>
    obtain ⟨h, hother⟩ := Outline.unbroken_append.mp (Outline.unbroken_node.mp hn).2
    obtain ⟨h, harms⟩ := Outline.unbroken_append.mp h
    obtain ⟨he, hbody⟩ := Outline.unbroken_append.mp h
    refine List.forall_mem_cons.mpr ⟨⟨List.not_mem_append (List.not_mem_append (by decide)
      (Expr.lineBreak_notMem_source he)) (by decide), Unbroken.statements hbody⟩, ?_⟩
    refine List.forall_mem_append.mpr ⟨fun c hc => ?_, ?_⟩
    · obtain ⟨arm, harm, hclause⟩ := List.mem_filterMap.mp hc
      exact (unbroken_of_mem harms arm harm).armClause? hclause
    · split
      · exact List.forall_mem_singleton.mpr
          ⟨(by decide : lineBreak ∉ utf8 "else"), Unbroken.statements hother⟩
      · exact List.forall_mem_nil _
  | numericFor _ v init limit step body =>
    have hv := Expr.lineBreak_notMem_source (e := .register v)
      (Outline.unbroken_ofRegister.mpr Outline.unbroken_nil)
    obtain ⟨h, hbody⟩ := Outline.unbroken_append.mp
      (Outline.unbroken_ofRegister.mp (Outline.unbroken_node.mp hn).2)
    obtain ⟨h, hstep⟩ := Outline.unbroken_append.mp h
    obtain ⟨hinit, hlimit⟩ := Outline.unbroken_append.mp h
    refine List.forall_mem_singleton.mpr ⟨?_, Unbroken.statements hbody⟩
    simp only [List.mem_append, not_or]
    exact ⟨⟨⟨⟨⟨⟨⟨by decide, hv⟩, by decide⟩, lineBreak_notMem_boundText hinit⟩, by decide⟩,
      lineBreak_notMem_boundText hlimit⟩, lineBreak_notMem_stepText hstep⟩, by decide⟩
  | genericFor _ vars es body =>
    obtain ⟨h, hbody⟩ := Outline.unbroken_append.mp (Outline.unbroken_node.mp hn).2
    obtain ⟨hvars, hes⟩ := Outline.unbroken_append.mp h
    refine List.forall_mem_singleton.mpr ⟨?_, Unbroken.statements hbody⟩
    simp only [List.mem_append, not_or]
    exact ⟨⟨⟨⟨by decide, lineBreak_notMem_valueList hvars⟩, by decide⟩,
      lineBreak_notMem_valueList hes⟩, by decide⟩
  | function _ name params vararg body =>
    obtain ⟨h, hbody⟩ := Outline.unbroken_append.mp (Outline.unbroken_node.mp hn).2
    obtain ⟨hname, -⟩ := Outline.unbroken_append.mp h
    exact List.forall_mem_singleton.mpr ⟨List.not_mem_append (List.not_mem_append (by decide)
      (lineBreak_notMem_functionName hname)) (lineBreak_notMem_parameterText params vararg),
      Unbroken.statements hbody⟩
  | localFunction _ name params vararg body =>
    obtain ⟨h, hbody⟩ := Outline.unbroken_append.mp (Outline.unbroken_node.mp hn).2
    obtain ⟨hname, -⟩ := Outline.unbroken_append.mp h
    exact List.forall_mem_singleton.mpr ⟨List.not_mem_append (List.not_mem_append (by decide)
      (Expr.lineBreak_notMem_source hname)) (lineBreak_notMem_parameterText params vararg),
      Unbroken.statements hbody⟩
  | _ => exact List.forall_mem_nil _

theorem Unbroken.closing (hn : n.Unbroken) : lineBreak ∉ n.closing := by
  cases n with
  | repeatLoop _ body e =>
    obtain ⟨-, he⟩ := Outline.unbroken_append.mp (Outline.unbroken_node.mp hn).2
    exact List.not_mem_append (by decide) (Expr.lineBreak_notMem_source he)
  | _ => exact (by decide : lineBreak ∉ utf8 "end")

/-- A statement without a body is written on one line. -/
theorem Unbroken.source (hn : n.Unbroken) (hclauses : n.clauses = []) (k : Nat) :
    lineBreak ∉ n.source counts k := by
  cases n with
  | missing => exact (by decide : lineBreak ∉ utf8 "--[[ <nil> ]]")
  | tForLoop => exact (by decide : lineBreak ∉ utf8 "asm_tforloop()")
  | expr e => exact Expr.lineBreak_notMem_source hn
  | chunk | arm => exact List.not_mem_nil
  | locals _ names vs =>
    obtain ⟨hnames, hvs⟩ := Outline.unbroken_append.mp (Outline.unbroken_node.mp hn).2
    refine List.not_mem_append (List.not_mem_append (by decide)
      (lineBreak_notMem_targetList hnames)) ?_
    split
    · exact List.not_mem_nil
    · exact List.not_mem_append (by decide) (lineBreak_notMem_valueList hvs)
  | assign _ ts vs kept =>
    obtain ⟨hts, hvs⟩ := Outline.unbroken_append.mp (Outline.unbroken_node.mp hn).2
    exact lineBreak_notMem_assignText hts hvs kept
  | returns _ vs =>
    obtain ⟨-, hvs⟩ := Outline.unbroken_node.mp hn
    refine List.not_mem_append (by decide) ?_
    split
    · exact List.not_mem_nil
    · exact List.not_mem_append (by decide) (lineBreak_notMem_valueList hvs)
  | jump _ offset | forLoop _ _ offset =>
    exact List.not_mem_append (List.not_mem_append (by decide)
      (Numeral.lineBreak_notMem_int offset)) (by decide)
  | test _ e =>
    obtain ⟨-, he⟩ := Outline.unbroken_node.mp hn
    exact List.not_mem_append (List.not_mem_append (by decide) (Expr.lineBreak_notMem_source he))
      (by decide)
  | forPrep _ init limit step v =>
    obtain ⟨h, -⟩ := Outline.unbroken_append.mp (Outline.unbroken_node.mp hn).2
    obtain ⟨h, hstep⟩ := Outline.unbroken_append.mp h
    obtain ⟨hinit, hlimit⟩ := Outline.unbroken_append.mp h
    have hv : (Expr.register v).Unbroken := Outline.unbroken_ofRegister.mpr Outline.unbroken_nil
    have hvalues : Outline.Unbroken (Expr.outlines [init, limit, step, .register v]) := by
      simp only [Expr.unbroken_outlines_cons]
      exact ⟨hinit, hlimit, hstep, hv, Outline.unbroken_nil⟩
    exact List.not_mem_append (List.not_mem_append (by decide)
      (lineBreak_notMem_valueList hvalues)) (by decide)
  | _ => cases hclauses

end

end Node

/-! ## Texts at a depth -/

/-- A text of which the indentation only gives the blanks behind the line breaks. -/
def Indents (text : Nat → Bytes) : Prop :=
  ∀ depth indent, text (depth + indent) = Outline.hanging (pad depth) (text indent)

namespace Indents

variable {text text' : Nat → Bytes} {s : Bytes}

theorem of_notMem (hs : lineBreak ∉ s) : Indents fun _ => s :=
  fun _ _ => (Outline.hanging_of_notMem hs).symm

theorem append (h : Indents text) (h' : Indents text') : Indents fun k => text k ++ text' k := by
  intro depth indent
  rw [Outline.hanging_append, ← h, ← h']

/-- The blanks are those behind a line break. -/
theorem newLine : Indents fun k => utf8 "\n" ++ pad k := by
  intro depth indent
  have hpad : lineBreak ∉ pad indent := fun h => absurd (List.eq_of_mem_replicate h) (by decide)
  show lineBreak :: pad (depth + indent) = Outline.hanging (pad depth) (lineBreak :: pad indent)
  rw [Outline.hanging_lineBreak, Outline.hanging_of_notMem hpad, pad, pad, pad,
    List.replicate_add, List.cons_append]

theorem deeper (h : Indents text) : Indents fun k => text (k + indentWidth) := by
  intro depth indent
  rw [← h, ← Nat.add_assoc]

theorem flatMap {α : Type} {xs : List α} {f : α → Nat → Bytes} (h : ∀ x ∈ xs, Indents (f x)) :
    Indents fun k => xs.flatMap fun x => f x k := by
  induction xs with
  | nil => exact of_notMem List.not_mem_nil
  | cons x xs ih =>
    rw [List.forall_mem_cons] at h
    exact h.1.append (ih h.2)

end Indents

variable {counts : Bool} {n : Node}

theorem Node.lines_indents {ns : List Node}
    (hns : ∀ s ∈ ns, Indents fun k => s.source counts k) :
    Indents fun k => Node.lines counts k ns := by
  induction ns with
  | nil => exact .newLine
  | cons n ns ih =>
    rw [List.forall_mem_cons] at hns
    exact (Indents.newLine.deeper.append hns.1.deeper).append (ih hns.2)

/-- A statement has the same lines at every depth, up to the blanks in front of them. -/
theorem Node.source_indents (hn : n.Unbroken) : Indents fun k => n.source counts k := by
  induction hsize : sizeOf n using Nat.strongRecOn generalizing n with
  | ind size ih =>
    by_cases hclauses : n.clauses = []
    · simp only [source_eq_zero hclauses]
      exact .of_notMem (hn.source hclauses 0)
    · simp only [source_eq_clauses hclauses]
      refine (Indents.flatMap fun c hc => ?_).append (.of_notMem hn.closing)
      obtain ⟨hopening, hbody⟩ := hn.clauses c hc
      refine (Indents.of_notMem hopening).append (lines_indents fun s hs => ?_)
      exact ih (sizeOf s) (hsize ▸ sizeOf_lt_of_mem_clauses hc hs) (hbody s hs) rfl

/-! ## Lines -/

/-- The lines of the statements of a body, each indented. -/
def Node.indented (counts : Bool) (body : List Node) : List Bytes :=
  body.flatMap fun s => (Bytes.split lineBreak (s.source counts 0)).map (pad indentWidth ++ ·)

theorem lineBreak_notMem_pad (k : Nat) : lineBreak ∉ pad k :=
  fun h => absurd (List.eq_of_mem_replicate h) (by decide)

theorem Node.split_lines {ns : List Node} (hns : ∀ s ∈ ns, s.Unbroken) (front rest : Bytes) :
    Bytes.split lineBreak (front ++ Node.lines counts 0 ns ++ rest) =
      Bytes.split lineBreak front ++ Node.indented counts ns ++ Bytes.split lineBreak rest := by
  induction ns generalizing front with
  | nil =>
    rw [indented, List.flatMap_nil, List.append_nil, List.append_assoc]
    exact Bytes.split_append_cons lineBreak front rest
  | cons s ns ih =>
    rw [List.forall_mem_cons] at hns
    have hs : s.source counts indentWidth =
        Outline.hanging (pad indentWidth) (s.source counts 0) := source_indents hns.1 indentWidth 0
    have hlines : front ++ Node.lines counts 0 (s :: ns) ++ rest = front ++ lineBreak ::
        ((pad indentWidth ++ s.source counts indentWidth) ++ Node.lines counts 0 ns ++ rest) := by
      simp [Node.lines]
      rfl
    rw [hlines, Bytes.split_append_cons, ih hns.2, hs,
      Outline.split_margin_hanging (lineBreak_notMem_pad _), indented, indented,
      List.flatMap_cons, List.append_assoc, List.append_assoc, List.append_assoc]

/-- A statement with bodies shows, for each of them, the line that opens it and the lines of its
statements one level deeper, and last the line that closes it. -/
theorem Node.split_source (hn : n.Unbroken) (hclauses : n.clauses ≠ []) :
    Bytes.split lineBreak (n.source counts 0) =
      n.clauses.flatMap (fun c => c.opening :: Node.indented counts c.body) ++ [n.closing] := by
  have hall : ∀ cs : List Clause, (∀ c ∈ cs, c.Unbroken) →
      Bytes.split lineBreak (cs.flatMap (Clause.source counts 0) ++ n.closing) =
        cs.flatMap (fun c => c.opening :: Node.indented counts c.body) ++ [n.closing] := by
    intro cs hcs
    induction cs with
    | nil => exact Bytes.split_of_notMem hn.closing
    | cons c cs ih =>
      rw [List.forall_mem_cons] at hcs
      rw [List.flatMap_cons, List.append_assoc, Clause.source, split_lines hcs.1.body, ih hcs.2,
        Bytes.split_of_notMem hcs.1.opening, List.flatMap_cons, List.append_assoc,
        List.append_assoc, List.cons_append, List.nil_append, List.cons_append]
  rw [source_eq_clauses hclauses]
  exact hall n.clauses hn.clauses

end HavokScript
