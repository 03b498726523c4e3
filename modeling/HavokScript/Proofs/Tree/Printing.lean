import HavokScript.Proofs.Tree.Indentation

/-!
# A printer with an indentation

`Node.emit` writes a statement piece by piece behind what was written before, and keeps the indentation
as a state: a body sets it four deeper for its statements, and back for what closes the body. Whatever
the state, it comes back with the indentation that it went in with, and it writes the text of the
statement at that indentation (`Node.emit_writes`). Hence what a statement looks like at some depth
follows from its printed text alone, and so do the lines of a body (`Node.emit_nested`).
-/

namespace HavokScript

/-- What a printer has written, and how deep it is indented. -/
structure Printer where
  /-- the text so far -/
  text : Bytes
  /-- the blanks in front of a line -/
  indent : Nat
  deriving DecidableEq, Repr

/-- A step of a printer. -/
abbrev Printing := StateM Printer Unit

namespace Printing

/-- Write a text. -/
def write (s : Bytes) : Printing := modify fun p => { p with text := p.text ++ s }

/-- Write the blanks in front of a line. -/
def margin : Printing := modify fun p => { p with text := p.text ++ pad p.indent }

/-- Go one level deeper. -/
def deeper : Printing := modify fun p => { p with indent := p.indent + indentWidth }

/-- Go one level back. -/
def back : Printing := modify fun p => { p with indent := p.indent - indentWidth }

/-- The statements of a body one level deeper, and what closes it. -/
def body (statements : Printing) (closing : Bytes) : Printing := do
  write (utf8 "\n")
  deeper
  statements
  back
  margin
  write closing

end Printing

namespace Node

/-- Whether the node is an `elseif` arm. -/
def isArm : Node → Bool
  | .arm .. => true
  | _ => false

/-- What closes a body of a conditional: nothing if another clause follows. -/
def armClosing (arms : List Node) (otherwise : Node) : Bytes :=
  if arms.any isArm || otherwise.isPresent then [] else utf8 "end"

open Printing in
mutual

/-- Write a statement. -/
def emit (counts : Bool) : Node → Printing
  | .block _ stmts => do
    write (utf8 "do")
    body (emitAll counts stmts) (utf8 "end")
  | .scope _ b => do
    write (utf8 "do")
    body (b.emitBody counts) (utf8 "end")
  | .whileLoop _ c b => do
    write (utf8 "while " ++ c.source ++ utf8 " do")
    body (b.emitBody counts) (utf8 "end")
  | .repeatLoop _ b c => do
    write (utf8 "repeat")
    body (b.emitBody counts) (utf8 "until ")
    write c.source
  | .branch _ c b arms other => do
    write (utf8 "if " ++ c.source ++ utf8 " then")
    body (b.emitBody counts) (armClosing arms other)
    emitArms counts other arms
    if other.isPresent then
      write (utf8 "else")
      body (other.emitBody counts) (utf8 "end")
  | .numericFor _ v init limit step b => do
    write (utf8 "for " ++ Expr.source (.register v) ++ utf8 " = " ++ boundText init ++ comma ++
      boundText limit ++ stepText step ++ utf8 " do")
    body (b.emitBody counts) (utf8 "end")
  | .genericFor _ vars es b => do
    write (utf8 "for " ++ valueList vars ++ utf8 " in " ++ valueList es ++ utf8 " do")
    body (b.emitBody counts) (utf8 "end")
  | .function _ name params vararg b => do
    write (utf8 "function " ++ functionName name ++ parameterText params vararg)
    body (b.emitBody counts) (utf8 "end")
  | .localFunction _ name params vararg b => do
    write (utf8 "local function " ++ name.source ++ parameterText params vararg)
    body (b.emitBody counts) (utf8 "end")
  | n => write (n.source counts 0)

/-- Write the statements of a body. -/
def emitBody (counts : Bool) : Node → Printing
  | .block _ stmts => emitAll counts stmts
  | _ => pure ()

/-- Write statements, each on lines of its own. -/
def emitAll (counts : Bool) : List Node → Printing
  | [] => pure ()
  | n :: ns => do
    margin
    n.emit counts
    write (utf8 "\n")
    emitAll counts ns

/-- Write the `elseif` arms in front of an `else` block, if there is one. -/
def emitArms (counts : Bool) (other : Node) : List Node → Printing
  | .arm _ c b :: arms => do
    write (utf8 "elseif " ++ c.source ++ utf8 " then")
    body (b.emitBody counts) (armClosing arms other)
    emitArms counts other arms
  | _ :: arms => emitArms counts other arms
  | [] => pure ()

end

end Node

/-! ## What a step writes -/

/-- The step writes a text that depends on the indentation, and leaves the indentation as it is. -/
def Printing.Writes (step : Printing) (text : Nat → Bytes) : Prop :=
  ∀ p, step.run p = ((), ⟨p.text ++ text p.indent, p.indent⟩)

namespace Printing.Writes

variable {step step' : Printing} {text text' : Nat → Bytes}

theorem write (s : Bytes) : Writes (.write s) fun _ => s := fun _ => rfl

theorem margin : Writes .margin pad := fun _ => rfl

theorem nothing : Writes (pure ()) fun _ => [] := fun p => by
  rw [List.append_nil]
  rfl

theorem seq (h : Writes step text) (h' : Writes step' text') :
    Writes (do step; step') fun k => text k ++ text' k := by
  intro p
  rw [StateT.run_bind, h p, ← List.append_assoc]
  exact h' _

theorem of_eq (h : Writes step text) (htext : ∀ k, text k = text' k) : Writes step text' :=
  fun p => by rw [h p, htext]

/-- The statements of a body are written one level deeper, and what closes it at the level from
before. -/
theorem body (h : Writes step text) (closing : Bytes) :
    Writes (.body step closing) fun k =>
      utf8 "\n" ++ text (k + indentWidth) ++ pad k ++ closing := by
  intro p
  show (step >>= fun _ => do back; Printing.margin; Printing.write closing).run
    ⟨p.text ++ utf8 "\n", p.indent + indentWidth⟩ = _
  rw [StateT.run_bind, h, ← List.append_assoc, ← List.append_assoc, ← List.append_assoc]
  -- Going back undoes going deeper.
  show ((), Printer.mk (_ ++ pad (p.indent + indentWidth - indentWidth) ++ closing)
    (p.indent + indentWidth - indentWidth)) = _
  rw [Nat.add_sub_cancel]

end Printing.Writes

namespace Node

variable {counts : Bool}

/-- The text of statements, each on lines of its own. -/
def allSource (counts : Bool) (indent : Nat) (ns : List Node) : Bytes :=
  ns.flatMap fun n => pad indent ++ n.source counts indent ++ utf8 "\n"

theorem lines_eq (k : Nat) (ns : List Node) :
    utf8 "\n" ++ allSource counts (k + indentWidth) ns ++ pad k = lines counts k ns := by
  induction ns with
  | nil => rfl
  | cons n ns ih =>
    rw [lines, ← ih, allSource, allSource, List.flatMap_cons]
    simp only [List.append_assoc]

/-- What the arms and the `end` behind them are if the arms write it. -/
theorem armClosing_append (k : Nat) (arms : List Node) (other : Node) :
    armClosing arms other ++ (armSources counts k arms ++
      if arms.any isArm && !other.isPresent then utf8 "end" else []) =
      armSources counts k arms ++ if other.isPresent then [] else utf8 "end" := by
  cases hother : other.isPresent with
  | true => simp [armClosing, hother]
  | false =>
    cases harms : arms.any isArm with
    | true => simp [armClosing, harms]
    | false =>
      have hnone : armSources counts k arms = [] := by
        rw [armSources_eq, List.filterMap_eq_nil_iff.mpr, List.flatMap_nil]
        intro arm harm
        have hkind := List.any_eq_false.mp harms arm harm
        cases arm with
        | arm => exact absurd rfl hkind
        | _ => rfl
      simp [armClosing, harms, hother, hnone]

/-- A clause with what closes its body. -/
theorem clause_writes {step : Printing} {n : Node} (opening closing : Bytes)
    (h : step.Writes fun k => allSource counts k n.statements) :
    Printing.Writes (do Printing.write opening; Printing.body step closing) fun k =>
      opening ++ n.bodySource counts k ++ closing := by
  refine ((Printing.Writes.write opening).seq (h.body closing)).of_eq fun k => ?_
  rw [lines_eq, bodySource_eq, List.append_assoc]

/-- A clause with what closes its body, and what follows. -/
theorem clause_seq {step next : Printing} {n : Node} {text : Nat → Bytes} (opening closing : Bytes)
    (h : step.Writes fun k => allSource counts k n.statements) (h' : next.Writes text) :
    Printing.Writes (do Printing.write opening; Printing.body step closing; next) fun k =>
      opening ++ n.bodySource counts k ++ closing ++ text k := by
  have hseq := (clause_writes opening closing h).seq h'
  rwa [bind_assoc] at hseq

open Printing.Writes in
mutual

/-- Whatever was written before, a statement is written behind it as it looks at the indentation of the
printer, which is the same afterwards. -/
theorem emit_writes (counts : Bool) (n : Node) :
    (n.emit counts).Writes fun k => n.source counts k := by
  cases n with
  | block a stmts => exact clause_writes (n := .block a stmts) _ _ (emitAll_writes counts stmts)
  | scope _ b | whileLoop _ _ b | numericFor _ _ _ _ _ b | genericFor _ _ _ b
  | function _ _ _ _ b | localFunction _ _ _ _ b =>
    exact clause_writes _ _ (emitBody_writes counts b)
  | repeatLoop _ b c =>
    exact clause_seq _ _ (emitBody_writes counts b) (write c.source)
  | branch _ c b arms other =>
    have helse : Printing.Writes (if other.isPresent then do
          Printing.write (utf8 "else")
          Printing.body (other.emitBody counts) (utf8 "end")
        else pure ()) fun k =>
        if other.isPresent then utf8 "else" ++ other.bodySource counts k ++ utf8 "end" else [] := by
      cases other.isPresent with
      | true => exact clause_writes _ _ (emitBody_writes counts other)
      | false => exact nothing
    refine (clause_seq (utf8 "if " ++ c.source ++ utf8 " then") (armClosing arms other)
      (emitBody_writes counts b) ((emitArms_writes counts other arms).seq helse)).of_eq fun k => ?_
    rw [← List.append_assoc, List.append_assoc _ (armClosing arms other), armClosing_append, source]
    cases other.isPresent <;> simp
  | _ => exact write _

theorem emitBody_writes (counts : Bool) (n : Node) :
    (n.emitBody counts).Writes fun k => allSource counts k n.statements := by
  cases n with
  | block _ stmts => exact emitAll_writes counts stmts
  | _ => exact nothing

theorem emitAll_writes (counts : Bool) (ns : List Node) :
    (emitAll counts ns).Writes fun k => allSource counts k ns := by
  cases ns with
  | nil => exact nothing
  | cons n ns =>
    refine (margin.seq ((emit_writes counts n).seq
      ((write _).seq (emitAll_writes counts ns)))).of_eq fun k => ?_
    rw [allSource, allSource, List.flatMap_cons]
    simp only [List.append_assoc]

theorem emitArms_writes (counts : Bool) (other : Node) (arms : List Node) :
    (emitArms counts other arms).Writes fun k => armSources counts k arms ++
      if arms.any isArm && !other.isPresent then utf8 "end" else [] := by
  cases arms with
  | nil => exact nothing
  | cons arm arms =>
    have hrest := emitArms_writes counts other arms
    cases arm with
    | arm a c b =>
      refine (clause_seq (utf8 "elseif " ++ c.source ++ utf8 " then") (armClosing arms other)
        (emitBody_writes counts b) hrest).of_eq fun k => ?_
      rw [armSources, List.append_assoc _ (armClosing arms other), armClosing_append,
        List.any_cons, isArm, Bool.true_or, Bool.true_and, ← List.append_assoc]
      cases other.isPresent <;> rfl
    | _ => exact hrest

end

/-! ## Statements at a depth -/

theorem print_eq_source {n : Node} (hn : n.isStatement) : n.print counts = n.source counts 0 := by
  cases n with
  | chunk => cases hn
  | _ => rfl

theorem indented_eq {body : List Node} (hbody : ∀ s ∈ body, s.isStatement) :
    indented counts body = body.flatMap fun s =>
      (Bytes.split lineBreak (s.print counts)).map (pad indentWidth ++ ·) :=
  List.flatMap_congr fun s hs => by rw [print_eq_source (hbody s hs)]

/-- Printing at an indentation inserts that many blanks behind every line break of the printed
statement, and leaves the indentation. Printed alone, a statement with bodies shows for each of them the
line that opens it and the lines of its printed statements behind four blanks, and then the line that
closes the last one. -/
theorem emit_nested (counts : Bool) {n : Node} (hn : n.isStatement) (hunbroken : n.Unbroken) :
    (∀ p : Printer, (n.emit counts).run p =
      ((), ⟨p.text ++ Outline.hanging (pad p.indent) (n.print counts), p.indent⟩)) ∧
    ((∀ c ∈ n.clauses, ∀ s ∈ c.body, s.isStatement) → n.clauses ≠ [] →
      Bytes.split lineBreak (n.print counts) =
        n.clauses.flatMap (fun c => c.opening :: c.body.flatMap fun s =>
          (Bytes.split lineBreak (s.print counts)).map (pad indentWidth ++ ·)) ++ [n.closing]) := by
  rw [print_eq_source hn]
  refine ⟨fun p => ?_, fun hbodies hclauses => ?_⟩
  · have hindents : n.source counts p.indent =
        Outline.hanging (pad p.indent) (n.source counts 0) := source_indents hunbroken p.indent 0
    rw [← hindents]
    exact emit_writes counts n p
  · rw [split_source hunbroken hclauses]
    congr 1
    exact List.flatMap_congr fun c hc => congrArg (c.opening :: ·) (indented_eq (hbodies c hc))

/-- A branch with a loop in it, printed behind `-` at two blanks, and its lines. -/
theorem emit_nested_branch :
    let loop := Node.whileLoop 8 (.register ⟨0, 8, 1, 1⟩) (.block 12 [.returns 12 []])
    let branch := Node.branch 0 (.bool 0 true) (.block 4 [loop]) [.arm 16 (.nil 16) (.block 20 [])]
      (.block 24 [.assign 24 [.register ⟨1, 24, 2, 0⟩] [.string 24 (utf8 "a")] false])
    branch.isStatement ∧ branch.Unbroken ∧
      (∀ c ∈ branch.clauses, ∀ s ∈ c.body, s.isStatement) ∧ branch.clauses ≠ [] ∧
      (branch.emit true).run ⟨utf8 "-", 2⟩ = ((), ⟨utf8 ("-if true then\n      while R1 do\n" ++
        "          return\n      end\n  elseif nil then\n  else\n      R2(0) = \"a\"\n  end"), 2⟩) ∧
      Bytes.split lineBreak (branch.print true) = ["if true then", "    while R1 do",
        "        return", "    end", "elseif nil then", "else", "    R2(0) = \"a\"", "end"].map utf8 := by
  intro loop branch
  have hstatement : branch.isStatement := rfl
  have hunbroken : branch.Unbroken := by decide
  have hbodies : ∀ c ∈ branch.clauses, ∀ s ∈ c.body, s.isStatement := by decide
  have hclauses : branch.clauses ≠ [] := List.cons_ne_nil _ _
  obtain ⟨hprinted, hlines⟩ := emit_nested true hstatement hunbroken
  refine ⟨hstatement, hunbroken, hbodies, hclauses, (hprinted _).trans ?_,
    (hlines hbodies hclauses).trans ?_⟩ <;> rfl

end Node

end HavokScript
