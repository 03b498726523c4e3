import HavokScript.Tree.Numbering
import HavokScript.Tree.Source

/-!
# Trees with other addresses

`moved g` puts every part of a tree at another address and leaves all else as it is. Moving twice is
moving once (`Node.moved_moved`), numbering does not look at addresses, and neither does the printer
(`Node.print_moved`).
-/

namespace HavokScript

variable (g : Int → Int)

/-- The register at another address. -/
def Register.moved (r : Register) : Register := { r with address := g r.address }

mutual

/-- The expression at other addresses. -/
def Expr.moved : Expr → Expr
  | .missing => .missing
  | .register r => .register (r.moved g)
  | .closure a i => .closure (g a) i
  | .identifier a name => .identifier (g a) name
  | .nil a => .nil (g a)
  | .bool a b => .bool (g a) b
  | .number a x => .number (g a) x
  | .string a s => .string (g a) s
  | .vararg a => .vararg (g a)
  | .call a f args => .call (g a) (f.moved) (Expr.movedAll args)
  | .binary a op l r => .binary (g a) op l.moved r.moved
  | .unary a op e => .unary (g a) op e.moved
  | .table a ks vs => .table (g a) (Expr.movedAll ks) (Expr.movedAll vs)
  | .index a t k => .index (g a) t.moved k.moved
  | .shared n e => .shared n e.moved

/-- The expressions at other addresses. -/
def Expr.movedAll : List Expr → List Expr
  | [] => []
  | e :: es => e.moved :: Expr.movedAll es

end

mutual

/-- The node at other addresses. -/
def Node.moved : Node → Node
  | .missing => .missing
  | .expr e => .expr (e.moved g)
  | .chunk a body => .chunk (g a) (Node.movedAll body)
  | .block a body => .block (g a) (Node.movedAll body)
  | .scope a body => .scope (g a) body.moved
  | .whileLoop a c body => .whileLoop (g a) (c.moved g) body.moved
  | .repeatLoop a body c => .repeatLoop (g a) body.moved (c.moved g)
  | .branch a c body arms other =>
    .branch (g a) (c.moved g) body.moved (Node.movedAll arms) other.moved
  | .arm a c body => .arm (g a) (c.moved g) body.moved
  | .numericFor a v init limit step body =>
    .numericFor (g a) (v.moved g) init.moved limit.moved step.moved body.moved
  | .genericFor a vars es body =>
    .genericFor (g a) (Expr.movedAll g vars) (Expr.movedAll g es) body.moved
  | .function a name params vararg body =>
    .function (g a) (name.moved g) (params.map (Register.moved g)) vararg body.moved
  | .localFunction a name params vararg body =>
    .localFunction (g a) (name.moved g) (params.map (Register.moved g)) vararg body.moved
  | .locals a names vs => .locals (g a) (Expr.movedAll g names) (Expr.movedAll g vs)
  | .assign a ts vs kept => .assign (g a) (Expr.movedAll g ts) (Expr.movedAll g vs) kept
  | .returns a vs => .returns (g a) (Expr.movedAll g vs)
  | .jump a offset => .jump (g a) offset
  | .test a c => .test (g a) (c.moved g)
  | .forPrep a init limit step v =>
    .forPrep (g a) (init.moved g) (limit.moved g) (step.moved g) (v.moved g)
  | .forLoop a counter offset => .forLoop (g a) (counter.moved g) offset
  | .tForLoop a vars => .tForLoop (g a) (vars.map (Register.moved g))

/-- The nodes at other addresses. -/
def Node.movedAll : List Node → List Node
  | [] => []
  | n :: ns => n.moved :: Node.movedAll ns

end

theorem Expr.movedAll_eq (es : List Expr) : Expr.movedAll g es = es.map (Expr.moved g) := by
  induction es with
  | nil => rfl
  | cons e es ih => rw [Expr.movedAll, ih, List.map_cons]

theorem Node.movedAll_eq (ns : List Node) : Node.movedAll g ns = ns.map (Node.moved g) := by
  induction ns with
  | nil => rfl
  | cons n ns ih => rw [Node.movedAll, ih, List.map_cons]

/-! ## Moving twice -/

variable (k : Int → Int)

theorem Register.moved_moved (r : Register) : (r.moved g).moved k = r.moved (k ∘ g) := rfl

theorem Register.map_moved_moved (rs : List Register) :
    (rs.map (Register.moved g)).map (Register.moved k) = rs.map (Register.moved (k ∘ g)) := by
  rw [List.map_map]
  rfl

mutual

theorem Expr.moved_moved (e : Expr) : (e.moved g).moved k = e.moved (k ∘ g) := by
  cases e with
  | call a f args => simp [Expr.moved, Expr.moved_moved f, Expr.movedAll_movedAll args]
  | binary a op l r => simp [Expr.moved, Expr.moved_moved l, Expr.moved_moved r]
  | unary a op e => simp [Expr.moved, Expr.moved_moved e]
  | table a ks vs => simp [Expr.moved, Expr.movedAll_movedAll ks, Expr.movedAll_movedAll vs]
  | index a t key => simp [Expr.moved, Expr.moved_moved t, Expr.moved_moved key]
  | shared n e => simp [Expr.moved, Expr.moved_moved e]
  | _ => rfl

theorem Expr.movedAll_movedAll (es : List Expr) :
    Expr.movedAll k (Expr.movedAll g es) = Expr.movedAll (k ∘ g) es := by
  cases es with
  | nil => rfl
  | cons e es => simp [Expr.movedAll, Expr.moved_moved e, Expr.movedAll_movedAll es]

end

mutual

theorem Node.moved_moved (n : Node) : (n.moved g).moved k = n.moved (k ∘ g) := by
  cases n with
  | missing | jump => rfl
  | chunk a body | block a body => simp [Node.moved, Node.movedAll_movedAll body]
  | scope a body => simp [Node.moved, Node.moved_moved body]
  | whileLoop a c body | repeatLoop a body c | arm a c body =>
    simp [Node.moved, Expr.moved_moved, Node.moved_moved body]
  | branch a c body arms other =>
    simp [Node.moved, Expr.moved_moved, Node.moved_moved body, Node.movedAll_movedAll arms,
      Node.moved_moved other]
  | numericFor a v init limit step body =>
    simp [Node.moved, Register.moved_moved, Node.moved_moved init, Node.moved_moved limit,
      Node.moved_moved step, Node.moved_moved body]
  | genericFor a vars es body =>
    simp [Node.moved, Expr.movedAll_movedAll, Node.moved_moved body]
  | function a name params vararg body | localFunction a name params vararg body =>
    rw [Node.moved, Node.moved, Node.moved, Expr.moved_moved, Register.map_moved_moved,
      Node.moved_moved body]
    rfl
  | tForLoop a vars =>
    rw [Node.moved, Node.moved, Node.moved, Register.map_moved_moved]
    rfl
  | _ => simp [Node.moved, Expr.moved_moved, Expr.movedAll_movedAll, Register.moved_moved]

theorem Node.movedAll_movedAll (ns : List Node) :
    Node.movedAll k (Node.movedAll g ns) = Node.movedAll (k ∘ g) ns := by
  cases ns with
  | nil => rfl
  | cons n ns => simp [Node.movedAll, Node.moved_moved n, Node.movedAll_movedAll ns]

end

/-! ## Numbering -/

theorem Register.renumber_moved (r : Register) :
    (r.moved g).renumber = Register.moved g <$> r.renumber := rfl

theorem Register.mapM_renumber_moved (rs : List Register) :
    rs.mapM (Register.renumber ∘ Register.moved g) =
      List.map (Register.moved g) <$> rs.mapM Register.renumber := by
  induction rs with
  | nil => rfl
  | cons r rs ih => simp [ih, Register.renumber_moved]

mutual

theorem Expr.renumber_moved (e : Expr) : (e.moved g).renumber = Expr.moved g <$> e.renumber := by
  cases e with
  | register r => rfl
  | call a f args =>
    simp [Expr.moved, Expr.renumber, Expr.renumber_moved f, Expr.renumberAll_moved args]
  | binary a op l r =>
    simp [Expr.moved, Expr.renumber, Expr.renumber_moved l, Expr.renumber_moved r]
  | unary a op e => simp [Expr.moved, Expr.renumber, Expr.renumber_moved e]
  | table a ks vs =>
    simp [Expr.moved, Expr.renumber, Expr.renumberAll_moved ks, Expr.renumberAll_moved vs]
  | index a t key =>
    simp [Expr.moved, Expr.renumber, Expr.renumber_moved t, Expr.renumber_moved key]
  | shared n e => simp [Expr.moved, Expr.renumber, Expr.renumber_moved e]
  | _ => rfl

theorem Expr.renumberAll_moved (es : List Expr) :
    Expr.renumberAll (Expr.movedAll g es) = Expr.movedAll g <$> Expr.renumberAll es := by
  cases es with
  | nil => rfl
  | cons e es =>
    simp [Expr.movedAll, Expr.renumberAll, Expr.renumber_moved e, Expr.renumberAll_moved es]

end

mutual

theorem Node.renumber_moved (n : Node) : (n.moved g).renumber = Node.moved g <$> n.renumber := by
  cases n with
  | missing | jump => rfl
  | chunk a body | block a body => simp [Node.moved, Node.renumber, Node.renumberAll_moved body]
  | scope a body => simp [Node.moved, Node.renumber, Node.renumber_moved body]
  | whileLoop a c body | repeatLoop a body c | arm a c body =>
    simp [Node.moved, Node.renumber, Expr.renumber_moved, Node.renumber_moved body]
  | branch a c body arms other =>
    simp [Node.moved, Node.renumber, Expr.renumber_moved, Node.renumber_moved body,
      Node.renumberAll_moved arms, Node.renumber_moved other]
  | numericFor a v init limit step body =>
    simp [Node.moved, Node.renumber, Register.renumber_moved, Node.renumber_moved init,
      Node.renumber_moved limit, Node.renumber_moved step, Node.renumber_moved body]
  | genericFor a vars es body =>
    simp [Node.moved, Node.renumber, Expr.renumberAll_moved, Node.renumber_moved body]
  | function a name params vararg body | localFunction a name params vararg body =>
    simp [Node.moved, Node.renumber, Expr.renumber_moved, Register.mapM_renumber_moved,
      Node.renumber_moved body]
  | tForLoop a vars => simp [Node.moved, Node.renumber, Register.mapM_renumber_moved]
  | _ =>
    simp [Node.moved, Node.renumber, Expr.renumber_moved, Expr.renumberAll_moved,
      Register.renumber_moved]

theorem Node.renumberAll_moved (ns : List Node) :
    Node.renumberAll (Node.movedAll g ns) = Node.movedAll g <$> Node.renumberAll ns := by
  cases ns with
  | nil => rfl
  | cons n ns =>
    simp [Node.movedAll, Node.renumberAll, Node.renumber_moved n, Node.renumberAll_moved ns]

end

/-! ## Printing -/

theorem Expr.peel_moved (e : Expr) : (e.moved g).peel = e.peel.moved g := by
  cases e with
  | shared n e => exact Expr.peel_moved e
  | _ => rfl

theorem accessText_moved (e : Expr) (text : Bytes) :
    accessText (e.moved g) text = accessText e text := by
  unfold accessText
  rw [Expr.peel_moved]
  cases e.peel <;> rfl

mutual

theorem Expr.source_moved (e : Expr) : (e.moved g).source = e.source := by
  cases e with
  | register r => rfl
  | call a f args => simp [Expr.moved, Expr.source, Expr.source_moved f, Expr.sources_moved args]
  | binary a op l r => simp [Expr.moved, Expr.source, Expr.source_moved l, Expr.source_moved r]
  | unary a op e => simp [Expr.moved, Expr.source, Expr.source_moved e]
  | table a ks vs =>
    simp [Expr.moved, Expr.source, Expr.keySources_moved ks, Expr.sources_moved vs]
  | index a t key =>
    simp [Expr.moved, Expr.source, accessText_moved, Expr.source_moved t, Expr.source_moved key]
  | shared n e => simp [Expr.moved, Expr.source, Expr.source_moved e]
  | _ => rfl

theorem Expr.sources_moved (es : List Expr) :
    Expr.sources (Expr.movedAll g es) = Expr.sources es := by
  cases es with
  | nil => rfl
  | cons e es => simp [Expr.movedAll, Expr.sources, Expr.source_moved e, Expr.sources_moved es]

theorem Expr.keySources_moved (es : List Expr) :
    Expr.keySources (Expr.movedAll g es) = Expr.keySources es := by
  cases es with
  | nil => rfl
  | cons e es =>
    have he := Expr.source_moved e
    cases e <;> simp_all [Expr.movedAll, Expr.moved, Expr.keySources, Expr.keySources_moved es]

end

theorem valueList_moved (es : List Expr) : valueList (Expr.movedAll g es) = valueList es := by
  rw [valueList, Expr.sources_moved, valueList]

theorem targetSource_moved (counts : Bool) (e : Expr) :
    targetSource counts (e.moved g) = targetSource counts e := by
  have he := Expr.source_moved g e
  cases e <;> first | exact he | rfl

theorem targetList_moved (counts : Bool) (es : List Expr) :
    targetList counts (Expr.movedAll g es) = targetList counts es := by
  rw [targetList, targetList, Expr.movedAll_eq, List.map_map]
  congr 2
  funext e
  exact targetSource_moved g counts e

theorem allUnused_moved (es : List Expr) : allUnused (Expr.movedAll g es) = allUnused es := by
  rw [allUnused, allUnused, Expr.movedAll_eq, List.all_map]
  congr 1
  funext e
  cases e <;> rfl

theorem assignText_moved (counts : Bool) (ts vs : List Expr) (kept : Bool) :
    assignText counts (Expr.movedAll g ts) (Expr.movedAll g vs) kept =
      assignText counts ts vs kept := by
  have hempty : (Expr.movedAll g ts).isEmpty = ts.isEmpty := by cases ts <;> rfl
  rw [assignText, assignText, hempty, allUnused_moved, valueList_moved, targetList_moved]

theorem boundText_moved (n : Node) : boundText (n.moved g) = boundText n := by
  cases n with
  | expr e => exact e.source_moved g
  | assign a ts vs kept =>
    cases vs with
    | nil => rfl
    | cons v vs => exact v.source_moved g
  | _ => rfl

theorem stepText_moved (n : Node) : stepText (n.moved g) = stepText n := by
  have hn := boundText_moved g n
  cases n <;> first | rfl | exact congrArg (comma ++ ·) hn

theorem parameterText_moved (params : List Register) (vararg : Bool) :
    parameterText (params.map (Register.moved g)) vararg = parameterText params vararg := by
  rw [parameterText, parameterText, List.map_map]
  rfl

theorem functionName_moved (e : Expr) : functionName (e.moved g) = functionName e := by
  have he := Expr.source_moved g e
  cases e <;> first | rfl | exact he

theorem Node.isPresent_moved (n : Node) : (n.moved g).isPresent = n.isPresent := by
  cases n <;> rfl

mutual

theorem Node.source_moved (counts : Bool) (indent : Nat) (n : Node) :
    (n.moved g).source counts indent = n.source counts indent := by
  cases n with
  | missing | chunk | arm | jump | tForLoop => rfl
  | expr e => exact e.source_moved g
  | block a body => simp [Node.moved, Node.source, Node.lines_moved counts indent body]
  | scope a body => simp [Node.moved, Node.source, Node.bodySource_moved counts indent body]
  | whileLoop a c body | repeatLoop a body c =>
    simp [Node.moved, Node.source, Expr.source_moved, Node.bodySource_moved counts indent body]
  | branch a c body arms other =>
    simp [Node.moved, Node.source, Expr.source_moved, Node.isPresent_moved,
      Node.bodySource_moved counts indent body, Node.armSources_moved counts indent arms,
      Node.bodySource_moved counts indent other]
  | numericFor a v init limit step body =>
    simp [Node.moved, Node.source, boundText_moved, stepText_moved,
      Node.bodySource_moved counts indent body]
    rfl
  | genericFor a vars es body =>
    simp [Node.moved, Node.source, valueList_moved, Node.bodySource_moved counts indent body]
  | function a name params vararg body =>
    simp only [Node.moved, Node.source, functionName_moved, parameterText_moved,
      Node.bodySource_moved counts indent body]
  | localFunction a name params vararg body =>
    simp only [Node.moved, Node.source, Expr.source_moved, parameterText_moved,
      Node.bodySource_moved counts indent body]
  | locals a names vs =>
    have hempty : (Expr.movedAll g vs).isEmpty = vs.isEmpty := by cases vs <;> rfl
    simp only [Node.moved, Node.source, targetList_moved, valueList_moved, hempty]
  | assign a ts vs kept => exact assignText_moved g counts ts vs kept
  | returns a vs =>
    have hempty : (Expr.movedAll g vs).isEmpty = vs.isEmpty := by cases vs <;> rfl
    simp only [Node.moved, Node.source, valueList_moved, hempty]
  | test a c => simp only [Node.moved, Node.source, Expr.source_moved]
  | forPrep a init limit step v =>
    simp only [Node.moved, Node.source, valueList, Expr.sources, Expr.source_moved]
    rfl
  | forLoop a counter offset => rfl

theorem Node.bodySource_moved (counts : Bool) (indent : Nat) (n : Node) :
    (n.moved g).bodySource counts indent = n.bodySource counts indent := by
  cases n with
  | block a body => exact Node.lines_moved counts indent body
  | _ => rfl

theorem Node.lines_moved (counts : Bool) (indent : Nat) (ns : List Node) :
    Node.lines counts indent (Node.movedAll g ns) = Node.lines counts indent ns := by
  cases ns with
  | nil => rfl
  | cons n ns =>
    simp [Node.movedAll, Node.lines, Node.source_moved counts (indent + indentWidth) n,
      Node.lines_moved counts indent ns]

theorem Node.armSources_moved (counts : Bool) (indent : Nat) (ns : List Node) :
    Node.armSources counts indent (Node.movedAll g ns) = Node.armSources counts indent ns := by
  cases ns with
  | nil => rfl
  | cons n ns =>
    have hrest := Node.armSources_moved counts indent ns
    cases n with
    | arm a c body =>
      simp [Node.movedAll, Node.moved, Node.armSources, Expr.source_moved,
        Node.bodySource_moved counts indent body, hrest]
    | _ => exact hrest

end

/-- The text of a tree does not depend on its addresses. -/
theorem Node.print_moved (counts : Bool) (n : Node) : (n.moved g).print counts = n.print counts := by
  cases n with
  | chunk a body =>
    simp only [Node.moved, Node.print, Node.fileSource, Node.movedAll_eq, List.flatMap_map,
      Node.source_moved]
  | _ => exact Node.source_moved g counts 0 _

end HavokScript
