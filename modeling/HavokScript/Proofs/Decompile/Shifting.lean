import HavokScript.Proofs.Decompile.Failures
import HavokScript.Proofs.Decompile.Relocation
import Mathlib.Algebra.Group.Int.Defs
import Mathlib.Algebra.Group.Nat.Defs

/-!
# Functions at other addresses

Two functions are alike (`Code.Alike g`) if they have the same words, those of one at the addresses
that `g` gives for those of the other, and constants that the script language cannot tell apart.
Lowering such functions gives the same statements at other addresses, or it fails for the same
reason (`Code.lower_alike`).

Recovery looks at addresses: it follows a branch to the first statement at or behind its target. But
it only compares them, so if all statements are shifted by the same distance it finds the same loops
(`Loops.recover_shifted`). Addresses are far from the ends of the range of 64 bits, so that a target
that wraps around is no place in either list (`Loops.locate_branchTarget`).

The address of a function and those of its statements may be shifted by different distances. So
`Code.declaration_alike` compares declarations with all addresses taken away.
-/

namespace HavokScript

/-! ## Kinds of failures -/

/-- The kinds of failures of decompiling. -/
inductive DecompileFault where
  | constantIndex | globalKey | constantKind | locationNotFound | badForPrep | unboundRegister
  deriving DecidableEq, Repr

/-- The kind of a cause. A missing operand, which no decoded instruction has, is of no kind. -/
def DecompileCause.fault? : DecompileCause → Option DecompileFault
  | missingOperand _ => none
  | constantIndex .. => some .constantIndex
  | globalKey .. => some .globalKey
  | constantKind .. => some .constantKind
  | locationNotFound => some .locationNotFound
  | badForPrep => some .badForPrep
  | unboundRegister _ => some .unboundRegister

/-- The kind of a failure, if it has an address and a cause. -/
def DecompileError.fault? : DecompileError → Option DecompileFault
  | failed _ _ cause => cause.fault?
  | refused | broken => none

/-- Causes of the same kind. -/
def DecompileCause.SameKind (x y : DecompileCause) : Prop := x.fault? = y.fault?

/-- Failures of the same kind. -/
def DecompileError.SameKind (x y : DecompileError) : Prop := x.fault? = y.fault?

/-! ## Functions that are alike -/

/-- The instruction at another address. -/
def Instruction.moved (g : Int → Int) (i : Instruction) : Instruction :=
  { i with address := g i.address }

/-- Constants with the same literal: they are the same, or they are addresses, which have none. -/
structure Constant.Alike (k k' : Constant) : Prop where
  tag : k'.tag = k.tag
  eq : k.tag ≠ .lightUserdata → k' = k

/-- The same function at other addresses. -/
structure Code.Alike (g : Int → Int) (c c' : Code) : Prop where
  parameters : c'.parameters = c.parameters
  varargFlags : c'.varargFlags = c.varargFlags
  instructions : c'.instructions.items = c.instructions.items.map (Instruction.moved g)
  constants : List.Forall₂ Constant.Alike c.constants.items c'.constants.items

theorem Node.movedAll_append (g : Int → Int) (ns ms : List Node) :
    Node.movedAll g (ns ++ ms) = Node.movedAll g ns ++ Node.movedAll g ms := by
  simp only [Node.movedAll_eq, List.map_append]

namespace Lower

/-! ## Expressions -/

section

variable {g : Int → Int} {c c' : Code}

/-- Both expressions are the same at other addresses, or there is none for the same reason. -/
abbrev SameExpr (g : Int → Int) : Except DecompileCause Expr → Except DecompileCause Expr → Prop :=
  Agree (fun e e' => e' = e.moved g) DecompileCause.SameKind

/-- Both statement lists are the same at other addresses, or there is none for the same reason. -/
abbrev SameNodes (g : Int → Int) :
    Except DecompileCause (List Node) → Except DecompileCause (List Node) → Prop :=
  Agree (fun ns ns' => ns' = Node.movedAll g ns) DecompileCause.SameKind

theorem constant_alike (hc : c.Alike g c') (index : Int) :
    Agree Constant.Alike DecompileCause.SameKind (constant c index) (constant c' index) := by
  have hlength := hc.constants.length_eq
  unfold constant Code.constant?
  by_cases hneg : index < 0
  · rw [if_pos hneg, if_pos hneg]
    exact .error rfl
  · rw [if_neg hneg, if_neg hneg]
    by_cases hlt : index.toNat < c.constants.items.length
    · rw [List.getElem?_eq_getElem hlt, List.getElem?_eq_getElem (hlength ▸ hlt)]
      exact .ok (hc.constants.get hlt (hlength ▸ hlt))
    · rw [List.getElem?_eq_none (by omega), List.getElem?_eq_none (by omega)]
      exact .error rfl

theorem literal_alike (hc : c.Alike g c') (address index : Int) :
    SameExpr g (literal c address index) (literal c' (g address) index) := by
  refine (constant_alike hc index).bind fun k k' hk => ?_
  rw [hk.tag]
  by_cases hlight : k.tag = .lightUserdata
  · -- an address has no literal
    rw [hlight]
    exact .error rfl
  · rw [hk.eq hlight]
    split_ifs
    all_goals first | exact .ok rfl | exact .error rfl

theorem name_alike (hc : c.Alike g c') (address index : Int) :
    SameExpr g (name c address index) (name c' (g address) index) := by
  refine (constant_alike hc index).bind fun k k' hk => ?_
  by_cases hlight : k.tag = .lightUserdata
  · have hnone : ∀ k : Constant, k.tag = .lightUserdata → k.string? = none := by
      rintro ⟨tag, payload⟩ rfl
      cases payload <;> rfl
    rw [hnone k hlight, hnone k' (hk.tag.trans hlight)]
    exact .error rfl
  · rw [hk.eq hlight]
    cases k.string? with
    | none => exact .error rfl
    | some s => exact .ok rfl

theorem operand_alike (hc : c.Alike g c') (i : Instruction) (n : Nat) :
    SameExpr g (operand c i n) (operand c' (i.moved g) n) := by
  unfold operand
  rw [show (i.moved g).operands = i.operands from rfl]
  cases i.operands.items[n]? with
  | none => exact .error rfl
  | some o =>
    dsimp only
    split_ifs
    · exact .ok rfl
    · exact literal_alike hc i.address o.value
    · exact .ok rfl

theorem regs_moved (address first : Int) (count : Nat) :
    regs (g address) first count = Expr.movedAll g (regs address first count) := by
  rw [Expr.movedAll_eq, regs, regs, List.map_map]
  rfl

theorem concat_moved (i : Instruction) : concat (i.moved g) = (concat i).moved g := by
  have hfold : ∀ (rs : List Expr) (e : Expr),
      (Expr.movedAll g rs).foldl (fun e r => .binary (g i.address) (utf8 "..") e r) (e.moved g) =
        (rs.foldl (fun e r => .binary i.address (utf8 "..") e r) e).moved g := by
    intro rs
    induction rs with
    | nil => exact fun e => rfl
    | cons r rs ih => exact fun e => ih (.binary i.address (utf8 "..") e r)
  have hregs := regs_moved (g := g) i.address (wrap64 (i.argument 1 + 1))
    (i.argument 2 - wrap64 (i.argument 1 + 1) + 1).toNat
  exact (congrArg (List.foldl _ _) hregs).trans (hfold _ (reg i.address (i.argument 1)))

theorem condition_moved (i : Instruction) (register : Int) (n : Nat) :
    condition (i.moved g) register n = (condition i register n).moved g := by
  change (if i.argument n = 1 then _ else _) = _
  unfold condition
  split_ifs <;> rfl

theorem call_moved (i : Instruction) : call (i.moved g) = (call i).moved g := by
  change Expr.call (g i.address) _ (regs (g i.address) _ _) = _
  rw [regs_moved]
  rfl

/-! ## Statements -/

theorem arithmetic_alike (hc : c.Alike g c') (i : Instruction) (op : String) :
    SameNodes g (arithmetic c i op) (arithmetic c' (i.moved g) op) := by
  refine (operand_alike hc i 1).bind fun left _ hleft => ?_
  refine (operand_alike hc i 2).bind fun right _ hright => .ok ?_
  rw [hleft, hright]
  rfl

theorem comparison_alike (hc : c.Alike g c') (i : Instruction) (op whenOne : String) :
    SameNodes g (comparison c i op whenOne) (comparison c' (i.moved g) op whenOne) := by
  refine (operand_alike hc i 1).bind fun left _ hleft => ?_
  refine (operand_alike hc i 2).bind fun right _ hright => .ok ?_
  rw [hleft, hright]
  rfl

/-- Statements that are made from an expression. -/
theorem bind_alike {x x' : Except DecompileCause Expr} {make make' : Expr → List Node}
    (hx : SameExpr g x x') (hmake : ∀ e, make' (e.moved g) = Node.movedAll g (make e)) :
    SameNodes g (do let e ← x; return make e) (do let e ← x'; return make' e) :=
  hx.bind fun e e' he => .ok (by rw [he, hmake])

theorem opcode_alike (hc : c.Alike g c') (i : Instruction) (op : Opcode) :
    SameNodes g (opcode c i op) (opcode c' (i.moved g) op) := by
  cases op
  case add | sub | mul | div | mod | pow | addBK | subBK | mulBK | divBK | modBK | powBK =>
    exact arithmetic_alike hc i _
  case eq | lt | le | eqBK | ltBK | leBK => exact comparison_alike hc i _ _
  case call | callI | callIR1 | callC | callM =>
    refine .ok ?_
    rw [call_moved, show (i.moved g).address = g i.address from rfl, regs_moved]
    rfl
  case tailCall | tailCallI | tailCallIR1 | tailCallC | tailCallM =>
    refine .ok ?_
    rw [call_moved]
    rfl
  case tForLoop =>
    refine .ok ?_
    simp only [Node.movedAll, Node.moved, List.map_map]
    rfl
  case test | testR1 =>
    refine .ok ?_
    rw [show (i.moved g).argument = i.argument from rfl, condition_moved]
    rfl
  case testSet =>
    refine .ok ?_
    rw [show (i.moved g).argument = i.argument from rfl, condition_moved]
    rfl
  case loadBool =>
    refine .ok ?_
    change _ :: (if i.argument 2 = 0 then _ else _) = _
    split_ifs <;> rfl
  case loadNil =>
    have hnils : ∀ n, Expr.movedAll g (List.replicate n (.nil i.address)) =
        List.replicate n (.nil (g i.address)) := by
      intro n
      rw [Expr.movedAll_eq, List.map_replicate]
      rfl
    refine .ok ?_
    simp only [loadNil, Node.movedAll, Node.moved, ← regs_moved, hnils]
    rfl
  case loadK => exact bind_alike (operand_alike hc i 1) fun _ => rfl
  case getGlobal | getGlobalMem =>
    exact bind_alike (name_alike hc i.address (i.argument 1)) fun _ => rfl
  case setGlobal => exact bind_alike (name_alike hc i.address (i.argument 1)) fun _ => rfl
  case concat =>
    refine .ok ?_
    rw [concat_moved]
    rfl
  case vararg =>
    refine .ok ?_
    simp only [Node.movedAll, Node.moved, ← regs_moved]
    rfl
  case ret =>
    simp only [opcode, show (i.moved g).argument = i.argument from rfl]
    split_ifs
    · exact .ok rfl
    · refine .ok ?_
      simp only [Node.movedAll, Node.moved, ← regs_moved]
      rfl
  case getField | getFieldR1 | getFieldMM =>
    exact bind_alike (name_alike hc i.address (i.argument 2)) fun _ => rfl
  case setField | setFieldR1 =>
    refine (name_alike hc i.address (i.argument 1)).bind fun key _ hkey => ?_
    rw [hkey]
    exact bind_alike (operand_alike hc i 2) fun _ => rfl
  case getTable | getTableS | getTableN =>
    exact bind_alike (operand_alike hc i 2) fun _ => rfl
  case setTable | setTableS | setTableN | setTableBK | setTableSBK | setTableNBK =>
    refine (operand_alike hc i 1).bind fun key _ hkey => ?_
    rw [hkey]
    exact bind_alike (operand_alike hc i 2) fun _ => rfl
  case self => exact bind_alike (operand_alike hc i 2) fun _ => rfl
  all_goals exact .ok rfl

/-- The statements are the same at other addresses, or the functions fail with the same kind. -/
abbrev SameBody (g : Int → Int) :
    Except DecompileError (List Node) → Except DecompileError (List Node) → Prop :=
  Agree (fun ns ns' => ns' = Node.movedAll g ns) DecompileError.SameKind

theorem instruction_alike (hc : c.Alike g c') (i : Instruction) :
    SameBody g (instruction c i) (instruction c' (i.moved g)) := by
  unfold instruction
  rw [show (i.moved g).op = i.op from rfl]
  cases Opcode.ofCode? i.op with
  | none => exact .ok rfl
  | some op =>
    have hop := opcode_alike hc i op
    dsimp only
    revert hop
    generalize opcode c i op = x
    generalize opcode c' (i.moved g) op = x'
    intro hop
    cases hop with
    | ok h => exact .ok h
    | error h => exact .error h

theorem instructions_alike (hc : c.Alike g c') (is : List Instruction) :
    SameBody g (instructions c is) (instructions c' (is.map (Instruction.moved g))) := by
  induction is with
  | nil => exact .ok rfl
  | cons i is ih =>
    refine (instruction_alike hc i).bind fun ns _ hns => ih.bind fun rest _ hrest => .ok ?_
    rw [hns, hrest, Node.movedAll_append]

end

end Lower

/-- The parts of a lowered function may lie at other addresses, parameters apart from statements. -/
structure Declaration.Alike (g : Int → Int) (d d' : Declaration) : Prop where
  parameters : d'.parameters = d.parameters.map (Register.moved fun _ => d'.address)
  vararg : d'.vararg = d.vararg
  body : d'.body = Node.movedAll g d.body

theorem Declaration.numbered_alike {g : Int → Int} {d d' : Declaration} (h : d.Alike g d') :
    d.numbered.Alike g d'.numbered := by
  have hparameters : d'.parameters.mapM Register.renumber =
      List.map (Register.moved fun _ => d'.address) <$> d.parameters.mapM Register.renumber := by
    rw [h.parameters, List.mapM_map, ← Register.mapM_renumber_moved]
  refine ⟨?_, h.vararg, ?_⟩
  · simp only [numbered, hparameters]
    rfl
  · simp only [numbered, hparameters, h.body, Node.renumberAll_moved]
    rfl

/-- Functions that are alike have the same statements at other addresses. -/
theorem Code.lower_alike {g : Int → Int} {c c' : Code} (hc : c.Alike g c') :
    Agree (Declaration.Alike g) DecompileError.SameKind c.lower c'.lower := by
  unfold Code.lower
  rw [hc.instructions]
  refine (Lower.instructions_alike hc _).bind fun body _ hbody => .ok ?_
  refine Declaration.numbered_alike ⟨?_, ?_, hbody⟩
  · simp only [hc.parameters, List.map_map]
    rfl
  · simp only [hc.varargFlags]

/-! ## Loops -/

/-- The statement and the one `k` behind it are far from the ends of the range of addresses. -/
structure Node.Within (k : Int) (n : Node) : Prop where
  statement : n.isStatement
  address : 0 ≤ n.address ∧ n.address < 2 ^ 63
  shifted : 0 ≤ n.address + k ∧ n.address + k < 2 ^ 63
  near : n.Near

theorem Node.address_moved (g : Int → Int) {n : Node} (h : n.isStatement) :
    (n.moved g).address = g n.address := by
  cases n <;> first | rfl | cases h

namespace Loops

section

variable (g : Int → Int) (stmts : List Node)

theorem isBackward_moved (n : Node) : isBackward (n.moved g) = isBackward n := by
  cases n <;> rfl

theorem lastBackward?_moved : lastBackward? (Node.movedAll g stmts) = lastBackward? stmts := by
  have hback : isBackward ∘ Node.moved g = isBackward := funext (isBackward_moved g)
  rw [lastBackward?, lastBackward?, Node.movedAll_eq, ← List.map_reverse, List.findIdx?_map, hback,
    List.length_map]

theorem nth_moved (i : Nat) : nth (Node.movedAll g stmts) i = (nth stmts i).moved g := by
  rw [nth, nth, Node.movedAll_eq, List.getD_eq_getElem?_getD, List.getD_eq_getElem?_getD,
    List.getElem?_map]
  cases stmts[i]? <;> rfl

theorem prepared?_moved (begins : Nat) :
    prepared? (Node.movedAll g stmts) begins = (prepared? stmts begins).map (Register.moved g) := by
  rw [prepared?, prepared?, Node.movedAll_eq, List.getElem?_map]
  split_ifs
  · rfl
  · cases stmts[begins - 1]? with
    | none => rfl
    | some n => cases n <;> rfl

theorem slice_moved (first last : Nat) :
    slice (Node.movedAll g stmts) first last = Node.movedAll g (slice stmts first last) := by
  simp only [slice, Node.movedAll_eq, List.map_take, List.map_drop]

theorem splice_moved (first last : Nat) (n : Node) :
    splice (Node.movedAll g stmts) first last (n.moved g) =
      Node.movedAll g (splice stmts first last n) := by
  simp only [splice, Node.movedAll_eq, List.map_append, List.map_cons, List.map_take,
    List.map_drop]

end

/-! ### Targets -/

variable {k : Int} {stmts : List Node}

theorem ne_missing {n : Node} (h : n.isStatement) : n ≠ .missing := by
  rintro rfl
  cases h

theorem isStatement_moved {g : Int → Int} {n : Node} (h : n.isStatement) :
    (n.moved g).isStatement := by
  cases n <;> first | rfl | cases h

/-- A search compares addresses only, so it finds the same place if all of them are shifted. -/
theorem locateFrom_shifted (hstmts : ∀ n ∈ stmts, n.isStatement) (target : Int) (i : Nat) :
    (locateFrom (target + k) i (Node.movedAll (· + k) stmts)).mapError DecompileError.fault? =
      (locateFrom target i stmts).mapError DecompileError.fault? := by
  induction stmts generalizing i with
  | nil => rfl
  | cons n ns ih =>
    rw [List.forall_mem_cons] at hstmts
    have hiff : target + k ≤ n.address + k ↔ target ≤ n.address := by omega
    rw [Node.movedAll, locateFrom_cons (ne_missing (isStatement_moved hstmts.1)),
      locateFrom_cons (ne_missing hstmts.1), Node.address_moved _ hstmts.1]
    simp only [hiff]
    split_ifs
    · rfl
    · exact ih hstmts.2 (i + 1)

theorem locate_shifted (hstmts : ∀ n ∈ stmts, n.isStatement) (target : Int) :
    (locate (Node.movedAll (· + k) stmts) (target + k)).mapError DecompileError.fault? =
      (locate stmts target).mapError DecompileError.fault? := by
  cases stmts with
  | nil => rfl
  | cons n ns =>
    have hn := hstmts n (by simp)
    have hiff : target + k < n.address + k ↔ target < n.address := by omega
    have hsearch := locateFrom_shifted (k := k) hstmts target 0
    rw [Node.movedAll] at hsearch ⊢
    rw [locate_cons (ne_missing (isStatement_moved hn)), locate_cons (ne_missing hn),
      Node.address_moved _ hn]
    simp only [hiff]
    split_ifs
    · rfl
    · exact hsearch

theorem locateFrom_behind {target : Int} (hstmts : ∀ n ∈ stmts, n.isStatement)
    (hbehind : ∀ n ∈ stmts, n.address < target) (i : Nat) :
    locateFrom target i stmts = .error (.failed target none .locationNotFound) := by
  induction stmts generalizing i with
  | nil => rfl
  | cons n ns ih =>
    rw [List.forall_mem_cons] at hstmts hbehind
    rw [locateFrom_cons (ne_missing hstmts.1), if_neg (by omega)]
    exact ih hstmts.2 hbehind.2 (i + 1)

/-- A target that wraps around was behind all statements and is in front of all of them. -/
theorem locate_wrap64 (hstmts : ∀ n ∈ stmts, n.isStatement)
    (hrange : ∀ n ∈ stmts, 0 ≤ n.address ∧ n.address < 2 ^ 63) {target : Int}
    (hlow : -2 ^ 63 ≤ target) (hhigh : target < 2 ^ 64) :
    (locate stmts (wrap64 target)).mapError DecompileError.fault? =
      (locate stmts target).mapError DecompileError.fault? := by
  by_cases hfits : target < 2 ^ 63
  · have hwrap : wrap64 target = target := by
      rw [wrap64, Int.bmod_def]
      omega
    rw [hwrap]
  · have hwrap : wrap64 target < 0 := by
      rw [wrap64, Int.bmod_def]
      omega
    cases stmts with
    | nil => rfl
    | cons n ns =>
      have hn := hrange n (by simp)
      have hpresent := ne_missing (hstmts n (by simp))
      rw [locate_cons hpresent, locate_cons hpresent, if_pos (by omega), if_neg (by omega),
        locateFrom_behind hstmts (fun m hm => by have := hrange m hm; omega)]
      rfl

/-- A branch leads to the same place if all statements are shifted. -/
theorem locate_branchTarget (hstmts : ∀ n ∈ stmts, n.Within k) {address offset : Int}
    (haddress : 0 ≤ address ∧ address < 2 ^ 63) (hshifted : 0 ≤ address + k ∧ address + k < 2 ^ 63)
    (hoffset : -0xFFFF ≤ offset ∧ offset ≤ 0x10000) :
    Agree (· = ·) DecompileError.SameKind (locate stmts (branchTarget address offset))
      (locate (Node.movedAll (· + k) stmts) (branchTarget (address + k) offset)) := by
  have hstatements : ∀ n ∈ stmts, n.isStatement := fun n hn => (hstmts n hn).statement
  -- neither list tells a target from the wrapped one, so the sums can be compared
  apply Agree.of_mapError
  have htarget : address + k + 4 + offset * 4 = address + 4 + offset * 4 + k := by omega
  rw [branchTarget, branchTarget, htarget, locate_wrap64 hstatements, locate_wrap64,
    locate_shifted hstatements]
  · rw [Node.movedAll_eq, List.forall_mem_map]
    exact fun n hn => isStatement_moved (hstatements n hn)
  · rw [Node.movedAll_eq, List.forall_mem_map]
    intro n hn
    rw [Node.address_moved _ (hstatements n hn)]
    exact (hstmts n hn).shifted
  · omega
  · omega
  · exact fun n hn => (hstmts n hn).address
  · omega
  · omega

/-! ### Loops that are made -/

/-- The same loop, with all that is in it shifted. -/
structure Closing.Shifted (k : Int) (c c' : Closing) : Prop where
  first : c'.first = c.first
  last : c'.last = c.last
  inner : c'.inner = Node.movedAll (· + k) c.inner
  close : ∀ body, c'.close (Node.movedAll (· + k) body) = (c.close body).moved (· + k)

theorem Closing.Shifted.apply {c c' : Closing} (h : c.Shifted k c') (body : List Node) :
    c'.apply (Node.movedAll (· + k) stmts) (Node.movedAll (· + k) body) =
      Node.movedAll (· + k) (c.apply stmts body) := by
  rw [Closing.apply, Closing.apply, h.first, h.last, h.close, splice_moved]

theorem nth_within (hstmts : ∀ n ∈ stmts, n.Within k) {i : Nat} (hi : i < stmts.length) :
    (nth stmts i).Within k := hstmts _ (nth_mem hi)

theorem numericLoop_shifted (hstmts : ∀ n ∈ stmts, n.Within k) {begins i : Nat}
    (hbegins : begins ≤ i) (hi : i < stmts.length) (v : Register) :
    (numericLoop stmts begins i v).Shifted k
      (numericLoop (Node.movedAll (· + k) stmts) begins i (v.moved (· + k))) := by
  have hfirst := (nth_within hstmts (i := begins - 4) (by omega)).statement
  refine ⟨rfl, rfl, slice_moved _ _ _ _, fun body => ?_⟩
  simp only [numericLoop, nth_moved, Node.address_moved _ hfirst]
  rfl

theorem region_shifted (hstmts : ∀ n ∈ stmts, n.Within k) {begins i : Nat} (hbegins : begins ≤ i)
    (hi : i < stmts.length) (address offset : Int) :
    (region stmts begins i address offset).Shifted k
      (region (Node.movedAll (· + k) stmts) begins i (address + k) offset) := by
  have hfirst := (nth_within hstmts (i := begins) (by omega)).statement
  refine ⟨rfl, rfl, slice_moved _ _ _ _, fun body => ?_⟩
  simp only [region, nth_moved, Node.address_moved _ hfirst, Node.moved, Node.movedAll_append]
  rfl

theorem closing_shifted (hstmts : ∀ n ∈ stmts, n.Within k) :
    Agree (Option.Rel (Closing.Shifted k)) DecompileError.SameKind (closing stmts)
      (closing (Node.movedAll (· + k) stmts)) := by
  unfold closing
  rw [lastBackward?_moved]
  cases hlast : lastBackward? stmts with
  | none => exact .ok .none
  | some i =>
    obtain ⟨hi, -⟩ := lastBackward?_some hlast
    have hwithin := nth_within hstmts hi
    dsimp only
    rw [nth_moved]
    cases hn : nth stmts i with
    | forLoop address counter offset =>
      rw [hn] at hwithin
      refine (locate_branchTarget hstmts hwithin.address hwithin.shifted hwithin.near).bind ?_
      rintro begins _ rfl
      rw [prepared?_moved]
      cases prepared? stmts begins with
      | none => exact .error rfl
      | some v =>
        dsimp only [Option.map_some]
        split_ifs with hlt
        · exact .error rfl
        · exact .ok (.some (numericLoop_shifted hstmts (by omega) hi v))
    | jump address offset =>
      rw [hn] at hwithin
      refine (locate_branchTarget hstmts hwithin.address hwithin.shifted hwithin.near).bind ?_
      rintro begins _ rfl
      split_ifs with hlt
      · exact .error rfl
      · exact .ok (.some (region_shifted hstmts (by omega) hi address offset))
    | _ => exact .ok .none

/-- The loop that is made stands where one of the statements stood. -/
theorem close_within (hstmts : ∀ n ∈ stmts, n.Within k) {c : Closing}
    (hc : closing stmts = .ok (some c)) (body : List Node) : (c.close body).Within k := by
  have hcloses := closing_closes stmts
  rw [hc] at hcloses
  cases hcloses with
  | @numeric i begins address offset v hend _ _ hle =>
    have hi := (lastBackward?_some hend.last).1
    have hfirst := nth_within hstmts (i := begins - 4) (by omega)
    exact ⟨rfl, hfirst.address, hfirst.shifted, trivial⟩
  | @region i begins address offset hend _ hle =>
    have hi := (lastBackward?_some hend.last).1
    have hfirst := nth_within hstmts (i := begins) (by omega)
    exact ⟨rfl, hfirst.address, hfirst.shifted, trivial⟩

/-- **Recovery of shifted statements** finds the same loops, or it fails for the same reason. -/
theorem recover_shifted (hstmts : ∀ n ∈ stmts, n.Within k) :
    Lower.SameBody (· + k) (recover stmts) (recover (Node.movedAll (· + k) stmts)) := by
  induction stmts using recover_induction with
  | step stmts ih =>
    have hclosing := closing_shifted hstmts
    rw [recover_eq stmts, recover_eq (Node.movedAll (· + k) stmts)]
    generalize closing (Node.movedAll (· + k) stmts) = y at hclosing
    cases hc : closing stmts with
    | error e =>
      rw [hc] at hclosing
      cases hclosing with
      | error h => exact .error h
    | ok found =>
      rw [hc] at hclosing
      cases hclosing with
      | ok h =>
        cases h with
        | none => exact .ok rfl
        | @some c c' hshifted =>
          obtain ⟨hinner, happly⟩ := ih c hc
          dsimp only
          -- recovery goes on with two lists, both of which are shifted again
          rw [hshifted.inner]
          refine (hinner fun n hn => hstmts n (mem_inner hc hn)).bind ?_
          rintro body _ rfl
          rw [hshifted.apply]
          refine happly body fun n hn => ?_
          rcases mem_apply hn with hn | rfl
          · exact hstmts n hn
          · exact close_within hstmts hc body

end Loops

/-! ## Declarations -/

/-- Takes addresses away. -/
abbrev nowhere : Int → Int := fun _ => 0

/-- Declarations that differ in addresses only. -/
structure Declaration.SameText (d d' : Declaration) : Prop where
  parameters : d'.parameters.map (Register.moved nowhere) =
    d.parameters.map (Register.moved nowhere)
  vararg : d'.vararg = d.vararg
  body : Node.movedAll nowhere d'.body = Node.movedAll nowhere d.body

theorem Declaration.Alike.sameText {g : Int → Int} {d d' : Declaration} (h : d.Alike g d') :
    d.SameText d' := by
  refine ⟨?_, h.vararg, ?_⟩
  · rw [h.parameters, Register.map_moved_moved]
    rfl
  · rw [h.body, Node.movedAll_movedAll]
    rfl

/-- The instructions are decoded, and their addresses are positions of a file. -/
def Code.Placed (c : Code) : Prop :=
  ∀ i ∈ c.instructions.items, i.Decoded ∧ i.address < 2 ^ 63

theorem Code.lower_within {k : Int} {c c' : Code} (hc : c.Alike (· + k) c') (hplaced : c.Placed)
    (hplaced' : c'.Placed) {d : Declaration} (hd : c.lower = .ok d) :
    ∀ n ∈ d.body, n.Within k := by
  intro n hn
  have hbody := c.lower_outcome
  rw [hd] at hbody
  obtain ⟨i, hi, op, -, hmade⟩ := hbody n hn
  obtain ⟨hdecoded, hlt⟩ := hplaced i hi
  have hmoved : i.moved (· + k) ∈ c'.instructions.items :=
    hc.instructions ▸ List.mem_map_of_mem hi
  obtain ⟨hdecoded', hlt'⟩ := hplaced' _ hmoved
  refine ⟨?_, ?_, ?_, hmade.near hdecoded⟩
  · cases hmade.flat <;> rfl
  · rw [hmade.address]
    exact ⟨hdecoded.address_nonneg, hlt⟩
  · rw [hmade.address]
    exact ⟨hdecoded'.address_nonneg, hlt'⟩

theorem Code.declaration_alike {o : Options} (ho : o.stages = []) {k : Int} {c c' : Code}
    (hc : c.Alike (· + k) c') (hplaced : c.Placed) (hplaced' : c'.Placed) :
    Agree Declaration.SameText DecompileError.SameKind (c.declaration o) (c'.declaration o) := by
  have hlower := (Code.lower_alike hc).and_left fun d hd => Code.lower_within hc hplaced hplaced' hd
  refine hlower.bind fun d d' ⟨halike, hwithin⟩ => ?_
  cases o.structured with
  | false => exact .ok halike.sameText
  | true =>
    simp only [if_true, ho, Stage.runAll]
    rw [halike.body]
    refine (Loops.recover_shifted hwithin).bind fun body body' hbody => .ok ?_
    exact Declaration.Alike.sameText (g := (· + k)) ⟨halike.parameters, halike.vararg, hbody⟩

/-! ## Trees of functions -/

mutual

/-- The same functions at other addresses: the instructions of each may be shifted by a distance of
its own. -/
inductive Prototype.Alike : Prototype → Prototype → Prop
  | leaf {k : Int} {c c' : Code} (code : c.Alike (· + k) c') (placed : c.Placed)
      (placed' : c'.Placed) : Alike ⟨c, none⟩ ⟨c', none⟩
  | node {k : Int} {c c' : Code} {ps ps' : List Prototype} (code : c.Alike (· + k) c')
      (placed : c.Placed) (placed' : c'.Placed) (closures : AllAlike ps ps') :
      Alike ⟨c, some ps⟩ ⟨c', some ps'⟩

/-- Functions that are alike one by one. -/
inductive Prototype.AllAlike : List Prototype → List Prototype → Prop
  | nil : AllAlike [] []
  | cons {p p' : Prototype} {ps ps' : List Prototype} (head : Alike p p') (tail : AllAlike ps ps') :
      AllAlike (p :: ps) (p' :: ps')

end

theorem Declaration.SameText.toLocal {d d' : Declaration} (h : d.SameText d') (i : Nat) :
    (d'.toLocal i).moved nowhere = (d.toLocal i).moved nowhere := by
  simp only [Declaration.toLocal, Node.moved, h.parameters, h.vararg, h.body]
  rfl

mutual

theorem Prototype.declaration_alike {o : Options} (ho : o.stages = []) {p p' : Prototype}
    (h : p.Alike p') :
    Agree Declaration.SameText DecompileError.SameKind (p.declaration o) (p'.declaration o) := by
  cases h with
  | leaf code placed placed' => exact Code.declaration_alike ho code placed placed'
  | node code placed placed' closures =>
    refine (Code.declaration_alike ho code placed placed').bind fun d d' hd => ?_
    refine (Prototype.locals_alike ho 0 closures).bind fun ns ns' hns => .ok ?_
    refine ⟨hd.parameters, hd.vararg, ?_⟩
    simp only [Node.movedAll_append, hns, hd.body]

theorem Prototype.locals_alike {o : Options} (ho : o.stages = []) (i : Nat)
    {ps ps' : List Prototype} (h : Prototype.AllAlike ps ps') :
    Agree (fun ns ns' => Node.movedAll nowhere ns' = Node.movedAll nowhere ns)
      DecompileError.SameKind (Prototype.locals o i ps) (Prototype.locals o i ps') := by
  cases h with
  | nil => exact .ok rfl
  | cons head tail =>
    refine (Prototype.declaration_alike ho head).bind fun d d' hd => ?_
    refine (Prototype.locals_alike ho (i + 1) tail).bind fun ns ns' hns => .ok ?_
    simp only [Node.movedAll, hd.toLocal, hns]

end

/-! ## Files -/

/-- Trees that differ in addresses only, or failures of the same kind. -/
abbrev SameTree : Except DecompileError Node → Except DecompileError Node → Prop :=
  Agree (fun n n' => n'.moved nowhere = n.moved nowhere) DecompileError.SameKind

/-- A pass that does not look at addresses and can only fail in one way. -/
theorem sameTree_pass {pass : Node → Except DecompileError Node}
    (hmoved : ∀ n, (pass (n.moved nowhere)).toOption =
      (pass n).toOption.map (Node.moved nowhere))
    (hfails : ∀ n, Outcome (fun _ => True) Unbound (pass n)) {n n' : Node}
    (h : n'.moved nowhere = n.moved nowhere) : SameTree (pass n) (pass n') := by
  have hsame : (pass n').toOption.map (Node.moved nowhere) =
      (pass n).toOption.map (Node.moved nowhere) := by
    rw [← hmoved, ← hmoved, h]
  have hn := hfails n
  have hn' := hfails n'
  cases hrun : pass n with
  | ok m =>
    cases hrun' : pass n' with
    | ok m' =>
      rw [hrun, hrun'] at hsame
      exact .ok (Option.some.inj hsame)
    | error e' =>
      rw [hrun, hrun'] at hsame
      cases hsame
  | error e =>
    cases hrun' : pass n' with
    | ok m' =>
      rw [hrun, hrun'] at hsame
      cases hsame
    | error e' =>
      rw [hrun] at hn
      rw [hrun'] at hn'
      obtain ⟨r, rfl⟩ := hn
      obtain ⟨r', rfl⟩ := hn'
      exact .error rfl

theorem ChunkFile.decompile_alike {o : Options} (ho : o.stages = []) {f f' : ChunkFile}
    {p p' : Prototype} (hp : f.root = some p) (hp' : f'.root = some p') (h : p.Alike p') :
    SameTree (f.decompile o) (f'.decompile o) := by
  unfold ChunkFile.decompile
  rw [hp, hp']
  refine (Prototype.declaration_alike ho h).bind fun d d' hd => ?_
  have hchunk : (Node.chunk d'.address [d'.toNode]).moved nowhere =
      (Node.chunk d.address [d.toNode]).moved nowhere := by
    simp only [Declaration.toNode, Node.moved, Node.movedAll, hd.parameters, hd.vararg, hd.body]
  cases o.inlined with
  | false => exact .ok hchunk
  | true =>
    refine (sameTree_pass (Node.countUses_moved nowhere) Node.countUses_outcome hchunk).bind ?_
    intro n n' hn
    exact sameTree_pass (Node.inlined_moved nowhere) Node.inlined_outcome hn

end HavokScript
