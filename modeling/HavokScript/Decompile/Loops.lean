import HavokScript.Decompile.Error
import HavokScript.Tree.Basic

/-!
# Loop recovery

Loops are found from their branches back, the last one first. The end of a numeric loop makes a
`for` statement of the loop and of the three assignments in front of it that load its bounds; a
backward jump makes a block of everything from its target on. What is inside a loop is recovered
on its own before. Each step takes one branch away from the statements, which bounds their number.
-/

namespace HavokScript.Loops

/-- Whether a statement branches back: the end of a numeric loop, or a jump by a negative offset. -/
def isBackward : Node → Bool
  | .forLoop .. => true
  | .jump _ offset => offset < 0
  | _ => false

/-- How many statements branch back. -/
def backwardCount (stmts : List Node) : Nat := stmts.countP isBackward

/-- Where the last statement that branches back stands. -/
def lastBackward? (stmts : List Node) : Option Nat :=
  (stmts.reverse.findIdx? isBackward).map fun i => stmts.length - 1 - i

/-- The place of the first of the statements at or behind an address; `i` is that of the first of
all. A missing statement has no address, so it may not be asked for one. -/
def locateFrom (target : Int) : Nat → List Node → Except DecompileError Nat
  | _, [] => .error (.failed target none .locationNotFound)
  | _, .missing :: _ => .error .broken
  | i, s :: rest => if target ≤ s.address then .ok i else locateFrom target (i + 1) rest

/-- Where a branch to an address leads: to the first statement at or behind it, since an
instruction may have no statements. An address in front of all statements is no target. -/
def locate (stmts : List Node) (target : Int) : Except DecompileError Nat :=
  match stmts with
  | [] => .error (.failed target none .locationNotFound)
  | .missing :: _ => .error .broken
  | first :: _ =>
    if target < first.address then .error (.failed target none .locationNotFound)
    else locateFrom target 0 stmts

/-- The statements from place `first` up to place `last`, without the latter. -/
def slice (stmts : List Node) (first last : Nat) : List Node := (stmts.take last).drop first

/-- The statements with those from place `first` to place `last` replaced by one. -/
def splice (stmts : List Node) (first last : Nat) (s : Node) : List Node :=
  stmts.take first ++ s :: stmts.drop (last + 1)

/-- The statement at a place. -/
def nth (stmts : List Node) (i : Nat) : Node := stmts.getD i .missing

/-- The variable of the loop start that a loop body begins behind, with the bounds in front. -/
def prepared? (stmts : List Node) (begins : Nat) : Option Register :=
  if begins < 4 then none
  else
    match stmts[begins - 1]? with
    | some (.forPrep _ _ _ _ v) => some v
    | _ => none

/-- The statements with at most `steps` loops recovered. -/
def recoverWith : Nat → List Node → Except DecompileError (List Node)
  | 0, stmts => .ok stmts
  | steps + 1, stmts =>
    match lastBackward? stmts with
    | none => .ok stmts
    | some i =>
      match nth stmts i with
      | .forLoop address _ offset => do
        let begins ← locate stmts (branchTarget address offset)
        match prepared? stmts begins with
        | none => throw (.failed address none .badForPrep)
        | some v =>
          if i < begins then throw .broken
          let first := begins - 4
          let at_ := (nth stmts first).address
          let body ← recoverWith steps (slice stmts begins i)
          let loop := .numericFor at_ v (nth stmts first) (nth stmts (first + 1))
            (nth stmts (first + 2)) (.block at_ body)
          recoverWith steps (splice stmts first i loop)
      | .jump address offset => do
        let begins ← locate stmts (branchTarget address offset)
        if i < begins then throw .broken
        let at_ := (nth stmts begins).address
        let inner ← recoverWith steps (slice stmts begins i)
        recoverWith steps (splice stmts begins i (.block at_ (inner ++ [.jump address offset])))
      | _ => .ok stmts

/-- The statements with all loops recovered. -/
def recover (stmts : List Node) : Except DecompileError (List Node) :=
  recoverWith (backwardCount stmts) stmts

/-- The block with all loops of its statements recovered. -/
def recoverBlock : Node → Except DecompileError Node
  | .block a body => do return .block a (← recover body)
  | n => return n

/-- The file, block or function with all loops of its statements recovered. -/
def recoverNode : Node → Except DecompileError Node
  | .chunk a body => do return .chunk a (← recover body)
  | .function a name params vararg body => do
    return .function a name params vararg (← recoverBlock body)
  | .localFunction a name params vararg body => do
    return .localFunction a name params vararg (← recoverBlock body)
  | n => recoverBlock n

end HavokScript.Loops
