import HavokScript.Proofs.Decompile.Inlining

/-!
# The meaning of straight-line code

Code without branches is run with its registers as slots that hold values. What it mentions and does
not define (names, operators, closures, calls) is read by an interpretation `Interp`, and a run gives
the list of its observations: calls, stores outside the registers, and the returned values. The
`n`-th call of a run gives values that depend on `n`, the function and the arguments only.

Use counts have no meaning (`Interp.run_addReads`).
-/

namespace HavokScript

/-- A fixed reading of what code mentions and does not define. -/
structure Interp (V : Type) where
  nil : V
  bool : Bool → V
  number : Double → V
  string : Bytes → V
  /-- the value of a name: that of a global variable or an upvalue, or the name of a field -/
  identifier : Bytes → V
  closure : Int → V
  /-- the further arguments of the function -/
  vararg : Nat → V
  binary : Bytes → V → V → V
  unary : Bytes → V → V
  table : List V → List V → V
  index : V → V → V
  /-- the results of the call at a position of the run, from the function and the arguments -/
  call : Nat → V → List V → Nat → V

/-- Something that a run shows. -/
inductive Event (V : Type) where
  | call (function : V) (arguments : List V)
  | named (name : Bytes) (value : V)
  | entry (table key value : V)
  | returned (values : List V)
  deriving DecidableEq

/-- What a run has shown, the last event first, and how many calls there were. -/
structure Log (V : Type) where
  calls : Nat
  events : List (Event V)

/-- A step of a run. -/
abbrev Running (V α : Type) := StateM (Log V) α

/-- Where an assignment puts a value. -/
inductive Place (V : Type) where
  | slot (index : Int)
  | name (name : Bytes)
  | entry (table key : V)
  | nowhere

namespace Place

variable {V : Type}

/-- The slots after the values were put to their places. -/
def write (slots : Int → V) : List (Place V × V) → Int → V
  | [] => slots
  | (slot i, v) :: stores => write (fun q => if q = i then v else slots q) stores
  | _ :: stores => write slots stores

/-- What is seen when values are put to their places, the last event first. -/
def reveal (seen : List (Event V)) : List (Place V × V) → List (Event V)
  | [] => seen
  | (name n, v) :: stores => reveal (.named n v :: seen) stores
  | (entry t k, v) :: stores => reveal (.entry t k v :: seen) stores
  | _ :: stores => reveal seen stores

end Place

namespace Interp

variable {V : Type}

/-! ## Runs -/

/-- Calls a function. -/
def invoke (I : Interp V) (f : V) (args : List V) : Running V (Nat → V) := fun log =>
  (I.call log.calls f args, ⟨log.calls + 1, .call f args :: log.events⟩)

mutual

/-- The value of an expression. -/
def eval (I : Interp V) (slots : Int → V) : Expr → Running V V
  | .missing | .nil _ => return I.nil
  | .register r => return slots r.index
  | .closure _ i => return I.closure i
  | .identifier _ n => return I.identifier n
  | .bool _ b => return I.bool b
  | .number _ x => return I.number x
  | .string _ s => return I.string s
  | .vararg _ => return I.vararg 0
  | .call _ f args => do
    let f ← I.eval slots f
    let args ← I.evalAll slots args
    let results ← I.invoke f args
    return results 0
  | .binary _ op l r => do
    let l ← I.eval slots l
    let r ← I.eval slots r
    return I.binary op l r
  | .unary _ op e => do
    let v ← I.eval slots e
    return I.unary op v
  | .table _ ks vs => do
    let ks ← I.evalAll slots ks
    let vs ← I.evalAll slots vs
    return I.table ks vs
  | .index _ t k => do
    let t ← I.eval slots t
    let k ← I.eval slots k
    return I.index t k
  | .shared _ e => I.eval slots e

/-- The values of expressions, from left to right. -/
def evalAll (I : Interp V) (slots : Int → V) : List Expr → Running V (List V)
  | [] => return []
  | e :: es => do
    let v ← I.eval slots e
    let vs ← I.evalAll slots es
    return v :: vs

end

/-- All values of an expression: a call and `...` give several, anything else gives one. -/
def results (I : Interp V) (slots : Int → V) : Expr → Running V (Nat → V)
  | .call _ f args => do
    let f ← I.eval slots f
    let args ← I.evalAll slots args
    I.invoke f args
  | .vararg _ => return I.vararg
  | .shared _ e => I.results slots e
  | e => do
    let v ← I.eval slots e
    return fun k => if k = 0 then v else I.nil

/-- All values of expressions: an expression that stands alone gives all of its values. -/
def resultsAll (I : Interp V) (slots : Int → V) : List Expr → Running V (Nat → V)
  | [e] => I.results slots e
  | es => do
    let vs ← I.evalAll slots es
    return fun k => vs.getD k I.nil

/-- The values for a number of targets. -/
def valuesFor (I : Interp V) (slots : Int → V) (count : Nat) (es : List Expr) :
    Running V (List V) := do
  let results ← I.resultsAll slots es
  return (List.range count).map results

/-- The place that a target names. -/
def place (I : Interp V) (slots : Int → V) : Expr → Running V (Place V)
  | .register r => return .slot r.index
  | .identifier _ n => return .name n
  | .index _ t k => do
    let t ← I.eval slots t
    let k ← I.eval slots k
    return .entry t k
  | _ => return .nowhere

/-- The places that targets name, from left to right. -/
def placeAll (I : Interp V) (slots : Int → V) : List Expr → Running V (List (Place V))
  | [] => return []
  | e :: es => do
    let p ← I.place slots e
    let ps ← I.placeAll slots es
    return p :: ps

/-- Runs statements up to the first return. Statements other than assignments and returns are passed
over. -/
def run (I : Interp V) : List Node → (Int → V) → Running V Unit
  | [], _ => return ()
  | .assign _ ts vs _ :: ns, slots => do
    let values ← I.valuesFor slots ts.length vs
    let places ← I.placeAll slots ts
    modify fun log => { log with events := Place.reveal log.events (places.zip values) }
    I.run ns (Place.write slots (places.zip values))
  | .returns _ vs :: _, slots => do
    let values ← I.evalAll slots vs
    modify fun log => { log with events := .returned values :: log.events }
  | _ :: ns, slots => I.run ns slots

/-- What a function shows, run from these slots. -/
def observe (I : Interp V) (slots : Int → V) : Node → List (Event V)
  | .function _ _ _ _ (.block _ body) => ((I.run body slots).run ⟨0, []⟩).2.events.reverse
  | _ => []

/-! ## Use counts -/

mutual

theorem eval_addReads (I : Interp V) (slots : Int → V) (reads : List Nat) (e : Expr) :
    I.eval slots (e.addReads reads) = I.eval slots e := by
  cases e with
  | call a f args =>
    simp only [Expr.addReads, eval, eval_addReads I slots reads f,
      evalAll_addReads I slots reads args]
  | binary a op l r =>
    simp only [Expr.addReads, eval, eval_addReads I slots reads l, eval_addReads I slots reads r]
  | unary a op e => simp only [Expr.addReads, eval, eval_addReads I slots reads e]
  | table a ks vs =>
    simp only [Expr.addReads, eval, evalAll_addReads I slots reads ks,
      evalAll_addReads I slots reads vs]
  | index a t k =>
    simp only [Expr.addReads, eval, eval_addReads I slots reads t, eval_addReads I slots reads k]
  | shared n e => simp only [Expr.addReads, eval, eval_addReads I slots reads e]
  | _ => rfl

theorem evalAll_addReads (I : Interp V) (slots : Int → V) (reads : List Nat) (es : List Expr) :
    I.evalAll slots (Expr.addReadsAll reads es) = I.evalAll slots es := by
  cases es with
  | nil => rfl
  | cons e es =>
    simp only [Expr.addReadsAll, evalAll, eval_addReads I slots reads e,
      evalAll_addReads I slots reads es]

end

theorem results_addReads (I : Interp V) (slots : Int → V) (reads : List Nat) (e : Expr) :
    I.results slots (e.addReads reads) = I.results slots e := by
  cases e with
  | call a f args =>
    simp only [Expr.addReads, results, eval_addReads I slots reads f,
      evalAll_addReads I slots reads args]
  | shared n e => exact results_addReads I slots reads e
  | binary a op l r =>
    simp only [results, ← eval_addReads I slots reads (.binary a op l r), Expr.addReads]
  | unary a op e => simp only [results, ← eval_addReads I slots reads (.unary a op e), Expr.addReads]
  | table a ks vs =>
    simp only [results, ← eval_addReads I slots reads (.table a ks vs), Expr.addReads]
  | index a t k => simp only [results, ← eval_addReads I slots reads (.index a t k), Expr.addReads]
  | _ => rfl

theorem resultsAll_addReads (I : Interp V) (slots : Int → V) (reads : List Nat)
    (es : List Expr) : I.resultsAll slots (Expr.addReadsAll reads es) = I.resultsAll slots es := by
  match es with
  | [] => rfl
  | [e] => simp only [Expr.addReadsAll, resultsAll, results_addReads]
  | e :: e' :: es =>
    have h := evalAll_addReads I slots reads (e :: e' :: es)
    simp only [Expr.addReadsAll] at h
    simp only [Expr.addReadsAll, resultsAll, h]

theorem place_addReads (I : Interp V) (slots : Int → V) (reads : List Nat) (e : Expr) :
    I.place slots (e.addReads reads) = I.place slots e := by
  cases e with
  | index a t k => simp only [Expr.addReads, place, eval_addReads]
  | _ => rfl

theorem placeAll_addReads (I : Interp V) (slots : Int → V) (reads : List Nat) (es : List Expr) :
    I.placeAll slots (Expr.addReadsAll reads es) = I.placeAll slots es := by
  induction es with
  | nil => rfl
  | cons e es ih => simp only [Expr.addReadsAll, placeAll, place_addReads, ih]

theorem run_addReads (I : Interp V) (reads : List Nat) (ns : List Node) (slots : Int → V) :
    I.run (Node.addReadsAll reads ns) slots = I.run ns slots := by
  induction ns generalizing slots with
  | nil => rfl
  | cons n ns ih =>
    cases n with
    | assign a ts vs kept =>
      simp only [Node.addReadsAll, Node.addReads, run, length_addReadsAll, valuesFor,
        resultsAll_addReads, placeAll_addReads, ih]
    | returns a vs => simp only [Node.addReadsAll, Node.addReads, run, evalAll_addReads]
    | _ => exact ih slots

end Interp

end HavokScript
