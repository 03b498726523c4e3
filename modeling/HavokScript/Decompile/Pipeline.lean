import HavokScript.Decompile.Inline
import HavokScript.Decompile.Loops
import HavokScript.Decompile.Lower
import HavokScript.Decompile.Uses

/-!
# Decompiling a chunk file

Every function is lowered and its loops are recovered on its own. The main function has no name; the
functions of closures are declared as `C0`, `C1`, … in front of the statements of the function that
makes them. Use counts and inlining go over the whole tree at the end.
-/

namespace HavokScript

/-- A change of the statements of a function after its loops were recovered. -/
abbrev Stage := List Node → Except DecompileError (List Node)

namespace Stage

/-- Removes the markers of the outermost list. -/
def dropMarkers : Stage := fun stmts => .ok (stmts.filter fun s => !s.isMarker)

/-- Puts all statements into one `do … end`. -/
def wrap : Stage
  | [] => .ok []
  | s :: ss => .ok [.scope s.address (.block s.address (s :: ss))]

/-- Refuses every function. -/
def refuse : Stage := fun _ => .error .refused

/-- Stages one after the other. -/
def runAll : List Stage → Stage
  | [], stmts => .ok stmts
  | stage :: stages, stmts => do runAll stages (← stage stmts)

end Stage

/-- Which passes run. -/
structure Options where
  /-- loops are recovered; otherwise the markers stay -/
  structured : Bool
  /-- single-use registers are inlined -/
  inlined : Bool
  /-- run on every function after its loops were recovered -/
  stages : List Stage

/-- All passes. -/
def Options.standard : Options := ⟨true, true, []⟩

/-- The statements of a function, without its closures. -/
def Code.declaration (o : Options) (c : Code) : Except DecompileError Declaration := do
  let d ← c.lower
  if o.structured then
    let body ← Stage.runAll o.stages (← Loops.recover d.body)
    return { d with body }
  else return d

/-- A declaration as the local function of the closure with an index. -/
def Declaration.toLocal (d : Declaration) (index : Nat) : Node :=
  .localFunction d.address (.closure d.address index) d.parameters d.vararg
    (.block d.address d.body)

mutual

/-- The declaration of a prototype; its closures are declared in front of its statements. -/
def Prototype.declaration (o : Options) : Prototype → Except DecompileError Declaration
  | ⟨code, none⟩ => code.declaration o
  | ⟨code, some ps⟩ => do
    let d ← code.declaration o
    let locals ← Prototype.locals o 0 ps
    return { d with body := locals ++ d.body }

/-- The local functions of prototypes, the first of which has the index `i`. -/
def Prototype.locals (o : Options) (i : Nat) : List Prototype → Except DecompileError (List Node)
  | [] => return []
  | p :: ps => do
    let d ← p.declaration o
    let rest ← Prototype.locals o (i + 1) ps
    return d.toLocal i :: rest

end

/-- The tree of a chunk file. -/
def ChunkFile.decompile (o : Options) (f : ChunkFile) : Except DecompileError Node := do
  match f.root with
  | none => throw .broken
  | some p =>
    let d ← p.declaration o
    let chunk := Node.chunk d.address [d.toNode]
    if o.inlined then (← chunk.countUses).inlined else return chunk

end HavokScript
