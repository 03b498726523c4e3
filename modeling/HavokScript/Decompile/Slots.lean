import HavokScript.Decompile.Error
import HavokScript.Tree.Basic

/-!
# Register slots

What the passes over a function know about each register at a point of the code.
-/

namespace HavokScript

/-- Something for each register that was written. -/
abbrev Slots (α : Type) := Int → Option α

/-- Nothing was written. -/
def Slots.empty {α : Type} : Slots α := fun _ => none

/-- A register was written. -/
def Slots.set {α : Type} (s : Slots α) (index : Int) (x : α) : Slots α := fun i =>
  if i = index then some x else s i

/-- The failure to read a register that was not written. -/
def unbound (r : Register) : DecompileError := .failed r.address none (.unboundRegister r.index)

end HavokScript
