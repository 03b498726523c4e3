import HavokScript.Command.Run

/-!
# The program

The command on the files of the system. Errors go to the standard error stream and make the exit
code one.
-/

namespace HavokScript.Program

/-- A byte string as a string; bytes that are no text are replaced. -/
def toText (bytes : Bytes) : String :=
  (String.fromUTF8? ⟨bytes.toArray⟩).getD
    (String.ofList (bytes.map fun b => Char.ofNat b.toNat))

/-- The result of an action, or nothing if it fails. -/
def attempt {α : Type} (action : IO α) : IO (Option α) := do
  try return some (← action) catch _ => return none

instance : MonadFiles IO where
  currentDirectory := do return utf8 (← IO.currentDir).toString
  present path := do
    let found ← attempt do (← IO.FS.realPath (toText path)).pathExists
    return found.getD false
  read? path := do
    let content ← attempt (IO.FS.readBinFile (toText path))
    return content.map fun c => c.data.toList
  write path content := do
    let written ← attempt (IO.FS.writeBinFile (toText path) ⟨content.toArray⟩)
    return written.isSome

end HavokScript.Program

open HavokScript in
/-- Runs the command with the arguments of the program. -/
def main (arguments : List String) : IO UInt32 := do
  match ← (Command.run (arguments.map utf8) : ExceptT CommandError IO Bytes) with
  | .ok output =>
    IO.print (Program.toText output)
    return 0
  | .error e =>
    IO.eprintln ("luidec: " ++ Program.toText e.message)
    return 1
