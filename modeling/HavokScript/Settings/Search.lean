import HavokScript.Files
import HavokScript.Settings.Basic

/-!
# Finding the settings file

The settings of a run are those of the nearest directory with a settings file, on the way from a
start directory up to the root. A nearer file that cannot be used is an error: files farther up are
not looked at.
-/

namespace HavokScript

/-- Why settings cannot be loaded. -/
inductive SettingsError where
  /-- the file cannot be read -/
  | unreadable (path : Bytes)
  /-- the file is malformed or has a value of another type -/
  | malformed (path : Bytes)
  deriving DecidableEq, Repr

/-- The text of an error. -/
def SettingsError.message : SettingsError → Bytes
  | unreadable path => utf8 "cannot read " ++ path
  | malformed path => utf8 "parse error in " ++ path

namespace Settings

/-- The name of the settings file. -/
def fileName : Bytes := utf8 "luidec.toml"

variable {m : Type → Type} [Monad m] [MonadFiles m]

/-- The settings file of a directory. -/
def load (directory : Bytes) : ExceptT SettingsError m Settings := do
  let path := Path.join directory fileName
  match ← (MonadFiles.read? path : m _) with
  | none => throw (.unreadable path)
  | some content =>
    match ofBytes? content with
    | none => throw (.malformed path)
    | some s =>
      let here ← (MonadFiles.currentDirectory : m _)
      return { s with directory := (Path.absolute here directory).text }

/-- The settings of the first directory that has a settings file. -/
def loadFirst : List Path → ExceptT SettingsError m (Option Settings)
  | [] => return none
  | p :: ps => do
    if ← (MonadFiles.present (Path.join p.text fileName) : m _) then return some (← load p.text)
    else loadFirst ps

/-- The settings of the nearest settings file, from a directory upwards. -/
def find (start : Bytes) : ExceptT SettingsError m (Option Settings) := do
  let here ← (MonadFiles.currentDirectory : m _)
  loadFirst (Path.absolute here start).ancestors

end Settings

end HavokScript
