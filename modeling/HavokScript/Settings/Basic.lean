import HavokScript.Path
import HavokScript.Toml.Document

/-!
# Settings

What is written where, which passes run, and how much is logged. Settings are read from the tables
of a file named `luidec.toml`: unknown keys are ignored, keys that are missing keep their standard
value, and capitals and small letters of a key are not told apart.
-/

namespace HavokScript

/-- The settings of a run. An output whose path is empty is not written. -/
structure Settings where
  /-- path of the listing -/
  listingPath : Bytes
  /-- path of the source -/
  sourcePath : Bytes
  /-- path of the export -/
  exportPath : Bytes
  /-- path of the outline of the tree -/
  treePath : Bytes
  /-- loops are recovered -/
  structured : Bool
  /-- registers are inlined -/
  inlined : Bool
  /-- the source shows use counts -/
  showUseCounts : Bool
  /-- how much is logged -/
  verbosity : Int
  /-- path of the log -/
  logPath : Bytes
  /-- the directory of the settings file, which relative paths start from; empty without a file -/
  directory : Bytes
  deriving DecidableEq, Repr

namespace Settings

/-- The settings without a settings file. -/
def standard : Settings where
  listingPath := utf8 "output.dis.lua"
  sourcePath := utf8 "output.dec.lua"
  exportPath := []
  treePath := []
  structured := true
  inlined := true
  showUseCounts := true
  verbosity := 0
  logPath := []
  directory := []

/-- A path of the settings found in a directory. Empty and absolute paths stay as they are, and so
do all paths if there is no directory. -/
def resolveIn (directory path : Bytes) : Bytes :=
  if path = [] ∨ Path.isAbsolute path ∨ directory = [] then path else Path.join directory path

/-- A path of the settings as it is opened. -/
def resolve (s : Settings) (path : Bytes) : Bytes := resolveIn s.directory path

/-! ## Values of the right type -/

/-- The content as a text. -/
def text? : Toml.Content → Option Bytes
  | .value (.string text) => some text
  | _ => none

/-- The content as an integer. -/
def integer? : Toml.Content → Option Int
  | .value (.integer i) => some i
  | _ => none

/-- The content as a truth value. -/
def boolean? : Toml.Content → Option Bool
  | .value (.boolean b) => some b
  | _ => none

/-! ## Keys -/

/-- A key in small letters. The long s and the Kelvin sign are other forms of `s` and `k`. -/
def foldCase : Bytes → Bytes
  | 0xC5 :: 0xBF :: rest => 115 :: foldCase rest
  | 0xE2 :: 0x84 :: 0xAA :: rest => 107 :: foldCase rest
  | b :: rest => (if 65 ≤ b ∧ b ≤ 90 then b + 32 else b) :: foldCase rest
  | [] => []

/-- Sets a key of the table `output`. -/
def setOutput (s : Settings) (key : Bytes) (c : Toml.Content) : Option Settings :=
  if key = utf8 "disassembly" then do return { s with listingPath := ← text? c }
  else if key = utf8 "decompiled" then do return { s with sourcePath := ← text? c }
  else if key = utf8 "export" then do return { s with exportPath := ← text? c }
  else if key = utf8 "tree" then do return { s with treePath := ← text? c }
  else some s

/-- Sets a key of the table `decompile`. -/
def setDecompile (s : Settings) (key : Bytes) (c : Toml.Content) : Option Settings :=
  if key = utf8 "structure" then do return { s with structured := ← boolean? c }
  else if key = utf8 "inline" then do return { s with inlined := ← boolean? c }
  else some s

/-- Sets a key of the table `print`. -/
def setPrint (s : Settings) (key : Bytes) (c : Toml.Content) : Option Settings :=
  if key = utf8 "show-use-counts" then do return { s with showUseCounts := ← boolean? c }
  else some s

/-- Sets a key of the table `log`. -/
def setLog (s : Settings) (key : Bytes) (c : Toml.Content) : Option Settings :=
  if key = utf8 "verbosity" then do return { s with verbosity := ← integer? c }
  else if key = utf8 "file" then do return { s with logPath := ← text? c }
  else some s

/-- Sets the keys of a table one after the other. -/
def setAll (set : Settings → Bytes → Toml.Content → Option Settings) (s : Settings) :
    Toml.Table → Option Settings
  | [] => some s
  | (key, c) :: rest => do setAll set (← set s (foldCase key) c) rest

/-- Sets the keys of a table that has to be one. -/
def setTable (set : Settings → Bytes → Toml.Content → Option Settings) (s : Settings) :
    Toml.Content → Option Settings
  | .table entries => setAll set s entries
  | _ => none

/-- Sets a key of the outermost table. -/
def setSection (s : Settings) (key : Bytes) (c : Toml.Content) : Option Settings :=
  if key = utf8 "output" then setTable setOutput s c
  else if key = utf8 "decompile" then setTable setDecompile s c
  else if key = utf8 "print" then setTable setPrint s c
  else if key = utf8 "log" then setTable setLog s c
  else some s

/-- The settings in a file; a malformed file and a value of another type are refused. -/
def ofBytes? (input : Bytes) : Option Settings := do
  setAll setSection standard (← Toml.Table.ofBytes? input)

end Settings

end HavokScript
