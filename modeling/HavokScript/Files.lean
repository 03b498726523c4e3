import HavokScript.Path

/-!
# Files

`MonadFiles` is what the command needs of a file system: the current directory, whether something
exists, reading and writing a whole file. `FileSystem` is a file system as a value, in which
programs run as state changes; a name is followed through existing directories only.

* `FileSystem.locate?` is where a path leads;
* `FileSystem.changes` lists the files that are new or different after a run.
-/

namespace HavokScript

/-- Access to files by their written paths. -/
class MonadFiles (m : Type → Type) where
  /-- the directory relative paths start from -/
  currentDirectory : m Bytes
  /-- whether there is a file or a directory -/
  present : Bytes → m Bool
  /-- the content of a file, if it can be read -/
  read? : Bytes → m (Option Bytes)
  /-- replaces the content of a file or makes a new one; tells whether that was possible -/
  write : Bytes → Bytes → m Bool

/-- What a name in a directory stands for. -/
inductive FileEntry where
  /-- a file and its content -/
  | file (content : Bytes)
  /-- a directory -/
  | directory
  deriving DecidableEq, Repr

/-- A file system. The root directory is always there. -/
structure FileSystem where
  /-- the names from the root to the current directory -/
  here : List Bytes
  /-- what there is, by the names from the root -/
  entries : List (List Bytes × FileEntry)
  deriving DecidableEq, Repr

namespace FileSystem

/-- What is at a place. -/
def at? (fs : FileSystem) (place : List Bytes) : Option FileEntry :=
  if place = [] then some .directory else fs.entries.lookup place

/-- Puts something at a place. -/
def put (fs : FileSystem) (place : List Bytes) (entry : FileEntry) : FileSystem :=
  { fs with entries := (place, entry) :: fs.entries.filter (·.1 ≠ place) }

/-! ## Paths -/

/-- Where names lead from a place, through directories. -/
def walk? (fs : FileSystem) : List Bytes → List Bytes → Option (List Bytes)
  | place, [] => some place
  | place, name :: names =>
    if fs.at? place ≠ some .directory then none
    else if name = [] ∨ name = Path.dot then walk? fs place names
    else if name = Path.dotDot then walk? fs place.dropLast names
    else walk? fs (place ++ [name]) names

/-- The longest name of a directory entry. -/
def longestName : Nat := 255

/-- The longest path. -/
def longestPath : Nat := 4095

/-- Where a path leads; there need not be anything at the end. -/
def locate? (fs : FileSystem) (path : Bytes) : Option (List Bytes) :=
  let names := Bytes.split Path.slash path
  if path = [] ∨ path.contains 0 ∨ longestPath < path.length ∨
      names.any (longestName < ·.length) then none
  else if Path.isAbsolute path then fs.walk? [] names
  else fs.walk? fs.here names

/-- Whether a path leads to a file or a directory. -/
def present (fs : FileSystem) (path : Bytes) : Bool :=
  ((fs.locate? path).bind fs.at?).isSome

/-- The content of the file at a path. -/
def read? (fs : FileSystem) (path : Bytes) : Option Bytes :=
  match (fs.locate? path).bind fs.at? with
  | some (.file content) => some content
  | _ => none

/-- Writes a file; its directory has to exist. -/
def write? (fs : FileSystem) (path content : Bytes) : Option FileSystem :=
  match fs.locate? path with
  | none => none
  | some place =>
    if fs.at? place = some .directory then none else some (fs.put place (.file content))

instance : MonadFiles (StateM FileSystem) where
  currentDirectory := do return (⟨true, (← get).here⟩ : Path).text
  present path := do return (← get).present path
  read? path := do return (← get).read? path
  write path content := fun fs =>
    match fs.write? path content with
    | some fs => (true, fs)
    | none => (false, fs)

/-! ## Making and comparing -/

/-- Makes a directory and all directories above it. -/
def addDirectory (fs : FileSystem) (place : List Bytes) : FileSystem :=
  (Path.shrink place).foldl (fun fs p => if p = [] then fs else fs.put p .directory) fs

/-- A file system with only the current directory and those above it. -/
def empty (here : List Bytes) : FileSystem := (⟨here, []⟩ : FileSystem).addDirectory here

/-- The place of a path below the current directory. -/
def placeOf (fs : FileSystem) (path : Bytes) : List Bytes :=
  (Path.ofBytes ((⟨true, fs.here⟩ : Path).text ++ Path.slash :: path)).names

/-- Adds a file and all directories above it. -/
def addFile (fs : FileSystem) (place : List Bytes) (content : Bytes) : FileSystem :=
  (fs.addDirectory place.dropLast).put place (.file content)

/-- The names from the current directory to a place below it. -/
def below? (fs : FileSystem) (place : List Bytes) : Option (List Bytes) :=
  if fs.here.isPrefixOf place then some (place.drop fs.here.length) else none

/-- The files below the current directory that are new or have another content than before, sorted
by their paths. -/
def changes (before after : FileSystem) : List (Bytes × Bytes) :=
  let changed := after.entries.filterMap fun (place, entry) =>
    match entry with
    | .directory => none
    | .file content =>
      if before.at? place = some entry then none
      else (after.below? place).map fun names => (Bytes.join [Path.slash] names, content)
  changed.mergeSort fun a b => decide (a.1 ≤ b.1)

end FileSystem

end HavokScript
