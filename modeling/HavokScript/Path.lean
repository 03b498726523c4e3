import HavokScript.Bytes

/-!
# Paths

A path is written as names between slashes, with a slash in front when it starts at the root. The
clean form of a path has no empty name and no `.`, and `..` only at the front of a path that does
not start at the root.

* `Path.ofBytes` cleans a path and `Path.text` writes a clean one;
* `Path.join`, `Path.directory` and `Path.absolute` combine and take apart written paths;
* `Path.ancestors` are the directories from a path up to the root.
-/

namespace HavokScript

/-- A clean path. -/
structure Path where
  /-- the path starts at the root -/
  rooted : Bool
  /-- the names, outermost first -/
  names : List Bytes
  deriving DecidableEq, Repr

namespace Path

/-- The slash. -/
def slash : UInt8 := 47

/-- The name of the directory itself. -/
def dot : Bytes := [46]

/-- The name of the directory above. -/
def dotDot : Bytes := [46, 46]

/-- One more name on a stack of names, innermost first. -/
def push (rooted : Bool) (stack : List Bytes) (name : Bytes) : List Bytes :=
  if name = [] ∨ name = dot then stack
  else if name = dotDot then
    match stack with
    | [] => if rooted then [] else [dotDot]
    | top :: below => if top = dotDot then dotDot :: stack else below
  else name :: stack

/-- Whether a written path starts at the root. -/
def isAbsolute (path : Bytes) : Bool := path.head? = some slash

/-- The clean form of a written path. -/
def ofBytes (path : Bytes) : Path :=
  let rooted := isAbsolute path
  ⟨rooted, ((Bytes.split slash path).foldl (push rooted) []).reverse⟩

/-- A clean path as it is written; no names are `/` or `.`. -/
def text (p : Path) : Bytes :=
  let names := Bytes.join [slash] p.names
  if p.rooted then slash :: names else if p.names = [] then dot else names

/-- The clean form of a path below a directory; an empty part is left out. -/
def join (directory path : Bytes) : Bytes :=
  if directory = [] then
    if path = [] then [] else (ofBytes path).text
  else if path = [] then (ofBytes directory).text
  else (ofBytes (directory ++ slash :: path)).text

/-- The directory of a written path: what stands in front of its last slash. -/
def directory (path : Bytes) : Bytes :=
  (ofBytes (path.reverse.dropWhile (· ≠ slash)).reverse).text

/-- The clean path from the root of a path written in the directory `here`. -/
def absolute (here path : Bytes) : Path :=
  if isAbsolute path then ofBytes path else ofBytes (join here path)

/-- The directory above; the root is above itself. -/
def parent (p : Path) : Path := { p with names := p.names.dropLast }

/-- The starting parts of a list, the longest first. -/
def shrink {α : Type} : List α → List (List α)
  | [] => [[]]
  | a :: as => (shrink as).map (a :: ·) ++ [[]]

/-- The path and all directories above it, the nearest first. -/
def ancestors (p : Path) : List Path := (shrink p.names).map fun names => { p with names }

end Path

end HavokScript
