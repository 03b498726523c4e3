import HavokScript.Toml.Grammar

/-!
# The tables of a TOML file

The statements of a file build a tree of tables. A key may be set once. Tables in the middle of a
dotted key or header are made on the way and count as *implicit*: a header may open such a table
later, once. A dotted key outside inline tables may go through a key that holds an array; a table
then takes the place of the array.

`Toml.Table.ofBytes?` reads a file; it refuses malformed statements and statements that do not fit
together.
-/

namespace HavokScript.Toml

/-- What a key of a table holds. -/
inductive Content where
  /-- a value other than a table -/
  | value (literal : Literal)
  /-- a table -/
  | table (entries : List (Bytes × Content))
  /-- an array of tables, the latest first -/
  | tables (elements : List (List (Bytes × Content)))
  deriving Repr

/-- The keys of a table and what they hold, in the order they were set. -/
abbrev Table := List (Bytes × Content)

namespace Table

/-- Sets a key. -/
def put (t : Table) (key : Bytes) (c : Content) : Table :=
  if t.any (·.1 = key) then t.map fun e => if e.1 = key then (key, c) else e else t ++ [(key, c)]

/-- The table at a path; an array of tables stands for its latest element. -/
def enter? : List Bytes → Table → Option Table
  | [], t => some t
  | key :: keys, t =>
    match t.lookup key with
    | some (.table sub) => enter? keys sub
    | some (.tables (latest :: _)) => enter? keys latest
    | _ => none

/-- Changes the table at a path. -/
def update (f : Table → Table) : List Bytes → Table → Table
  | [], t => f t
  | key :: keys, t =>
    match t.lookup key with
    | some (.table sub) => t.put key (.table (update f keys sub))
    | some (.tables (latest :: older)) => t.put key (.tables (update f keys latest :: older))
    | _ => t

/-- Sets the last part of a dotted key; the parts in front of it lead through tables, which are made
if there are none. -/
def insert? (c : Content) : List Bytes → Table → Option Table
  | [], t => some t
  | [key], t => some (t.put key c)
  | key :: keys, t =>
    match t.lookup key with
    | none => do return t.put key (.table (← insert? c keys []))
    | some (.table sub) => do return t.put key (.table (← insert? c keys sub))
    | some _ => none

end Table

/-! ## Values -/

mutual

/-- What a key that is set to a value holds. -/
def Literal.content? : Literal → Option Content
  | .array items => do
    guard (Literal.areTables items)
    return .value (.array items)
  | .inline entries => do return .table (← Literal.table? [] entries)
  | v => some (.value v)

/-- Whether the inline tables among the items of an array can be built. -/
def Literal.areTables : List Literal → Bool
  | [] => true
  | item :: items => item.content?.isSome && Literal.areTables items

/-- The table `t` with the entries of an inline table. -/
def Literal.table? (t : Table) : List (List Bytes × Literal) → Option Table
  | [] => some t
  | (path, v) :: entries => do
    let t ← t.insert? (← v.content?) path
    Literal.table? t entries

end

/-- Whether a value is an array. -/
def Literal.isArray : Literal → Bool
  | .array _ => true
  | _ => false

/-! ## Statements -/

/-- The tables built so far. -/
structure Draft where
  /-- the outermost table -/
  root : Table
  /-- the paths of the tables that were only made on the way -/
  implicit : List (List Bytes)
  /-- the paths at which an array was set last -/
  arrays : List (List Bytes)

namespace Draft

/-- No tables yet. -/
def empty : Draft := ⟨[], [], []⟩

/-- Marks a path as implicit. -/
def markImplicit (d : Draft) (path : List Bytes) : Draft :=
  { d with implicit := path :: d.implicit }

/-- Marks a path as set. -/
def settle (d : Draft) (path : List Bytes) : Draft :=
  { d with implicit := d.implicit.filter (· ≠ path) }

/-- The path under which the kind of a value is noted; an empty key is noted with its table. -/
def notedPath (here : List Bytes) (key : Bytes) : List Bytes :=
  let path := if key = [] then here else here ++ [key]
  if path = [] then [[]] else path

/-- Notes whether an array was set at a path. -/
def note (d : Draft) (path : List Bytes) (isArray : Bool) : Draft :=
  { d with arrays := if isArray then path :: d.arrays else d.arrays.filter (· ≠ path) }

/-- Sets a key in the table at `here`. -/
def put (d : Draft) (here : List Bytes) (key : Bytes) (c : Content) : Draft :=
  { d with root := d.root.update (fun t => t.put key c) here }

/-- Sets a key in the table at `here`. A key that is there already has to be implicit: where an
array was set last it is replaced, and a table stays as it is. -/
def store (d : Draft) (here : List Bytes) (key : Bytes) (c : Content) : Option Draft := do
  let t ← d.root.enter? here
  let path := here ++ [key]
  match t.lookup key with
  | none => return d.put here key c
  | some _ => do
    guard (path ∈ d.implicit)
    let d := d.settle path
    return if path ∈ d.arrays then d.put here key c else d

/-- Adds an element to the array of tables at a key of the table at `here`. -/
def addElement (d : Draft) (here : List Bytes) (key : Bytes) : Option Draft := do
  let t ← d.root.enter? here
  match t.lookup key with
  | none => return d.put here key (.tables [[]])
  | some (.tables elements) => return d.put here key (.tables ([] :: elements))
  | some _ => none

/-- Makes the missing tables along `path` below the table at `here`; they are implicit. -/
def prepare (d : Draft) (here : List Bytes) : List Bytes → Option Draft
  | [] => some d
  | key :: keys => do
    let t ← d.root.enter? here
    let d := match t.lookup key with
      | none => (d.markImplicit (here ++ [key])).put here key (.table [])
      | some _ => d
    prepare d (here ++ [key]) keys

/-- Opens the table at a path, or one more element of the array of tables there. -/
def openAt (d : Draft) (path : List Bytes) (isElement : Bool) : Option Draft := do
  let parents := path.dropLast
  let key := path.getLastD []
  let d ← d.prepare [] parents
  if isElement then d.addElement parents key else d.store parents key (.table [])

/-- Opens the tables along the front of a dotted key, below the table at `here`. -/
def openFront (d : Draft) (here : List Bytes) : List Bytes → Option Draft
  | [] => some d
  | key :: keys => do
    let here := here ++ [key]
    openFront (← (d.markImplicit here).openAt here false) here keys

/-- Sets a key to a value whose inline tables have been entered. -/
def setValue (d : Draft) (here : List Bytes) (key : Bytes) (v : Literal) : Option Draft := do
  let d ← d.store here key (← v.content?)
  return d.note (notedPath here key) v.isArray

mutual

/-- Enters the inline tables of the value of a key. -/
def enterValue (d : Draft) (here : List Bytes) (key : Bytes) (inArray : Bool) :
    Literal → Option Draft
  | .array items => enterItems (d.note (notedPath here key) true) here key items
  | .inline entries => do
    let path := here ++ [key]
    let d ← (d.markImplicit path).openAt path inArray
    enterEntries d path entries
  | _ => some d

/-- Enters the inline tables of the items of an array. -/
def enterItems (d : Draft) (here : List Bytes) (key : Bytes) : List Literal → Option Draft
  | [] => some d
  | item :: items => do
    let d ← enterValue d here key true item
    enterItems d here key items

/-- Sets dotted keys below the table at `here`. -/
def enterEntries (d : Draft) (here : List Bytes) : List (List Bytes × Literal) → Option Draft
  | [] => some d
  | (path, v) :: entries => do
    let front := here ++ path.dropLast
    let key := path.getLastD []
    let d ← d.openFront here path.dropLast
    let d ← enterValue d front key false v
    let d ← d.setValue front key v
    enterEntries d here entries

end

/-- Adds statements; `here` is the path of the header they stand under. -/
def addAll (d : Draft) (here : List Bytes) : List Statement → Option Draft
  | [] => some d
  | .table path :: rest => do
    let d ← d.openAt path false
    addAll (d.note path false) path rest
  | .element path :: rest => do
    let d ← d.openAt path true
    addAll (d.note path false) path rest
  | .entry path v :: rest => do
    let d ← d.enterEntries here [(path, v)]
    addAll d here rest

end Draft

/-- The outermost table of a file. -/
def Table.ofBytes? (input : Bytes) : Option Table := do
  let statements ← statements? input
  let d ← Draft.empty.addAll [] statements
  return d.root

end HavokScript.Toml
