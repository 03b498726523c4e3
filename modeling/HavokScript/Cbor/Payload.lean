import HavokScript.Cbor.Item
import HavokScript.Payload

/-!
# Payloads as CBOR items

Every payload has an item. An item is read as the payload that it stands for: integers of any size
and moments are told by their tags, and the tag that only marks CBOR as such is dropped.
-/

namespace HavokScript

open Cbor (Item)

/-! ## Writing -/

/-- The item of an integer of any size: an integer of 64 bits if it is one, else tagged bytes. -/
def Cbor.Item.ofBig (i : Int) : Item :=
  let digits (n : Nat) : Bytes := (Numeral.digits 256 n).map Nat.toUInt8
  match i with
  | .ofNat n =>
    if n < 0x10000000000000000 then .unsigned n.toUInt64 else .tagged bigTag (.bytes [digits n])
  | .negSucc n =>
    if n < 0x10000000000000000 then .negative n.toUInt64
    else .tagged bigNegativeTag (.bytes [digits n])

/-- The item of a moment: whole seconds since the start of 1970; the start of year one is null. -/
def Instant.toItem (t : Instant) : Item :=
  if t.seconds = -epoch ∧ t.nanos = 0 then .null else .ofInt t.seconds

mutual

/-- The item of a payload. -/
def Payload.toItem : Payload → Item
  | .nil => .null
  | .bool b => .bool b
  | .unsigned n => .unsigned n
  | .signed i => .ofInt i.toInt
  | .float x => .float x
  | .string s => .text [s]
  | .bytes bs => .bytes [bs]
  | .simple code => .simple code
  | .big i => .ofBig i
  | .instant t => t.toItem
  | .list ps => .array (Payload.toItems ps)
  | .map es => .sortedMap (Payload.toEntries es)
  | .tagged tag p => .tagged tag p.toItem

/-- The items of payloads. -/
def Payload.toItems : List Payload → List Item
  | [] => []
  | p :: ps => p.toItem :: Payload.toItems ps

/-- The entries of a map of payloads, as items. -/
def Payload.toEntries : List (Payload × Payload) → List (Item × Item)
  | [] => []
  | (k, v) :: es => (k.toItem, v.toItem) :: Payload.toEntries es

end

/-! ## Reading -/

/-- The tag that marks CBOR as such and means nothing else. -/
def selfDescribed : UInt64 := 55799

/-- The moment that an item behind its tag stands for: the text of a date and time, or a number of
seconds since the start of 1970. What is no finite number stands for the start of year one. -/
def Instant.ofItem? : Item → Option Instant
  | .text chunks => (Item.textOf? chunks).bind ofText?
  | .unsigned n => some (ofUnix (wrap64 n.toNat) 0)
  | .negative n => if n.toNat < 0x8000000000000000 then some (ofUnix (-1 - n.toNat) 0) else none
  | .float x =>
    match x.value with
    | .finite .. => some (ofUnix x.truncate x.nanoseconds)
    | _ => some yearOne
  | _ => none

mutual

/-- The payload that an item stands for, if there is one; `bare` tells whether no tag stands in
front of it that has to be kept. -/
def Payload.ofItem? (bare : Bool) : Item → Option Payload
  | .unsigned n => some (.unsigned n)
  | .negative n =>
    if n.toNat < 0x8000000000000000 then some (.signed (.ofInt (-1 - n.toNat)))
    else some (.big (-1 - n.toNat))
  | .bytes chunks => some (.bytes chunks.flatten)
  | .text chunks => (Item.textOf? chunks).map .string
  | .array items => (Payload.ofItems? items).map .list
  | .map entries => (Payload.ofEntries? [] entries).map .map
  | .tagged tag i =>
    if bare ∧ tag = selfDescribed then Payload.ofItem? true i
    else if !i.admits tag then none
    else if tag = Item.dateTag ∨ tag = Item.secondsTag then (Instant.ofItem? i).map .instant
    else if tag = Item.bigTag ∨ tag = Item.bigNegativeTag then (i.bigOf? tag).map .big
    else (Payload.ofItem? false i).map (.tagged tag)
  | .simple code =>
    if code = 20 then some (.bool false)
    else if code = 21 then some (.bool true)
    else if code = 22 ∨ code = 23 then some .nil
    else some (.simple code)
  | .float x => some (.float x)

/-- The payloads that items stand for. -/
def Payload.ofItems? : List Item → Option (List Payload)
  | [] => some []
  | i :: is => do
    let p ← Payload.ofItem? true i
    let ps ← Payload.ofItems? is
    return p :: ps

/-- The entries `acc` of a map with further ones, which are given as items. -/
def Payload.ofEntries? (acc : List (Payload × Payload)) :
    List (Item × Item) → Option (List (Payload × Payload))
  | [] => some acc
  | (k, v) :: es => do
    let key ← Payload.ofItem? true k
    guard key.isKey
    let value ← Payload.ofItem? true v
    Payload.ofEntries? (Payload.insertEntry key value acc) es

end

end HavokScript
