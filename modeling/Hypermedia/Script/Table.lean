import Hypermedia.Script.Value

/-! Tables of scripts: a run of items from 1 on, and other entries in the order of their
insertion. -/
namespace Hypermedia.Script

/-- `items` holds the keys from 1 on, `entries` the others with room for `room` of them. -/
structure Table where
  items : Array Value := #[]
  entries : Array (Value × Value) := #[]
  room : Nat := 0
  metatable : Option TableId := none
  deriving Inhabited

namespace Table

/-- A key in its simplest form: a double that is an integer counts as that integer. -/
def normalize : Value → Value
  | .number (.float x) =>
    match Number.floatToInt? x with
    | some i => .int i
    | none => .float x
  | key => key

def itemIndex? (t : Table) : Value → Option Nat
  | .number (.int i) =>
    if 1 ≤ i && i.toInt ≤ t.items.size then some (i.toInt.toNat - 1) else none
  | _ => none

def entryIndex? (t : Table) (key : Value) : Option Nat :=
  t.entries.findIdx? fun e => e.1.same key

def get (t : Table) (key : Value) : Value :=
  let key := normalize key
  match t.itemIndex? key with
  | some i => t.items.getD i .nil
  | none =>
    match t.entryIndex? key with
    | some i => (t.entries.getD i (.nil, .nil)).2
    | none => .nil

def field (t : Table) (name : String) : Value :=
  t.get (.ofString name)

def item (t : Table) (i : Nat) : Value :=
  t.get (.ofNat i)

def positions (t : Table) : List Nat :=
  let items := (List.range t.items.size).filterMap fun i =>
    if (t.items.getD i .nil).isNil then none else some (i + 1)
  let entries := t.entries.toList.filterMap fun e => match e with
    | (.number (.int i), v) => if v.isNil || i < 1 then none else some i.toInt.toNat
    | _ => none
  items ++ entries

/-- The largest power of two, from `size` on, of which more than half the positions are used. -/
def bestSize (positions : List Nat) : Nat → Nat → Nat → Nat
  | 0, _, best => best
  | n + 1, size, best =>
    if positions.length ≤ size / 2 then best
    else
      let used := (positions.filter (· ≤ size)).length
      bestSize positions n (2 * size) (if size / 2 < used then size else best)

def powerAbove (n : Nat) : Nat → Nat → Nat
  | 0, p => p
  | k + 1, p => if n ≤ p then p else powerAbove n k (2 * p)

def roomFor (n : Nat) : Nat :=
  if n = 0 then 0 else powerAbove n 64 1

/-- The table without entries that have no value, with as many items as pay, and room for `key`. -/
def rehash (t : Table) (key : Value) : Table :=
  let positions := t.positions ++ match key with
    | .number (.int i) => if i < 1 then [] else [i.toInt.toNat]
    | _ => []
  let size := bestSize positions 64 1 0
  let live := t.entries.filter fun e => !e.2.isNil
  let spilled := ((List.range t.items.size).filter (size ≤ ·)).filterMap fun i =>
    let v := t.items.getD i .nil
    if v.isNil then none else some (Value.ofNat (i + 1), v)
  let kept := live.filter fun e => match e.1 with
    | .number (.int i) => i < 1 || size < i.toInt.toNat
    | _ => true
  let items := (t.items.extract 0 size) ++ Array.replicate (size - t.items.size) .nil
  let items := live.foldl (fun items e => match e.1 with
    | .number (.int i) =>
      if 1 ≤ i && i.toInt.toNat ≤ size then items.setIfInBounds (i.toInt.toNat - 1) e.2 else items
    | _ => items) items
  let entries := spilled.toArray ++ kept
  let isItem := match key with
    | .number (.int i) => 1 ≤ i && i.toInt.toNat ≤ size
    | _ => false
  { t with items, entries, room := roomFor (if isItem then entries.size else entries.size + 1) }

/-- Puts a value under a key that is neither `nil` nor NaN; a new key with no value is not kept. -/
def set (t : Table) (key value : Value) : Table :=
  let key := normalize key
  match t.itemIndex? key with
  | some i => { t with items := t.items.setIfInBounds i value }
  | none =>
    match t.entryIndex? key with
    | some i => { t with entries := t.entries.setIfInBounds i (key, value) }
    | none =>
      if value.isNil then t
      else if t.entries.size < t.room then { t with entries := t.entries.push (key, value) }
      else
        let t := t.rehash key
        match t.itemIndex? key with
        | some i => { t with items := t.items.setIfInBounds i value }
        | none => { t with entries := t.entries.push (key, value) }

def setField (t : Table) (name : String) (value : Value) : Table :=
  t.set (.ofString name) value

/-- Halves the range between a used and an unused item until they are neighbours. -/
def borderBetween (t : Table) : Nat → Nat → Nat → Nat
  | 0, i, _ => i
  | n + 1, i, j =>
    if j - i ≤ 1 then i
    else
      let m := (i + j) / 2
      if (t.item m).isNil then borderBetween t n i m else borderBetween t n m j

/-- Doubles a used position until an unused one is found. -/
def borderAbove (t : Table) : Nat → Nat → Nat → Nat
  | 0, i, _ => i
  | n + 1, i, j =>
    if (t.item j).isNil then borderBetween t 64 i j else borderAbove t n j (2 * j)

/-- A position with a value, or zero, whose successor has none. -/
def length (t : Table) : Nat :=
  let size := t.items.size
  if 0 < size && (t.items.getD (size - 1) .nil).isNil then
    if 2 ≤ size && !(t.items.getD (size - 2) .nil).isNil then size - 1
    else borderBetween t 64 0 size
  else if (t.item (size + 1)).isNil then size
  else borderAbove t 64 (size + 1) (2 * (size + 1))

/-- The first key with a value, and that value, from a place on; entries come after the items. -/
def firstFrom (t : Table) : Nat → Nat → Option (Value × Value)
  | 0, _ => none
  | n + 1, i =>
    if i < t.items.size then
      let v := t.items.getD i .nil
      if v.isNil then firstFrom t n (i + 1) else some (.ofNat (i + 1), v)
    else
      let e := t.entries.getD (i - t.items.size) (.nil, .nil)
      if e.2.isNil then firstFrom t n (i + 1) else some e

/-- The place after a key; `nil` comes before all. -/
def placeAfter? (t : Table) (key : Value) : Option Nat :=
  match normalize key with
  | .nil => some 0
  | key =>
    match t.itemIndex? key with
    | some i => some (i + 1)
    | none => (t.entryIndex? key).map (t.items.size + · + 1)

/-- The key after a key with its value, `none` at the end; a key that is not there has none after
it. -/
def next? (t : Table) (key : Value) : Option (Option (Value × Value)) :=
  (t.placeAfter? key).map fun i => t.firstFrom (t.items.size + t.entries.size - i) i

def sequenceFrom (t : Table) : Nat → Nat → List Value
  | 0, _ => []
  | n + 1, i =>
    let v := t.item i
    if v.isNil then [] else v :: sequenceFrom t n (i + 1)

/-- The values from 1 on up to the first that is missing. -/
def sequence (t : Table) : List Value :=
  t.sequenceFrom (t.items.size + t.entries.size + 1) 1

def pairs (t : Table) : List (Value × Value) :=
  let items := (List.range t.items.size).map fun i => (Value.ofNat (i + 1), t.items.getD i .nil)
  (items ++ t.entries.toList).filter fun e => !e.2.isNil

def ofItems (items : List Value) : Table :=
  { items := items.toArray }

def sized (items entries : Nat) : Table :=
  { items := Array.replicate items .nil, room := roomFor entries }

def setItems (t : Table) (items : List Value) : Table :=
  let old := t.items
  let t := { t with items := items.toArray ++ old.extract items.length old.size }
  let moved := fun (e : Value × Value) => match e.1 with
    | .number (.int i) => 1 ≤ i && i.toInt.toNat ≤ items.length
    | _ => false
  { t with entries := t.entries.filter fun e => !moved e }

end Table

end Hypermedia.Script
