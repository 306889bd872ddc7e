import Hypermedia.Script.Library.Argument

/-! Functions on tables as sequences. -/
namespace Hypermedia.Script.Library

variable (c : Invocation)

def item (v : Value) (i : Int64) : Act Value :=
  Act.index v (.int i) none none

def setItem (v : Value) (i : Int64) (x : Value) : Act Unit :=
  Act.setIndex v (.int i) x none none

/-- Whether a value that is no table takes part in some operations as if it were one. -/
def actsAsTable (v : Value) (events : List String) : Act Bool := do
  match events with
  | [] => return true
  | event :: rest =>
    if (← Act.metamethod v event).isNil then return false else actsAsTable v rest

def lengthOf (v : Value) : Act Int64 := do
  match ← Act.length v none none with
  | .number n =>
    match n.toInt? with
    | some i => return i
    | none => c.fail "object length is not an integer"
  | .str s =>
    match (Number.read? s).bind Number.toInt? with
    | some i => return i
    | none => c.fail "object length is not an integer"
  | _ => c.fail "object length is not an integer"

/-- The sequence an argument is, and its length; it takes part in the given operations. -/
def sequence (n : Nat) (events : List String) : Act (Value × Int64) := do
  let v := c.value n
  match v with
  | .table _ => return (v, ← lengthOf c v)
  | .nil | .bool _ | .number _ | .function _ => c.typeFault n "table"
  | v =>
    if ← actsAsTable v events then return (v, ← lengthOf c v)
    else c.typeFault n "table"

def itemText (v : Value) (i : Int64) : Act Bytes := do
  match (← item v i).toText? with
  | some s => return s
  | none =>
    c.fail ("invalid value (at index " ++ String.ofList (Json.integer i.toInt) ++
      ") in table for 'concat'")

def joinFrom (v : Value) (separator : Bytes) : Nat → Int64 → Act (List Bytes)
  | 0, _ => return []
  | 1, i => return [← itemText c v i]
  | n + 2, i => do
    let s ← itemText c v i
    return s :: separator :: (← joinFrom v separator (n + 1) (i + 1))

def concat : Act (List Value) := do
  let (v, n) ← sequence c 1 ["__index", "__len"]
  let separator ← c.textOr 2 []
  let i ← c.intOr 3 1
  let last ← c.intOr 4 n
  let count := (last.toInt - i.toInt + 1).toNat
  return [.str (← joinFrom c v separator count i).flatten]

def moveUp (v : Value) : Nat → Int64 → Act Unit
  | 0, _ => return ()
  | n + 1, i => do
    setItem v i (← item v (i - 1))
    moveUp v n (i - 1)

def moveDown (v : Value) : Nat → Int64 → Act Unit
  | 0, _ => return ()
  | n + 1, i => do
    setItem v i (← item v (i + 1))
    moveDown v n (i + 1)

def within (i : Int64) (lo hi : Int) : Bool :=
  lo ≤ i.toInt && i.toInt ≤ hi

def insert : Act (List Value) := do
  let (v, n) ← sequence c 1 ["__index", "__newindex", "__len"]
  let free := n + 1
  match c.arguments with
  | [_, x] =>
    setItem v free x
    return []
  | [_, _, x] =>
    let i ← c.int 2
    if !within i 1 free.toInt then c.argumentFault 2 (Bytes.ofString "position out of bounds")
    moveUp v (free.toInt - i.toInt).toNat free
    setItem v i x
    return []
  | _ => c.fail "wrong number of arguments to 'insert'"

def remove : Act (List Value) := do
  let (v, n) ← sequence c 1 ["__index", "__newindex", "__len"]
  let i ← c.intOr 2 n
  if i != n && !within i 1 (n.toInt + 1) then
    c.argumentFault 2 (Bytes.ofString "position out of bounds")
  let removed ← item v i
  moveDown v (n.toInt - i.toInt).toNat i
  setItem v (if i < n then n else i) .nil
  return [removed]

def maxResults : Nat := 999000

def itemsFrom (v : Value) : Nat → Int64 → Act (List Value)
  | 0, _ => return []
  | n + 1, i => do
    let x ← item v i
    return x :: (← itemsFrom v n (i + 1))

def unpack : Act (List Value) := do
  let i ← c.intOr 2 1
  let last ← if (c.value 3).isNil then lengthOf c (c.value 1) else c.int 3
  let count := (last.toInt - i.toInt + 1).toNat
  if maxResults ≤ count then c.fail "too many results to unpack"
  itemsFrom (c.value 1) count i

/-- Whether an item comes before another, as a function or else the values themselves tell. -/
def comesBefore (a b : Value) : Act Bool := do
  match c.value 2 with
  | .function f => return (Act.first (← Act.callFunction f [a, b] .inner)).isTruthy
  | _ => Act.less a b false none

def setTwo (v : Value) (i j : Int64) (x y : Value) : Act Unit := do
  setItem v i x
  setItem v j y

def orderFault {α : Type} : Act α :=
  c.fail "invalid order function for sorting"

/-- The first position after `i` whose item does not come before the pivot, and that item. -/
def skipSmaller (v pivot : Value) (last : Int64) : Nat → Int64 → Act (Int64 × Value)
  | 0, _ => orderFault c
  | n + 1, i => do
    let i := i + 1
    let x ← item v i
    if ← comesBefore c x pivot then
      if i == last then orderFault c else skipSmaller v pivot last n i
    else return (i, x)

/-- The first position below `j` whose item the pivot does not come before, and that item. -/
def skipLarger (v pivot : Value) (i : Int64) : Nat → Int64 → Act (Int64 × Value)
  | 0, _ => orderFault c
  | n + 1, j => do
    let j := j - 1
    let x ← item v j
    if ← comesBefore c pivot x then
      if j < i then orderFault c else skipLarger v pivot i n j
    else return (j, x)

/-- Moves smaller items before larger ones, and the pivot between them, where its position is the
result. -/
def partition (v pivot : Value) (hi : Int64) : Nat → Int64 → Int64 → Act Int64
  | 0, _, _ => orderFault c
  | n + 1, i, j => do
    let (i, x) ← skipSmaller c v pivot (hi - 1) (n + 1) i
    let (j, y) ← skipLarger c v pivot i (n + 1) j
    if j < i then
      setTwo v (hi - 1) i x pivot
      return i
    else
      setTwo v i j y x
      partition v pivot hi n i j

/-- Sorts the items between two positions; the shorter part of what is left first. -/
def sortWithin (v : Value) : Nat → Int64 → Int64 → Act Unit
  | 0, _, _ => return ()
  | n + 1, lo, hi => do
    if hi ≤ lo then return ()
    let a ← item v lo
    let b ← item v hi
    if ← comesBefore c b a then setTwo v lo hi b a
    if hi - lo == 1 then return ()
    let mid := Int64.ofInt ((lo.toInt + hi.toInt) / 2)
    let m ← item v mid
    let a ← item v lo
    if ← comesBefore c m a then setTwo v mid lo a m
    else
      let b ← item v hi
      if ← comesBefore c b m then setTwo v mid hi b m
    if hi - lo == 2 then return ()
    let pivot ← item v mid
    let b ← item v (hi - 1)
    setTwo v mid (hi - 1) b pivot
    let p ← partition c v pivot hi (hi - lo + 2).toInt.toNat lo (hi - 1)
    if p - lo < hi - p then
      sortWithin v n lo (p - 1)
      sortWithin v n (p + 1) hi
    else
      sortWithin v n (p + 1) hi
      sortWithin v n lo (p - 1)

def sort : Act (List Value) := do
  let (v, n) ← sequence c 1 ["__index", "__newindex", "__len"]
  if 1 < n then
    if Nat.pow 2 31 - 1 ≤ n.toInt then c.argumentFault 1 (Bytes.ofString "array too big")
    match c.value 2 with
    | .nil | .function _ => pure ()
    | _ => c.typeFault 2 "function"
    sortWithin c v n.toInt.toNat 1 n
  return []

def sequenceFunction (f : SequenceFunction) : Act (List Value) := do
  match f with
  | .concat => concat c
  | .insert => insert c
  | .remove => remove c
  | .sort => sort c
  | .unpack => unpack c

end Hypermedia.Script.Library
