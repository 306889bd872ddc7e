import Hypermedia.Script.Library.Argument

/-! Functions of general use. -/
namespace Hypermedia.Script

def BaseFunction.id (f : BaseFunction) : FunctionId :=
  ⟨named.findIdx fun e => e.2 = f⟩

def nextItemId : FunctionId := ⟨BaseFunction.named.length⟩

def letterDigit? (b : UInt8) : Option Nat :=
  if Bytes.isDigit b then some (b.toNat - 48)
  else if Bytes.isLetter b then some ((Bytes.upper b).toNat - 55)
  else none

/-- Reads an integer in a base; it wraps around. -/
def readInBase? (base : Nat) (s : Bytes) : Option Int64 :=
  let (negative, ds) := Number.takeSign (Number.trimSpaces s)
  if ds.isEmpty then none
  else
    let digits := ds.mapM fun b => (letterDigit? b).filter (· < base)
    digits.map fun digits =>
      let n := Int64.ofNat (digits.foldl (fun n d => base * n + d) 0)
      if negative then -n else n

namespace Library

variable (c : Invocation)

/-- Ends with an error; a string gets the position of a caller in front. -/
def raiseFrom {α : Type} (level : Int64) (error : Value) : Act α := do
  match error with
  | .str s =>
    if 0 < level then
      Act.raiseAt (← Act.caller level.toInt.toNat) s
    else Act.raise error
  | e => Act.raise e

def assert : Act (List Value) := do
  if (c.value 1).isTruthy then return c.arguments
  let _ ← c.any 1
  raiseFrom 1 (if c.has 2 then c.value 2 else .ofString "assertion failed!")

/-- The metatable of a value, or what its metatable shows in its place. -/
def metatableOf : Act (List Value) := do
  match ← c.any 1 with
  | .handle _ _ => return [.bool false]
  | v =>
    match ← Act.look (·.metatable? v) with
    | none => return [.nil]
    | some m =>
      let shown ← Act.look fun w => (w.table m).field "__metatable"
      return [if shown.isNil then .table m else shown]

/-- Gives a table a metatable, unless it has a protected one. -/
def setMetatable : Act (List Value) := do
  let t ← c.table 1
  let set (m : Option TableId) : Act (List Value) := do
    if !(← Act.metamethod (.table t) "__metatable").isNil then
      c.fail "cannot change a protected metatable"
    Act.change (·.modifyTable t fun table => { table with metatable := m })
    return [.table t]
  match c.value 2 with
  | .table m => set (some m)
  | .nil => if c.has 2 then set none else c.typeFault 2 "nil or table"
  | _ => c.typeFault 2 "nil or table"

def next : Act (List Value) := do
  let t ← c.table 1
  match ← Act.look fun w => (w.table t).next? (c.value 2) with
  | some (some (key, value)) => return [key, value]
  | some none => return [.nil]
  | none => Act.raiseAt none (Bytes.ofString "invalid key to 'next'")

def nextItem : Act (List Value) := do
  let i ← c.int 2
  let i := i + 1
  let v ← Act.index (c.value 1) (.int i) none none
  return if v.isNil then [.nil] else [.int i, v]

def pairs : Act (List Value) := do
  let v ← c.any 1
  let m ← Act.metamethod v "__pairs"
  if m.isNil then return [.function BaseFunction.next.id, v, .nil]
  else
    let vs ← Act.call m [v] .inner
    return [vs.getD 0 .nil, vs.getD 1 .nil, vs.getD 2 .nil]

def guardedCall (f : Value) (arguments : List Value) : Act (Except Value Flow) :=
  Act.guarded do return .giveBack (← Act.call f arguments .inner)

def protectedCall : Act (List Value) := do
  let f ← c.any 1
  match ← guardedCall f c.arguments.tail with
  | .ok flow => return .bool true :: flow.values
  | .error e => return [.bool false, e]

/-- Hands an error to a function, and an error of that function to it again. -/
def handleError (handler : Value) : Nat → Value → Act Value
  | 0, _ => return .ofString "C stack overflow"
  | n + 1, e => do
    match ← guardedCall handler [e] with
    | .ok flow => return Act.first flow.values
    | .error e => handleError handler n e

/-- Calls a function; an error goes through another function and becomes a result. -/
def handledCall : Act (List Value) := do
  match c.value 2 with
  | .function _ =>
    match ← guardedCall (c.value 1) (c.arguments.drop 2) with
    | .ok flow => return .bool true :: flow.values
    | .error e => return [.bool false, ← handleError (c.value 2) 10 e]
  | _ => c.typeFault 2 "function"

def select : Act (List Value) := do
  let count := c.arguments.length - 1
  match c.value 1 with
  | .str (35 :: _) => return [.ofNat count]
  | _ =>
    let i ← c.int 1
    if 0 < i then return c.arguments.tail.drop (i.toInt.toNat - 1)
    else if i < 0 && i.toInt.natAbs ≤ count then
      return c.arguments.tail.drop (count - i.toInt.natAbs)
    else c.argumentFault 1 (Bytes.ofString "index out of range")

def toNumber : Act (List Value) := do
  if (c.value 2).isNil then
    match (c.value 1).toNumber? with
    | some n => return [.number n]
    | none =>
      let _ ← c.any 1
      return [.nil]
  else
    let base ← c.int 2
    match c.value 1 with
    | .str s =>
      if 2 ≤ base && base ≤ 36 then
        match readInBase? base.toInt.toNat s with
        | some n => return [.int n]
        | none => return [.nil]
      else c.argumentFault 2 (Bytes.ofString "base out of range")
    | _ => c.typeFault 1 "string"

/-- The length of a value that nobody is asked about. -/
def rawLength : Act (List Value) := do
  match c.value 1 with
  | .table t => return [.ofNat (← Act.look fun w => (w.table t).length)]
  | .str s => return [.ofNat s.length]
  | _ => c.typeFault 1 "table or string"

def base (f : BaseFunction) : Act (List Value) := do
  match f with
  | .assert => assert c
  | .error => raiseFrom (← c.intOr 2 1) (c.value 1)
  | .getmetatable => metatableOf c
  | .ipairs => return [.function nextItemId, ← c.any 1, .int 0]
  | .next => next c
  | .pairs => pairs c
  | .pcall => protectedCall c
  | .rawequal => return [.bool ((← c.any 1).same (← c.any 2))]
  | .rawget =>
    let t ← c.table 1
    let key ← c.any 2
    return [← Act.look fun w => (w.table t).get key]
  | .rawlen => rawLength c
  | .rawset =>
    let t ← c.table 1
    let key ← c.any 2
    let value ← c.any 3
    Act.rawSet t key value none
    return [.table t]
  | .select => select c
  | .setmetatable => setMetatable c
  | .tonumber => toNumber c
  | .tostring => return [.str (← Act.toText (← c.any 1))]
  | .type =>
    if c.has 1 then return [.ofString (c.value 1).typeName]
    else c.argumentFault 1 (Bytes.ofString "value expected")
  | .xpcall => handledCall c
  | .print => return []

end Library

end Hypermedia.Script
