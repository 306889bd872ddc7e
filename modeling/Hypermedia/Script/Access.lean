import Hypermedia.Script.Activity
import Hypermedia.Script.Convert

/-! Operations on values: calls, indexing, notification, arithmetic, order and text. -/
namespace Hypermedia.Script.Act

def namingText : Option Naming → Bytes
  | some n => Bytes.ofString (" (" ++ n.sort ++ " '") ++ n.name ++ Bytes.ofString "')"
  | none => []

def typeFault {α : Type} (position : Option Position) (what : String) (v : Value)
    (naming : Option Naming) : Act α := do
  let name ← look (·.typeName v)
  raiseAt position (Bytes.ofString ("attempt to " ++ what ++ " a ") ++ name ++
    Bytes.ofString " value" ++ namingText naming)

def metamethod (v : Value) (event : String) : Act Value :=
  look (·.metamethod v event)

/-- How one of two operands takes part in an operation, the first one asked first. -/
def binaryMetamethod (a b : Value) (event : String) : Act Value := do
  let m ← metamethod a event
  if m.isNil then metamethod b event else return m

def first (vs : List Value) : Value :=
  vs.headD .nil

/-- Calls a value; one that is not a function may say what to call in its place. -/
def callWithin : Nat → Value → List Value → Site → Act (List Value)
  | 0, _, _, site => raiseAt site.position (Bytes.ofString "C stack overflow")
  | n + 1, f, arguments, site => do
    match f with
    | .function id => callFunction id arguments site
    | v =>
      let m ← metamethod v "__call"
      if m.isNil then typeFault site.position "call" v site.naming
      else callWithin n m (v :: arguments) site

def call (f : Value) (arguments : List Value) (site : Site) : Act (List Value) :=
  callWithin 200 f arguments site

def eventSite (position : Option Position) (event : String) : Site :=
  { position, naming := some ⟨"metamethod", Bytes.ofString event⟩, isNested := true }

def breachText (b : Bytes.Breach) : String :=
  match b.length with
  | some n =>
    "invalid utf-8 sequence of " ++ decimal n ++ " bytes from index " ++ decimal b.index
  | none => "incomplete utf-8 byte sequence from index " ++ decimal b.index

def textArgument (index : Nat) (owner : Option String) (v : Value) : Except Bytes String :=
  let place := "bad argument #" ++ decimal index ++
    (match owner with
      | some o => " to \x60" ++ o ++ "\x60"
      | none => "") ++ ": "
  match v.toText? with
  | some s =>
    match Bytes.breach? s with
    | none => .ok (Bytes.text s)
    | some b => .error (Bytes.ofString (place ++
        "error converting Lua string to String (" ++ breachText b ++ ")"))
  | none => .error (Bytes.ofString (place ++ "error converting Lua " ++ v.fineTypeName ++
      " to String (expected string or number)"))

/-- A result, or the session error it carries. -/
def orFault {α : Type} (r : Except Bytes α) : Act α :=
  match r with
  | .ok a => pure a
  | .error e => fault e

def ofField : Field → Act Value
  | .nothing => pure .nil
  | .value a => pure (.ofAttribute a)
  | .widget id => newHandle (.widget id)
  | .widgets ids => do
    let handles ← ids.mapM fun id => newHandle (.widget id)
    newTable (.ofItems handles)
  | .words ws => newTable (.ofItems (ws.map .ofString))
  | .scope id => newHandle (.scope id)

/-- Asks the session; a refusal is an error without a line. -/
def ask (service : Service) : Act Value := do
  match ← request service with
  | .ok field => ofField field
  | .error message => fault (Bytes.ofString message)

/-- The text of an error on its way through a function of the program. -/
def errorText (toText : Value → Act Bytes) : Value → Act Bytes
  | .handle _ (.failure m) => pure m
  | v => toText v

def hold (scopes : List ScopeId) : Act Unit :=
  change fun w => { w with held := scopes }

/-- Tells listeners about a change, one after another; the first error ends it. -/
def tellAll (toText : Value → Act Bytes) (c : Change) (held : List ScopeId) :
    List (ScopeId × Value) → Act Unit
  | [] => hold held
  | (id, listener) :: rest => do
    hold (c.owner :: id :: rest.map (·.1) ++ held)
    match listener with
    | .function f =>
      let told ← guarded do
        let _ ← callFunction f [c.new, c.old] .inner
        return .giveBack []
      match told with
      | .ok _ => tellAll toText c held rest
      | .error e =>
        hold held
        fault (← errorText toText e)
    | _ => tellAll toText c held rest

def notify (toText : Value → Act Bytes) (c : Change) : Act Unit := do
  let isAlive ← living
  let listeners ← look (·.scopes.listenersFor isAlive c)
  let held ← look (·.held)
  tellAll toText c held listeners

def aliveScope (id : ScopeId) : Act Unit := do
  if !((← living) id) then fault (Bytes.ofString "scope no longer exists")

def toText (v : Value) : Act Bytes := do
  let m ← metamethod v "__tostring"
  if !m.isNil then
    let position ← caller 1
    match first (← call m [v] (eventSite position "tostring")) with
    | .str s => return s
    | .number n => return n.text
    | _ => raiseAt position (Bytes.ofString "'__tostring' must return a string")
  match v with
  | .nil => return Bytes.ofString "nil"
  | .bool b => return Bytes.ofString (if b then "true" else "false")
  | .number n => return n.text
  | .str s => return s
  | .handle _ (.widget id) => return Bytes.ofString ("widget: " ++ id.text)
  | .handle _ (.scope id) =>
    let isAlive ← living
    return Bytes.ofString (if isAlive id then "scope: " ++ decimal id.index else "scope: <gone>")
  | .handle _ (.failure m) =>
    return Bytes.ofString "runtime error: " ++ m ++
      Bytes.ofString "\nstack traceback:\n\t[C]: in ?"
  | v =>
    let name ← look (·.typeName v)
    return name ++ Bytes.ofString (": " ++ v.addressText)

def widgetField (id : WidgetId) (key : Value) : Act Value := do
  let name ← orFault (textArgument 2 (some "WidgetRef.__index") key)
  if name = "append" then newFunction (.native .append)
  else ask (.readField id name)

/-- Reads a name through a scope; `outer` is the scope around it. -/
def scopeField (id : ScopeId) (key : Value) : Act Value := do
  let name ← orFault (textArgument 2 (some "ScopeHandle.__index") key)
  aliveScope id
  if name = "outer" then
    match ← look (·.scopes.parent? id) with
    | some parent => newHandle (.scope parent)
    | none => return .nil
  else return (← look (·.scopes.read id name)).getD .nil

/-- The value under a key and, where there is none, what the table's metatable has to say. -/
def tableLookup (t : TableId) (key : Value) (event : String) (w : World) : Value × Value :=
  let table := w.table t
  let v := table.get key
  if v.isNil then
    match table.metatable with
    | some m => (v, (w.table m).field event)
    | none => (v, .nil)
  else (v, .nil)

def indexWithin : Nat → Value → Value → Option Position → Option Naming → Act Value
  | 0, _, _, position, _ =>
    raiseAt position (Bytes.ofString "'__index' chain too long; possibly a loop")
  | n + 1, v, key, position, naming => do
    match v with
    | .table t =>
      let (found, m) ← look (tableLookup t key "__index")
      if m.isNil then return found
      else match m with
        | .function f => return first (← callFunction f [v, key] (eventSite position "index"))
        | m => indexWithin n m key position none
    | .handle _ (.widget id) => widgetField id key
    | .handle _ (.scope id) => scopeField id key
    | v =>
      let m ← metamethod v "__index"
      if m.isNil then typeFault position "index" v naming
      else match m with
        | .function f => return first (← callFunction f [v, key] (eventSite position "index"))
        | m => indexWithin n m key position none

def index (v key : Value) (position : Option Position) (naming : Option Naming) : Act Value :=
  indexWithin 2000 v key position naming

def writeScope (id : ScopeId) (key value : Value) : Act Unit := do
  let name ← orFault (textArgument 2 (some "ScopeHandle.__newindex") key)
  aliveScope id
  match ← assign id name value with
  | none => pure ()
  | some c =>
    let held ← look (·.held)
    hold (id :: held)
    notify toText c
    hold held

def writeWidget (id : WidgetId) (key value : Value) : Act Unit := do
  let name ← orFault (textArgument 2 (some "WidgetRef.__newindex") key)
  let isAlive ← living
  let offer ← look (·.offer isAlive value)
  let _ ← ask (.writeField id name offer)

def keyFault? : Value → Option String
  | .nil => some "index is nil"
  | .number (.float x) => if x.isNaN then some "index is NaN" else none
  | _ => none

/-- Puts a value under a key of a table and asks nobody. -/
def rawSet (t : TableId) (key value : Value) (position : Option Position) : Act Unit := do
  match keyFault? key with
  | some message => raiseAt position (Bytes.ofString ("table " ++ message))
  | none => change (·.modifyTable t (·.set key value))

def setIndexWithin : Nat → Value → Value → Value → Option Position → Option Naming → Act Unit
  | 0, _, _, _, position, _ =>
    raiseAt position (Bytes.ofString "'__newindex' chain too long; possibly a loop")
  | n + 1, v, key, value, position, naming => do
    match v with
    | .table t =>
      let (_, m) ← look (tableLookup t key "__newindex")
      if m.isNil then rawSet t key value position
      else match m with
        | .function f =>
          let _ ← callFunction f [v, key, value] (eventSite position "newindex")
        | m => setIndexWithin n m key value position none
    | .handle _ (.widget id) => writeWidget id key value
    | .handle _ (.scope id) => writeScope id key value
    | v =>
      let m ← metamethod v "__newindex"
      if m.isNil then typeFault position "index" v naming
      else match m with
        | .function f =>
          let _ ← callFunction f [v, key, value] (eventSite position "newindex")
        | m => setIndexWithin n m key value position none

def setIndex (v key value : Value) (position : Option Position) (naming : Option Naming) :
    Act Unit :=
  setIndexWithin 2000 v key value position naming

/-- Whether two values are equal, as their metatables see it when both are tables. -/
def equal (a b : Value) (position : Option Position) : Act Bool := do
  if a.same b then return true
  match a, b with
  | .table _, .table _ =>
    let m ← binaryMetamethod a b "__eq"
    if m.isNil then return false
    else return (first (← call m [a, b] (eventSite position "eq"))).isTruthy
  | .handle _ (.widget x), .handle _ (.widget y) => return x == y
  | .handle _ (.widget _), .handle _ _ => return false
  | .handle _ _, .handle _ (.widget _) =>
    fault (Bytes.ofString
      "bad argument \x60self\x60 to \x60WidgetRef.__eq\x60: userdata is not expected type")
  | _, _ => return false

def eventOf : BinaryOp → String
  | .add => "add"
  | .sub => "sub"
  | .mul => "mul"
  | .mod => "mod"
  | .pow => "pow"
  | .div => "div"
  | .idiv => "idiv"
  | .band => "band"
  | .bor => "bor"
  | .bxor => "bxor"
  | .shl => "shl"
  | .shr => "shr"
  | .concat => "concat"
  | .eq | .ne => "eq"
  | .lt | .gt => "lt"
  | .le | .ge => "le"

def isBitwise : BinaryOp → Bool
  | .band | .bor | .bxor | .shl | .shr => true
  | _ => false

def integers? (a b : Number) : Option (Int64 × Int64) :=
  a.toInt?.bind fun i => b.toInt?.map fun j => (i, j)

def floorDiv (i j : Int64) : Int64 := Int64.ofInt (Int.fdiv i.toInt j.toInt)

def floorMod (i j : Int64) : Int64 := Int64.ofInt (Int.fmod i.toInt j.toInt)

/-- An operation on the integers two numbers equal; none when one is no integer. -/
def onBits (a b : Number) (f : Int64 → Int64 → Int64) : Except String (Option Number) :=
  .ok ((integers? a b).map fun (i, j) => .int (f i j))

/-- An operator applied to numbers; none when it needs integers, an error when it divides by
zero. -/
def compute (op : BinaryOp) (a b : Number) : Except String (Option Number) :=
  match op, a, b with
  | .add, .int i, .int j => .ok (some (.int (i + j)))
  | .sub, .int i, .int j => .ok (some (.int (i - j)))
  | .mul, .int i, .int j => .ok (some (.int (i * j)))
  | .idiv, .int i, .int j =>
    if j == 0 then .error "attempt to divide by zero" else .ok (some (.int (floorDiv i j)))
  | .mod, .int i, .int j =>
    if j == 0 then .error "attempt to perform 'n%0'" else .ok (some (.int (floorMod i j)))
  | .add, a, b => .ok (some (.float (a.toFloat + b.toFloat)))
  | .sub, a, b => .ok (some (.float (a.toFloat - b.toFloat)))
  | .mul, a, b => .ok (some (.float (a.toFloat * b.toFloat)))
  | .div, a, b => .ok (some (.float (a.toFloat / b.toFloat)))
  | .idiv, a, b => .ok (some (.float (a.toFloat / b.toFloat).floor))
  | .mod, a, b => .ok (some (.float (Number.modulo a.toFloat b.toFloat)))
  | .pow, a, b => .ok (some (.float (Number.power a.toFloat b.toFloat)))
  | .band, a, b => onBits a b (· &&& ·)
  | .bor, a, b => onBits a b (· ||| ·)
  | .bxor, a, b => onBits a b (· ^^^ ·)
  | .shl, a, b => onBits a b Number.shift
  | .shr, a, b => onBits a b fun i j =>
    if j.toInt ≤ -64 then 0 else Number.shift i (-j)
  | _, _, _ => .ok none

def arithmeticFault {α : Type} (op : BinaryOp) (a b : Value) (position : Option Position)
    (na nb : Option Naming) : Act α := do
  match a, b with
  | .number x, .number _ =>
    let naming := if x.toInt?.isNone then na else nb
    raiseAt position (Bytes.ofString "number" ++ namingText naming ++
      Bytes.ofString " has no integer representation")
  | .number _, b =>
    typeFault position
      (if isBitwise op then "perform bitwise operation on" else "perform arithmetic on") b nb
  | a, _ =>
    typeFault position
      (if isBitwise op then "perform bitwise operation on" else "perform arithmetic on") a na

def arithmetic (op : BinaryOp) (a b : Value) (position : Option Position)
    (na nb : Option Naming) : Act Value := do
  let computed : Except String (Option Number) := match a, b with
    | .number x, .number y => compute op x y
    | _, _ => .ok none
  match computed with
  | .error message => raiseAt position (Bytes.ofString message)
  | .ok (some n) => return .number n
  | .ok none =>
    let m ← binaryMetamethod a b ("__" ++ eventOf op)
    if m.isNil then arithmeticFault op a b position na nb
    else return first (← call m [a, b] (eventSite position (eventOf op)))

def negate (v : Value) (position : Option Position) (naming : Option Naming) : Act Value := do
  match v with
  | .number (.int i) => return .int (-i)
  | .number (.float x) => return .float (-x)
  | v =>
    let m ← metamethod v "__unm"
    if m.isNil then typeFault position "perform arithmetic on" v naming
    else return first (← call m [v, v] (eventSite position "unm"))

def invert (v : Value) (position : Option Position) (naming : Option Naming) : Act Value := do
  match v with
  | .number n =>
    match n.toInt? with
    | some i => return .int (~~~i)
    | none => arithmeticFault .bxor v v position naming naming
  | v =>
    let m ← metamethod v "__bnot"
    if m.isNil then typeFault position "perform bitwise operation on" v naming
    else return first (← call m [v, v] (eventSite position "bnot"))

def length (v : Value) (position : Option Position) (naming : Option Naming) : Act Value := do
  match v with
  | .str s => return .ofNat s.length
  | v =>
    let m ← metamethod v "__len"
    if !m.isNil then return first (← call m [v] (eventSite position "len"))
    else match v with
      | .table t => return .ofNat (← look fun w => (w.table t).length)
      | v => typeFault position "get length of" v naming

def concat (a b : Value) (position : Option Position) (na nb : Option Naming) : Act Value := do
  match a.toText?, b.toText? with
  | some s, some t => return .str (s ++ t)
  | s, _ =>
    let m ← binaryMetamethod a b "__concat"
    if !m.isNil then return first (← call m [a, b] (eventSite position "concat"))
    else if s.isSome then typeFault position "concatenate" b nb
    else typeFault position "concatenate" a na

def orderFault {α : Type} (a b : Value) (position : Option Position) : Act α := do
  let s ← look (·.typeName a)
  let t ← look (·.typeName b)
  raiseAt position (if s == t then
      Bytes.ofString "attempt to compare two " ++ s ++ Bytes.ofString " values"
    else Bytes.ofString "attempt to compare " ++ s ++ Bytes.ofString " with " ++ t)

/-- Whether a value comes before another, or with `orEqual` also with it. -/
def less (a b : Value) (orEqual : Bool) (position : Option Position) : Act Bool := do
  match a, b with
  | .number x, .number y => return if orEqual then x.lessEqual y else x.less y
  | .str s, .str t => return if orEqual then !Bytes.less t s else Bytes.less s t
  | a, b =>
    let event := if orEqual then "le" else "lt"
    let m ← binaryMetamethod a b ("__" ++ event)
    if m.isNil then orderFault a b position
    else return (first (← call m [a, b] (eventSite position event))).isTruthy

end Hypermedia.Script.Act
