import Hypermedia.Script.Access

/-! The meaning of scripts: expressions and statements as activities. -/
namespace Hypermedia.Script

/-- The cells of the variables in scope, the newest first. -/
abbrev Environment := List Nat

/-- What one call of a function brings: its further arguments, and a bound on the turns of a
loop. -/
structure Activation where
  varargs : List Value := []
  turns : Nat

namespace Act

def readVar (env : Environment) (place : Nat) : Act Value :=
  look fun w => w.cell (env.getD place 0)

def writeVar (env : Environment) (place : Nat) (v : Value) : Act Unit :=
  change fun w => w.setCell (env.getD place 0) v

def declareAll (env : Environment) : List Value → Act Environment
  | [] => return env
  | v :: vs => do
    let cell ← newCell v
    declareAll (cell :: env) vs

/-- Exactly `n` values: further ones are dropped, missing ones are absent. -/
def adjust (n : Nat) (vs : List Value) : List Value :=
  (vs ++ List.replicate (n - vs.length) Value.nil).take n

end Act

namespace Expr

/-- The place of a variable of this function, read only when it is used. -/
def ownPlace? : Expr → Option Nat
  | var place _ true => some place
  | group inner => inner.ownPlace?
  | _ => none

def apply (op : BinaryOp) (a b : Value) (position : Option Position) (na nb : Option Naming) :
    Act Value := do
  match op with
  | .concat => Act.concat a b position na nb
  | .eq => return .bool (← Act.equal a b position)
  | .ne => return .bool !(← Act.equal a b position)
  | .lt => return .bool (← Act.less a b false position)
  | .le => return .bool (← Act.less a b true position)
  | .gt => return .bool (← Act.less b a false position)
  | .ge => return .bool (← Act.less b a true position)
  | op => Act.arithmetic op a b position na nb

def keyedCount : List Item → Nat
  | [] => 0
  | .keyed _ _ _ :: rest => keyedCount rest + 1
  | .positional _ :: rest => keyedCount rest

/-- Whether an operator looks at its left operand only after its right one is known. -/
def readsLate : BinaryOp → Bool
  | .concat => false
  | _ => true

end Expr

def at? (line : Nat) : Option Position := some ⟨line⟩

def siteAt (line : Nat) (naming : Option Naming) : Site :=
  { position := at? line, naming }

/-- What an assignment writes to, as far as it is known before its values. -/
inductive Slot where
  | var (place : Nat)
  | entry (object key : Act Value) (naming : Option Naming)

def Act.whileTrue (condition : Act Bool) (body : Act Flow) (env : Environment) :
    Nat → Act Flow
  | 0 => Act.raise (.ofString "loop runs too long")
  | n + 1 => do
    if ← condition then
      match ← body with
      | .next _ => whileTrue condition body env n
      | .leave => return .next env
      | .jump label _ => return .jump label env
      | .giveBack vs => return .giveBack vs
    else return .next env

/-- Repeats a body that tells whether to stop, at most `n` times. -/
def Act.untilTrue (body : Act (Flow × Bool)) (env : Environment) : Nat → Act Flow
  | 0 => Act.raise (.ofString "loop runs too long")
  | n + 1 => do
    match ← body with
    | (.next _, stop) => if stop then return .next env else untilTrue body env n
    | (.leave, _) => return .next env
    | (.jump label _, _) => return .jump label env
    | (.giveBack vs, _) => return .giveBack vs

def Act.countInts (body : Value → Act Flow) (env : Environment) (step : Int64) :
    Nat → Int64 → Act Flow
  | 0, _ => return .next env
  | n + 1, i => do
    match ← body (.int i) with
    | .next _ => countInts body env step n (i + step)
    | .leave => return .next env
    | .jump label _ => return .jump label env
    | .giveBack vs => return .giveBack vs

def Act.countFloats (body : Value → Act Flow) (env : Environment) (limit step : Float) :
    Nat → Float → Act Flow
  | 0, _ => Act.raise (.ofString "loop runs too long")
  | n + 1, x => do
    if (if 0.0 < step then x ≤ limit else limit ≤ x) then
      match ← body (.float x) with
      | .next _ => countFloats body env limit step n (x + step)
      | .leave => return .next env
      | .jump label _ => return .jump label env
      | .giveBack vs => return .giveBack vs
    else return .next env

/-- Asks an iterator for values until the first of them is absent. -/
def Act.iterate (body : List Value → Act Flow) (env : Environment) (f state : Value)
    (site : Site) : Nat → Value → Act Flow
  | 0, _ => Act.raise (.ofString "loop runs too long")
  | n + 1, control => do
    let vs ← Act.call f [state, control] site
    let control := Act.first vs
    if control.isNil then return .next env
    match ← body vs with
    | .next _ => iterate body env f state site n control
    | .leave => return .next env
    | .jump label _ => return .jump label env
    | .giveBack vs => return .giveBack vs

def turnCount (start limit step : Int64) : Nat :=
  let span := if 0 < step then limit.toInt - start.toInt else start.toInt - limit.toInt
  if span < 0 then 0 else span.toNat / step.toInt.natAbs + 1

/-- The limit of a loop over integers as an integer, rounded toward the start; none when no turn is
to be made. -/
def intLimit (limit : Number) (step : Int64) : Option Int64 :=
  match limit with
  | .int i => some i
  | .float x =>
    if x.isNaN then none
    else if Number.intLess Int64.maxValue.toInt x false then
      if step < 0 then none else some Int64.maxValue
    else if Number.lessInt x Int64.minValue.toInt false then
      if step < 0 then some Int64.minValue else none
    else Number.floatToInt? (if step < 0 then x.ceil else x.floor)

def loopFault {α : Type} (what : String) (v : Value) (position : Option Position) : Act α := do
  let name ← Act.look (·.typeName v)
  Act.raiseAt position (Bytes.ofString ("bad 'for' " ++ what ++ " (number expected, got ") ++
    name ++ Bytes.ofString ")")

def loopNumber (what : String) (v : Value) (position : Option Position) : Act Number :=
  match v.toNumber? with
  | some n => pure n
  | none => loopFault what v position

def Act.countLoop (body : Value → Act Flow) (env : Environment) (turns : Nat)
    (start limit step : Value) (position : Option Position) : Act Flow := do
  match start, step with
  | .number (.int i), .number (.int s) =>
    if s == 0 then Act.raiseAt position (Bytes.ofString "'for' step is zero")
    let limit ← loopNumber "limit" limit position
    match intLimit limit s with
    | none => return .next env
    | some l => Act.countInts body env s (turnCount i l s) i
  | start, step =>
    let limit ← loopNumber "limit" limit position
    let step ← loopNumber "step" step position
    let start ← loopNumber "initial value" start position
    if step.toFloat == 0.0 then Act.raiseAt position (Bytes.ofString "'for' step is zero")
    Act.countFloats body env limit.toFloat step.toFloat turns start.toFloat

/-- Calls a function in place of the running one. -/
def Act.tail (f : Value) (arguments : List Value) (site : Site) : Act Flow := do
  match f with
  | .function id => fun _ => .tailCall id arguments site
  | f => return .giveBack (← Act.call f arguments site)

/-- The place of the variable a statement declares to be closed, counted from the newest. -/
def closedPlace? : Stmt → Option Nat
  | .declare count (some i) _ _ _ => some (count - 1 - i)
  | _ => none

/-- Closes a variable when its block ends, however it ends. -/
def Act.closing (v : Value) (body : Act Flow) : Act Flow := do
  let ended ← Act.guarded body
  let close (error : Value) : Act Unit := do
    if v.isTruthy then
      let m ← Act.metamethod v "__close"
      let _ ← Act.call m [v, error] (Act.eventSite none "close")
  match ended with
  | .ok flow =>
    close .nil
    return flow
  | .error e =>
    close e
    Act.raise e

/-- A value that is to be closed must be false or know how to close. -/
def Act.checkClosable (v : Value) (name : Bytes) (position : Option Position) : Act Unit := do
  if v.isTruthy && (← Act.metamethod v "__close").isNil then
    Act.raiseAt position (Bytes.ofString "variable '" ++ name ++
      Bytes.ofString "' got a non-closable value")

/-- Follows jumps to the labels of a block, at most `n` of them. -/
def Act.follow (labels : List (Bytes × (Environment → Act Flow))) : Nat → Flow → Act Flow
  | 0, _ => Act.raise (.ofString "loop runs too long")
  | n + 1, .jump label env =>
    match labels.find? fun l => l.1 == label with
    | some (_, go) => do follow labels n (← go env)
    | none => return .jump label env
  | _, flow => return flow

/-- The flow of a statement whose variables end with it. -/
def Flow.within (env : Environment) : Flow → Flow
  | next _ => next env
  | leave => leave
  | jump label _ => jump label env
  | giveBack vs => giveBack vs

/-- The values for targets, stored from the last to the first. -/
def Act.storeAll (env : Environment) (line : Nat) : List (Slot × Value) → Act Unit
  | [] => return ()
  | (slot, v) :: rest => do
    storeAll env line rest
    match slot with
    | .var place => writeVar env place v
    | .entry object key naming => setIndex (← object) (← key) v (at? line) naming

def varPlaces : List Target → List Nat
  | [] => []
  | .var place :: rest => place :: varPlaces rest
  | .index _ _ :: rest => varPlaces rest

mutual

def Expr.value (a : Activation) (env : Environment) : Expr → Act Value
  | .nil => return .nil
  | .bool b => return .bool b
  | .number n => return .number n
  | .str s => return .str s
  | .varargs => return Act.first a.varargs
  | .var place _ _ => Act.readVar env place
  | .index object key line => do
    match object.ownPlace? with
    | some place =>
      let k ← key.value a env
      Act.index (← Act.readVar env place) k (at? line) object.naming?
    | none =>
      let o ← object.value a env
      let k ← key.value a env
      Act.index o k (at? line) object.naming?
  | .call function arguments line => do
    let f ← function.value a env
    let args ← valuesOf a env arguments
    return Act.first (← Act.call f args (siteAt line function.naming?))
  | .method object name line arguments callLine => do
    let o ← object.value a env
    let f ← Act.index o (.str name) (at? line) object.naming?
    let args ← valuesOf a env arguments
    return Act.first (← Act.call f (o :: args) (siteAt callLine (some ⟨"method", name⟩)))
  | .function parameters isVariadic body _ =>
    Act.newFunction (.closure parameters isVariadic body env)
  | .binary op left right line => do
    match if Expr.readsLate op then left.ownPlace? else none with
    | some place =>
      let r ← right.value a env
      let l ← Act.readVar env place
      Expr.apply op l r (at? line) left.naming? right.naming?
    | none =>
      let l ← left.value a env
      let r ← right.value a env
      Expr.apply op l r (at? line) left.naming? right.naming?
  | .unary op operand line => do
    let v ← operand.value a env
    match op with
    | .not => return .bool !v.isTruthy
    | .neg => Act.negate v (at? line) operand.naming?
    | .len => Act.length v (at? line) operand.naming?
    | .bnot => Act.invert v (at? line) operand.naming?
  | .both left right => do
    let l ← left.value a env
    if l.isTruthy then right.value a env else return l
  | .either left right => do
    let l ← left.value a env
    if l.isTruthy then return l else right.value a env
  | .table items _ => do
    let keyed := Expr.keyedCount items
    let table ← Act.newTable (.sized (items.length - keyed) keyed)
    let positional ← itemsOf a env table items
    match table with
    | .table t => Act.change (·.modifyTable t (·.setItems positional))
    | _ => pure ()
    return table
  | .group inner => inner.value a env
termination_by structural e => e

def Expr.allValues (a : Activation) (env : Environment) : Expr → Act (List Value)
  | .varargs => return a.varargs
  | .call function arguments line => do
    let f ← function.value a env
    let args ← valuesOf a env arguments
    Act.call f args (siteAt line function.naming?)
  | .method object name line arguments callLine => do
    let o ← object.value a env
    let f ← Act.index o (.str name) (at? line) object.naming?
    let args ← valuesOf a env arguments
    Act.call f (o :: args) (siteAt callLine (some ⟨"method", name⟩))
  | _ => return []
termination_by structural e => e

/-- The values of a list of expressions, of which the last may give any number. -/
def valuesOf (a : Activation) (env : Environment) : List Expr → Act (List Value)
  | [] => return []
  | e :: rest => do
    if rest.isEmpty && e.isOpen then e.allValues a env
    else
      let v ← e.value a env
      return v :: (← valuesOf a env rest)
termination_by structural es => es

/-- Puts the keyed items of a constructor into a table, and gives the others. -/
def itemsOf (a : Activation) (env : Environment) (table : Value) : List Item → Act (List Value)
  | [] => return []
  | .positional e :: rest => do
    if rest.isEmpty && e.isOpen then e.allValues a env
    else
      let v ← e.value a env
      return v :: (← itemsOf a env table rest)
  | .keyed key value line :: rest => do
    let k ← key.value a env
    let v ← value.value a env
    match table with
    | .table t => Act.rawSet t k v (at? line)
    | _ => pure ()
    itemsOf a env table rest
termination_by structural items => items

end

/-- What an operand of a target will be when the target is written: variables are read only then,
unless this statement writes them first. -/
def Act.operand (a : Activation) (env : Environment) (written : List Nat) (e : Expr) :
    Act (Act Value) := do
  match e.ownPlace? with
  | some place =>
    if written.contains place then
      let v ← readVar env place
      return pure v
    else return readVar env place
  | none =>
    let v ← e.value a env
    return pure v

/-- The targets of an assignment, as far as they are known before its values. -/
def Act.slots (a : Activation) (env : Environment) : List Target → Act (List Slot)
  | [] => return []
  | .var place :: rest => return .var place :: (← slots a env rest)
  | .index object key :: rest => do
    let o ← operand a env (varPlaces rest) object
    let k ← operand a env (varPlaces rest) key
    return .entry o k object.naming? :: (← slots a env rest)

mutual

def Stmt.run (a : Activation) (env : Environment) : Stmt → Act Flow
  | .declare count closed values name line => do
    let vs ← valuesOf a env values
    let vs := Act.adjust count vs
    match closed.bind fun i => vs[i]? with
    | some v => Act.checkClosable v name (at? line)
    | none => pure ()
    return .next (← Act.declareAll env vs)
  | .declareFunction function => do
    let env ← Act.declareAll env [.nil]
    Act.writeVar env 0 (← function.value a env)
    return .next env
  | .assign targets values line => do
    let slots ← Act.slots a env targets
    let vs ← valuesOf a env values
    Act.storeAll env line (slots.zip (Act.adjust targets.length vs))
    return .next env
  | .call expression => do
    let _ ← expression.allValues a env
    return .next env
  | .block body =>
    return (← Act.follow (labelsOf a body) a.turns (← runList a env body)).within env
  | .whileLoop condition body =>
    Act.whileTrue (do return (← condition.value a env).isTruthy)
      (do Act.follow (labelsOf a body) a.turns (← runList a env body)) env a.turns
  | .repeatLoop body condition =>
    Act.untilTrue (do
      match ← Act.follow (labelsOf a body) a.turns (← runList a env body) with
      | .next inner => return (.next env, (← condition.value a inner).isTruthy)
      | flow => return (flow, true)) env a.turns
  | .branch condition body otherwise => do
    if (← condition.value a env).isTruthy then
      return (← Act.follow (labelsOf a body) a.turns (← runList a env body)).within env
    else return (← Act.follow (labelsOf a otherwise) a.turns (← runList a env otherwise)).within env
  | .numericFor start limit step body line => do
    let i ← start.value a env
    let l ← limit.value a env
    let s ← step.value a env
    Act.countLoop (fun v => do
      Act.follow (labelsOf a body) a.turns (← runList a (← Act.declareAll env [v]) body))
      env a.turns i l s (at? line)
  | .genericFor count values body line => do
    let vs := Act.adjust 4 (← valuesOf a env values)
    let site : Site := siteAt line (some ⟨"for iterator", Bytes.ofString "for iterator"⟩)
    let loop := Act.iterate
      (fun vs => do
        let inner ← Act.declareAll env (Act.adjust count vs)
        Act.follow (labelsOf a body) a.turns (← runList a inner body))
      env (vs.getD 0 .nil) (vs.getD 1 .nil) site a.turns (vs.getD 2 .nil)
    let closed := vs.getD 3 .nil
    if closed.isNil then loop
    else
      Act.checkClosable closed (Bytes.ofString "(for state)") (at? line)
      Act.closing closed loop
  | .tailCall expression => do
    match expression with
    | .call function arguments line =>
      let f ← function.value a env
      let args ← valuesOf a env arguments
      Act.tail f args (siteAt line function.naming?)
    | .method object name line arguments callLine =>
      let o ← object.value a env
      let f ← Act.index o (.str name) (at? line) object.naming?
      let args ← valuesOf a env arguments
      Act.tail f (o :: args) (siteAt callLine (some ⟨"method", name⟩))
    | e => return .giveBack [← e.value a env]
  | .giveBack values => return .giveBack (← valuesOf a env values)
  | .leave => return .leave
  | .jump label => return .jump label env
  | .label _ _ => return .next env
termination_by structural s => s

/-- Runs statements one after another; after a variable to be closed the rest is guarded. -/
def runList (a : Activation) (env : Environment) : List Stmt → Act Flow
  | [] => return .next env
  | s :: rest => do
    match ← s.run a env with
    | .next inner =>
      match closedPlace? s with
      | some place =>
        let v ← Act.readVar inner place
        Act.closing v do
          let flow ← runList a inner rest
          Act.follow (labelsOf a rest) a.turns flow
      | none => runList a inner rest
    | .jump label _ => return .jump label env
    | flow => return flow
termination_by structural body => body

/-- The labels of a block with what runs from each of them on. -/
def labelsOf (a : Activation) : List Stmt → List (Bytes × (Environment → Act Flow))
  | [] => []
  | .label name depth :: rest =>
    (name, fun env => runList a (env.drop (env.length - depth)) rest) :: labelsOf a rest
  | _ :: rest => labelsOf a rest
termination_by structural body => body

end

/-- Runs a block, and goes back into it when a jump finds its label there. -/
def runBlock (a : Activation) (env : Environment) (body : List Stmt) : Act Flow := do
  Act.follow (labelsOf a body) a.turns (← runList a env body)

end Hypermedia.Script
