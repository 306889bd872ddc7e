import Hypermedia.Script.Chunk
import Hypermedia.Script.Evaluate
import Hypermedia.Script.Library.Base
import Hypermedia.Script.Library.Calendar
import Hypermedia.Script.Library.Math
import Hypermedia.Script.Library.Sequence
import Hypermedia.Script.Library.Session
import Hypermedia.Script.Library.Text

/-! Running scripts: the bodies of functions, chunks with a scope as their globals, and what a run
comes to. -/
namespace Hypermedia.Script

def Invocation.results (c : Invocation) : Act (List Value) :=
  match c.builtin with
  | .base f => Library.base c f
  | .text f => Library.text c f
  | .sequence f => Library.sequenceFunction c f
  | .math f => Library.math c f
  | .time f => Library.timeFunction c f
  | .session f => Library.session c f
  | .nextItem => Library.nextItem c
  | .nextMatch subject pattern position => Library.nextMatch c subject pattern position
  | .textArithmetic op => Library.textArithmetic c op
  | .textNegation => Library.textNegation c
  | .refuseWrite => c.fail "attempt to modify a read-only table"
  | .pairsOf t => return [.function BaseFunction.next.id, .table t, .nil]
  | .sizeOf t => return [.ofNat (← Act.look fun w => (w.table t).length)]
  | .construct kind => Library.construct c kind
  | .append => Library.append c
  | .start actions owner => Library.start c actions owner
  | .close callback => Library.close c callback

def maxTurns : Nat := Nat.pow 2 62

def apply (f : FunctionValue) (arguments : List Value) (site : Site) : Code :=
  Act.code do
    match f with
    | .closure parameters isVariadic body environment =>
      let env ← Act.declareAll environment (Act.adjust parameters arguments)
      let varargs := if isVariadic then arguments.drop parameters else []
      runBlock { varargs, turns := maxTurns } env body
    | .native builtin => return .giveBack (← Invocation.results ⟨builtin, site, arguments⟩)

def Act.chunk (scope : ScopeId) (body : List Stmt) : Act Flow := do
  let handle ← newHandle (.scope scope)
  let access ← newTable
    ((({} : Table).setField "__index" handle).setField "__newindex" handle)
  match access with
  | .table metatable =>
    let globals ← newTable { metatable := some metatable }
    let cell ← newCell globals
    runBlock { turns := maxTurns } [cell] body
  | _ => return .giveBack []

/-- Runs an activity; an error of it becomes a text. -/
def Act.withErrorText (body : Act Flow) : Act Flow := do
  match ← guarded body with
  | .ok flow => return flow
  | .error e => raise (.str (← errorText toText e))

def upTo (mark : List Char) : List Char → List Char
  | [] => []
  | c :: cs => if mark.isPrefixOf (c :: cs) then [] else c :: upTo mark cs

/-- Line and message of a text that begins with a position. -/
def positioned? (s : List Char) : Option (Nat × List Char) := do
  let rest ← "celx:".toList.isPrefixOf? s
  let digits := rest.takeWhile Char.isDigit
  let message ← [':', ' '].isPrefixOf? (rest.drop digits.length)
  let line := digits.foldl (fun n c => 10 * n + (c.toNat - 48)) 0
  if digits.isEmpty || Nat.pow 2 64 ≤ line then none else some (line, message)

def Failure.ofText (s : String) : Failure :=
  let message := upTo "\nstack traceback:".toList s.toList
  match positioned? message with
  | some (line, message) => { message := String.ofList message, line := some line }
  | none => { message := String.ofList message }

def maxSteps : Nat := Nat.pow 2 62

def Outcome.values? : Outcome → Except Failure (List Value)
  | finished flow => .ok flow.values
  | failed (.str s) => .error (Failure.ofText (Bytes.text s))
  | failed _ => .error { message := "error" }
  | outOfFuel => .error { message := "script runs too long" }

variable {σ : Type}

/-- Runs an activity on behalf of a scope, which stays alive meanwhile. -/
def World.perform (w : World) (host : Host σ) (s : σ) (scope : ScopeId) (body : Act Flow) :
    Except Failure (List Value) × World × σ :=
  let inside := { w with entered := some scope, held := scope :: w.held }
  let r := run host apply maxSteps body.withErrorText.code {} inside s
  (r.outcome.values?, { r.world with entered := w.entered, held := w.held }, r.state)

def World.execute (w : World) (host : Host σ) (s : σ) (scope : ScopeId) (source : String) :
    Except Failure (List Value) × World × σ :=
  match Chunk.read (Bytes.ofString source) with
  | .error e => (.error { message := Bytes.text e.message, line := some e.line }, w, s)
  | .ok body => w.perform host s scope (Act.chunk scope body)

def World.callFunction (w : World) (host : Host σ) (s : σ) (scope : ScopeId) (f : FunctionId)
    (arguments : List Value) : Except Failure (List Value) × World × σ :=
  w.perform host s scope do return .giveBack (← Act.callFunction f arguments .inner)

end Hypermedia.Script
