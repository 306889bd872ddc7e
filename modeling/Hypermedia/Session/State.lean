import Hypermedia.Action.Plan
import Hypermedia.Markup.Page
import Hypermedia.Script.Interpreter
import Hypermedia.Script.Library.Initial
import Hypermedia.Session.Config
import Hypermedia.Session.Destination
import Hypermedia.Style.RuleBook

/-! The state of a session: its page, its scripts, and the action lists that run. -/
namespace Hypermedia

namespace Session

open Hypermedia.Action (Ask Plan Instruction)

/-- How requests go out and replies come in; a reply may still be under way. -/
structure Transport (σ : Type) where
  send : Network.Request → σ → σ
  reply : Network.Request → σ → Option (Except NetworkError Network.Response) × σ

structure Page where
  url : Url
  title : String
  properties : List (String × String)
  scope : ScopeId

structure Timer where
  due : Float
  callback : FunctionId
  scope : ScopeId

/-- What an action list that has ended tells the session: fragments it loaded, and its error. -/
inductive Notice where
  | release (fragments : List WidgetId)
  | report (error : Error)

/-- What an action list leaves for the session to do: to answer the question it waits with, or to
take note of its end. -/
inductive Task where
  | answer
  | notice (notice : Notice)

/-- What the running step of an action list waits for; a list that has ended has notices to send. -/
inductive Phase where
  | ready (plan : Plan (Option WidgetId))
  | asking (question : Ask) (k : question.Answer → Plan (Option WidgetId))
  | fetching (request : Network.Request) (k : Network.Response → Plan (Option WidgetId))
  | leaving (notices : List Notice)

/-- A running action list: the page change it was started after, what it has left to do, and the
fragments it loaded. -/
structure Worker where
  id : Nat
  generation : Nat
  base : Url
  caller : WidgetId
  steps : List Instruction
  result : Option WidgetId := none
  loaded : List WidgetId := []
  phase : Phase

def Worker.isRunning (w : Worker) : Bool :=
  match w.phase with
  | .leaving _ => false
  | _ => true

/-- A task under way to the session, with the page change its sender was started after. -/
structure Message where
  sender : Nat
  started : Nat
  task : Task

/-- What a new page puts aside until it is complete. -/
structure Outgoing where
  root : Option WidgetId
  rules : Style.RuleBook
  document : ScopeId
  timers : List Timer
  pinned : List WidgetId
  loose : Nat

end Session

open Session in
/-- A session; `pending` are fragments not yet placed with their widgets, `loose` are widgets that
scripts built and `deferred` action lists that wait for a page to be complete. -/
structure Session (σ : Type) where
  config : Config
  network : σ
  tree : Tree := {}
  rules : Style.RuleBook := {}
  registry : Registry := {}
  world : Script.World
  document : ScopeId
  page : Option Page := none
  history : History
  url : Url
  title : String
  generation : Nat := 0
  workers : List Worker := []
  nextWorker : Nat := 0
  inbox : List Message := []
  pending : List (WidgetId × List WidgetId) := []
  loose : List WidgetId := []
  deferred : Option (List (List Action.Instruction × WidgetId)) := none
  outgoing : Option Outgoing := none
  timers : List Timer := []
  clock : Float := 0.0
  alerts : List String := []
  errors : List Error := []
  halted : Bool := false

namespace Session

variable {σ : Type}

/-- A step of a session; what it changed stays when it fails. -/
abbrev Act (σ : Type) := ExceptT Error (StateM (Session σ))

abbrev Step (σ : Type) := StateM (Session σ)

def lift {ε α : Type} (into : ε → Error) (r : Except ε α) : Act σ α :=
  match r with
  | .ok a => pure a
  | .error e => throw (into e)

/-- A step with its outcome as a value. -/
def attempt {α : Type} (step : Act σ α) : Act σ (Except Error α) :=
  ExceptT.lift step.run

def start (config : Config) (network : σ) : Except Error (Session σ) :=
  match Url.parse config.endpoint with
  | .error _ => .error (.network (.invalidUrl config.endpoint))
  | .ok url =>
    let world := Script.World.initial
    let (document, scopes) := world.scopes.add none
    .ok { config, network, document, url
          world := { world with scopes }
          history := .ofLimit config.historyLimit
          title := config.title }

def widgetScopes (s : Session σ) : List ScopeId :=
  s.tree.slots.toList.filterMap fun slot => slot.bind (·.scope)

def heldScopes (s : Session σ) : List ScopeId :=
  let outgoing := match s.outgoing with
    | some o => o.document :: o.timers.map (·.scope)
    | none => []
  s.document :: (s.page.toList.map (·.scope)) ++ s.timers.map (·.scope) ++ outgoing ++
    s.widgetScopes

def startActions (s : Session σ) (actions : List Action.Instruction) (caller : WidgetId) :
    Session σ :=
  let worker : Worker :=
    { id := s.nextWorker, generation := s.generation, base := s.url, caller
      steps := actions, phase := .ready (.done none) }
  { s with workers := s.workers ++ [worker], nextWorker := s.nextWorker + 1 }

def running (s : Session σ) : Nat := s.workers.countP Worker.isRunning

/-- Drops the steps that running action lists have left, and the fragments not yet placed. -/
def cancelInFlight (s : Session σ) : Session σ :=
  { s with
    generation := s.generation + 1
    workers := s.workers.map fun w => { w with steps := [] }
    tree := s.tree.removeAll (s.pending.map (·.1))
    pending := [] }

/-- Takes note of an error; unless it is a cancellation, it may bring the session to a halt. -/
def report (s : Session σ) (e : Error) : Session σ :=
  if e.isCancellation then s
  else
    let s := { s with errors := s.errors ++ [e] }
    if s.config.failFast && !s.halted then
      { s.cancelInFlight with halted := true, timers := [] }
    else s

end Session

end Hypermedia
