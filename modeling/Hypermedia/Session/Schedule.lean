import Hypermedia.Session.Answer

/-! Schedules: the turns in which a session and its running action lists take their steps. -/
namespace Hypermedia.Session

open Hypermedia.Action (Ask Call Plan)

variable {σ : Type} (transport : Transport σ)

def modifyWorker (s : Session σ) (id : Nat) (f : Worker → Worker) : Session σ :=
  { s with workers := s.workers.map fun w => if w.id = id then f w else w }

def post (s : Session σ) (w : Worker) (task : Task) : Session σ :=
  { s with inbox := s.inbox ++ [{ sender := w.id, started := w.generation, task }] }

/-- What an action list still sends when it ends. -/
def Worker.farewell (w : Worker) (error : Option Error) : List Notice :=
  (if w.loaded.isEmpty then [] else [.release w.loaded]) ++ error.toList.map .report

def finish (s : Session σ) (w : Worker) (error : Option Error) : Session σ :=
  s.modifyWorker w.id fun w =>
    { w with steps := [], loaded := [], phase := .leaving (w.farewell error) }

def dismissWorker (s : Session σ) (id : Nat) : Session σ :=
  { s with workers := s.workers.filter (·.id != id) }

/-- Lets an action list that has ended send its next notice, or go. -/
def leave (s : Session σ) (w : Worker) : List Notice → Session σ
  | [] => s.dismissWorker w.id
  | notice :: rest =>
    (s.post w (.notice notice)).modifyWorker w.id fun w => { w with phase := .leaving rest }

def requestOf (base : Url) (c : Call) : Except NetworkError Network.Request := do
  match Network.Method.ofVerb? c.verb with
  | none => throw (.transport (c.verb.text ++ " is not a remote call"))
  | some method =>
    let request ← Network.Request.ofText method (← resolveEndpoint base c.endpoint).text
    return request.withData c.body

/-- Goes on with a plan as far as the action list can do so alone. -/
def advance (s : Session σ) (w : Worker) : Plan (Option WidgetId) → Session σ
  | .fail e => s.finish w (some e)
  | .done result =>
    match w.steps with
    | [] => s.finish w none
    | i :: _ =>
      s.modifyWorker w.id fun w =>
        { w with steps := w.steps.tail, result, phase := .ready (i.plan w.caller result) }
  | .fetch call k =>
    match requestOf w.base call with
    | .error e => s.finish w (some (.network e))
    | .ok request =>
      { s with network := transport.send request s.network }.modifyWorker w.id fun w =>
        { w with phase := .fetching request k }
  | .ask q k =>
    (s.post w .answer).modifyWorker w.id fun w => { w with phase := .asking q k }

/-- What a reply means to an action list: one that comes after a page change cancels it. -/
def received (s : Session σ) (w : Worker) : Except NetworkError Network.Response →
    Except Error Network.Response
  | .error e => .error (.network e)
  | .ok response =>
    if s.generation = w.generation then .ok response else .error (.network .cancelled)

def receive (s : Session σ) (w : Worker) (request : Network.Request)
    (k : Network.Response → Plan (Option WidgetId)) : Session σ × Bool :=
  let (reply, network) := transport.reply request s.network
  let s := { s with network }
  match reply with
  | none => (s, false)
  | some reply =>
    let phase := .ready (.resume k (s.received w reply))
    (s.modifyWorker w.id fun w => { w with phase }, true)

/-- Gives an action list a turn; tells whether it could do something. -/
def takeTurn (s : Session σ) (id : Nat) : Session σ × Bool :=
  match s.workers.find? (·.id = id) with
  | none => (s, false)
  | some w =>
    match w.phase with
    | .ready plan => (s.advance transport w plan, true)
    | .fetching request k => s.receive transport w request k
    | .asking _ _ => (s, false)
    | .leaving notices => (s.leave w notices, true)

/-- Answers a question, unless the page has changed since the action list was started. -/
def answerCurrent (generation : Nat) (q : Ask) : Act σ q.Answer := do
  if (← get).generation = generation then answer transport q
  else throw (.network .cancelled)

def fragmentOf : (q : Ask) → Except Error q.Answer → List WidgetId
  | .loadFragment _, .ok root => [root]
  | _, _ => []

def answerWorker (s : Session σ) (id started : Nat) : Session σ :=
  match s.workers.find? (·.id = id) with
  | none => s
  | some w =>
    match w.phase with
    | .asking q k =>
      let (result, s) := answerCurrent transport started q s
      s.modifyWorker id fun w =>
        { w with loaded := w.loaded ++ fragmentOf q result, phase := .ready (.resume k result) }
    | _ => s

/-- Does what a message asks for; only answers depend on when its sender was started. -/
def handle (s : Session σ) (m : Message) : Session σ :=
  match m.task with
  | .answer => s.answerWorker transport m.sender m.started
  | .notice (.release fragments) => s.releaseFragments fragments
  | .notice (.report error) => s.report error

def handleNext (s : Session σ) : Session σ :=
  match s.inbox with
  | [] => s
  | m :: inbox => { s with inbox }.handle transport m

def drain (s : Session σ) : Session σ :=
  s.inbox.foldl (fun s _ => s.handleNext transport) s

def fire (t : Timer) : Step σ Unit := do
  let s ← get
  let query := match (s.world.scopes.get? t.scope).bind (·.widget) with
    | some id => s.tree.query id
    | none => "Page"
  let _ ← reporting (callHandler t.callback [] t.scope "timeout" query "")

/-- Fires the timers whose time has come, in the order in which they were set; a halted session
drops all. -/
def fireTimers (s : Session σ) : Session σ :=
  if s.halted then { s with timers := [] }
  else
    let (due, waiting) := s.timers.partition (·.due ≤ s.clock)
    ((due.forM fire).run { s with timers := waiting }).2

def pump (s : Session σ) : Session σ :=
  (s.drain transport).fireTimers

def takeErrors (s : Session σ) : List Error × Session σ :=
  (s.errors, { s with errors := [] })

/-- Something that a session, one of its action lists or its surroundings do in one go. -/
inductive Turn (σ : Type) where
  | message
  | timers
  | worker (id : Nat)
  | route (destination : String) (suppressHistory : Bool)
  | back
  | forward
  | refresh
  | dispatch (id : WidgetId) (event : String)
  | start (actions : List Action.Instruction) (caller : WidgetId)
  | report (error : Error)
  | takeErrors
  | wait (clock : Float)
  /-- Replies come in, or other things happen to the network. -/
  | network (network : σ)

def after (s : Session σ) : Turn σ → Session σ
  | .message => s.handleNext transport
  | .timers => s.fireTimers
  | .worker id => (s.takeTurn transport id).1
  | .route destination suppressHistory => (Session.route transport destination suppressHistory s).2
  | .back => (Session.back transport s).2
  | .forward => (Session.forward transport s).2
  | .refresh => (Session.refresh transport s).2
  | .dispatch id event => (Session.dispatch id event s).2
  | .start actions caller => s.startActions actions caller
  | .report error => s.report error
  | .takeErrors => s.takeErrors.2
  | .wait clock => { s with clock }
  | .network network => { s with network }

def afterAll (s : Session σ) (turns : List (Turn σ)) : Session σ :=
  turns.foldl (after transport) s

def takeTurns (s : Session σ) : List Nat → Session σ × Bool
  | [] => (s, false)
  | id :: rest =>
    let (s, moved) := s.takeTurn transport id
    let (s, others) := s.takeTurns rest
    (s, moved || others)

/-- A pump and then a turn for every action list; tells whether anything happened. -/
def round (s : Session σ) : Session σ × Bool :=
  let expected := !s.inbox.isEmpty || s.timers.any (·.due ≤ s.clock)
  let s := s.pump transport
  let (s, moved) := s.takeTurns transport (s.workers.map (·.id))
  (s, expected || moved)

def settle (s : Session σ) : Nat → Session σ
  | 0 => s
  | rounds + 1 =>
    let (s, moved) := s.round transport
    if moved then s.settle rounds else s

def maxRounds : Nat := Nat.pow 2 62

def nextDue? (s : Session σ) : Option Float :=
  match s.timers with
  | [] => none
  | t :: rest => some (rest.foldl (fun due t => if t.due < due then t.due else due) t.due)

/-- Settles a number of times, with time going on to the next timer in between. -/
def idleWithin (s : Session σ) : Nat → Session σ
  | 0 => s
  | waits + 1 =>
    let s := s.settle transport maxRounds
    match s.nextDue? with
    | some due => { s with clock := due }.idleWithin waits
    | none => s

/-- Goes on until no action list runs and no timer is set, or all that run wait for replies. -/
def runUntilIdle (s : Session σ) : Session σ :=
  s.idleWithin transport maxRounds

end Hypermedia.Session
