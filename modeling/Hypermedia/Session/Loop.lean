import Hypermedia.Session.Schedule

/-! The loop in which a session goes on until it is idle, step by step, with the steps that action lists
take in between. -/
namespace Hypermedia.Session

variable {σ : Type} (transport : Transport σ)

/-- How many timers fire in the next pump. -/
def dueCount (s : Session σ) : Nat :=
  if s.halted then 0 else s.timers.countP (·.due ≤ s.clock)

/-- Where the loop stands. A round begins with a pump, and has `again` a second one if the first has left
nothing to wait for; `handled` are the messages of a pump so far. -/
inductive Stand where
  | draining (again : Bool) (handled : Nat)
  | firing (again : Bool) (handled : Nat)
  | counting
  | looking
  | waiting
  | idle
  deriving DecidableEq

/-- A session in its loop, with what was sent to it and what it has handled since the loop began. -/
structure Loop (σ : Type) where
  session : Session σ
  stand : Stand := .draining false 0
  sent : List Message := []
  handled : List Message := []

/-- What may happen next. The loop takes a step, or waits no longer for a message; an action list takes
one, or the surroundings change. -/
inductive Move (σ : Type) where
  | step
  | giveUp
  | worker (id : Nat)
  | wait (clock : Float)
  | network (network : σ)

namespace Loop

def handleNext (l : Loop σ) (stand : Stand) : Loop σ :=
  { l with
    session := l.session.handleNext transport
    handled := l.handled ++ l.session.inbox.take 1
    stand }

/-- The loop ends when a pump that follows a look at action lists and timers finds nothing to do. -/
def step (l : Loop σ) : Loop σ :=
  match l.stand with
  | .draining again handled =>
    if l.session.inbox.isEmpty then { l with stand := .firing again handled }
    else l.handleNext transport (.draining again (handled + 1))
  | .firing again handled =>
    let stand := if !again then .counting
      else if handled + l.session.dueCount = 0 then .idle
      else .draining false 0
    { l with session := l.session.fireTimers, stand }
  | .counting => { l with stand := if l.session.workers.isEmpty then .looking else .waiting }
  | .looking => { l with stand := if l.session.timers.isEmpty then .draining true 0 else .waiting }
  | .waiting =>
    if l.session.inbox.isEmpty then l else l.handleNext transport (.draining false 0)
  | .idle => l

def after (l : Loop σ) : Move σ → Loop σ
  | .step => l.step transport
  | .giveUp => if l.stand = .waiting then { l with stand := .draining false 0 } else l
  | .worker id =>
    let session := (l.session.takeTurn transport id).1
    { l with session, sent := l.sent ++ session.inbox.drop l.session.inbox.length }
  | .wait clock => { l with session := { l.session with clock } }
  | .network network => { l with session := { l.session with network } }

def afterAll (l : Loop σ) (moves : List (Move σ)) : Loop σ :=
  moves.foldl (after transport) l

end Loop

end Hypermedia.Session
