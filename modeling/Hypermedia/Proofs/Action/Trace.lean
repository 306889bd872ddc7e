import Hypermedia.Action.Plan

/-! What a host sees of an action list: the calls that are made, with its replies, and the steps that make
them. -/
namespace Hypermedia.Action

/-- A call of a host and its reply. -/
inductive Event where
  | fetch (call : Call) (reply : Except Error Network.Response)
  | ask (question : Ask) (reply : Except Error question.Answer)

/-- The error of a reply that is one. -/
def Event.error? : Event → Option Error
  | fetch _ (.error e) => some e
  | ask _ (.error e) => some e
  | fetch _ (.ok _) => none
  | ask _ (.ok _) => none

variable {σ α : Type}

/-- A host that takes note of what it is called for and replies, the oldest first. -/
def Host.noting (host : Host σ) : Host (σ × List Event) where
  fetch call s :=
    let (reply, t) := host.fetch call s.1
    (reply, t, s.2 ++ [.fetch call reply])
  answer q s :=
    let (reply, t) := host.answer q s.1
    (reply, t, s.2 ++ [.ask q reply])

theorem Host.fetch_noting (host : Host σ) (call : Call) (s : σ × List Event) :
    host.noting.fetch call s = ((host.fetch call s.1).1, (host.fetch call s.1).2,
      s.2 ++ [.fetch call (host.fetch call s.1).1]) := rfl

theorem Host.answer_noting (host : Host σ) (q : Ask) (s : σ × List Event) :
    host.noting.answer q s = ((host.answer q s.1).1, (host.answer q s.1).2,
      s.2 ++ [.ask q (host.answer q s.1).1]) := rfl

/-- What a plan calls a host for. -/
def Plan.events (host : Host σ) : Plan α → σ → List Event
  | done _, _ => []
  | fail _, _ => []
  | fetch c k, s =>
    match host.fetch c s with
    | (.ok response, t) => .fetch c (.ok response) :: (k response).events host t
    | (.error e, _) => [.fetch c (.error e)]
  | ask q k, s =>
    match host.answer q s with
    | (.ok answer, t) => .ask q (.ok answer) :: (k answer).events host t
    | (.error e, _) => [.ask q (.error e)]

/-- A host that takes notes runs plans as it would without, and notes down what it is called for. -/
theorem Plan.run_noting (host : Host σ) (p : Plan α) (s : σ) (log : List Event) :
    p.run host.noting (s, log) = ((p.run host s).1, (p.run host s).2, log ++ p.events host s) := by
  induction p generalizing s log with
  | done a => simp [run, events]
  | fail e => simp [run, events]
  | fetch c k ih =>
    cases hreply : host.fetch c s with
    | mk reply t =>
      cases reply with
      | ok response => simp [run, events, Host.fetch_noting, hreply, ih]
      | error e => simp [run, events, Host.fetch_noting, hreply]
  | ask q k ih =>
    cases hreply : host.answer q s with
    | mk reply t =>
      cases reply with
      | ok answer => simp [run, events, Host.answer_noting, hreply, ih]
      | error e => simp [run, events, Host.answer_noting, hreply]

/-- A step that has been taken: what it called the host for, and how it ended. -/
structure Step where
  instruction : Instruction
  events : List Event
  outcome : Except Error Unit

/-- The steps that a run takes. -/
def taken (host : Host σ) (caller : WidgetId) :
    List Instruction → Option WidgetId → σ → List Step
  | [], _, _ => []
  | i :: rest, result, s =>
    let p := i.plan caller result
    match p.run host s with
    | (.ok next, t) => ⟨i, p.events host s, .ok ()⟩ :: taken host caller rest next t
    | (.error e, _) => [⟨i, p.events host s, .error e⟩]

theorem runAll_noting (host : Host σ) (caller : WidgetId) (is : List Instruction)
    (result : Option WidgetId) (s : σ) (log : List Event) :
    runAll host.noting caller is result (s, log) =
      ((runAll host caller is result s).1, (runAll host caller is result s).2.1,
        (runAll host caller is result s).2.2,
        log ++ (taken host caller is result s).flatMap (·.events)) := by
  induction is generalizing result s log with
  | nil => simp [runAll, taken]
  | cons i rest ih =>
    rw [runAll, runAll, taken, Plan.run_noting]
    cases hrun : (i.plan caller result).run host s with
    | mk outcome t =>
      cases outcome with
      | ok next => simp [ih]
      | error e => simp

/-- The steps of a run are those of a first part of its list, all but the last succeed, and the run ends as
the last does. -/
structure Steps (is : List Instruction) (steps : List Step) (outcome : Except Error Unit) : Prop where
  ordered : steps.map (·.instruction) <+: is
  succeeded : ∀ step ∈ steps.dropLast, step.outcome = .ok ()
  ended : outcome = (steps.getLast?.map (·.outcome)).getD (.ok ())
  whole : outcome = .ok () → steps.map (·.instruction) = is

theorem Steps.cons {i : Instruction} {is : List Instruction} {steps : List Step} {events : List Event}
    {outcome : Except Error Unit} (h : Steps is steps outcome) :
    Steps (i :: is) (⟨i, events, .ok ()⟩ :: steps) outcome where
  ordered := List.cons_prefix_cons.mpr ⟨rfl, h.ordered⟩
  succeeded := by
    cases steps with
    | nil => simp
    | cons step steps =>
      rw [List.dropLast_cons_of_ne_nil (List.cons_ne_nil _ _)]
      exact List.forall_mem_cons.mpr ⟨rfl, h.succeeded⟩
  ended := by
    cases steps with
    | nil => exact h.ended
    | cons step steps =>
      rw [List.getLast?_cons_cons]
      exact h.ended
  whole ho := congrArg (i :: ·) (h.whole ho)

theorem steps_taken (host : Host σ) (caller : WidgetId) (is : List Instruction)
    (result : Option WidgetId) (s : σ) :
    Steps is (taken host caller is result s) (runAll host caller is result s).1 := by
  induction is generalizing result s with
  | nil => exact ⟨List.nil_prefix, by simp [taken], rfl, fun _ => rfl⟩
  | cons i rest ih =>
    rw [runAll, taken]
    cases hrun : (i.plan caller result).run host s with
    | mk outcome t =>
      cases outcome with
      | ok next => exact (ih next t).cons
      | error e => exact ⟨by simp, by simp, rfl, nofun⟩

end Hypermedia.Action
