import Hypermedia.Proofs.Session.Lifetimes
import Hypermedia.Proofs.Session.Surroundings

/-! Halted sessions: what a session that stops at its first error still does, and the one thing that it
should not do. -/
namespace Hypermedia.Session

open Effect (Moves)
open Hypermedia.Action (Ask)

variable {σ : Type} {s t u : Session σ} (transport : Transport σ)

section calls

/-- The outcome of a timer's callback. -/
def timeout (timer : Timer) (s : Session σ) : Except Error Script.Value × Session σ :=
  let query := match (s.world.scopes.get? timer.scope).bind (·.widget) with
    | some id => s.tree.query id
    | none => "Page"
  callHandler timer.callback [] timer.scope "timeout" query "" s

/-- Timers that fire one after another, each with the session that it finds. -/
def firings : List Timer → Session σ → List (Timer × Session σ)
  | [], _ => []
  | timer :: rest, s => (timer, s) :: firings rest (fire timer s).2

/-- The timers that fire in the next pump. -/
def dueFirings (s : Session σ) : List (Timer × Session σ) :=
  if s.halted then []
  else
    firings (s.timers.partition (·.due ≤ s.clock)).1
      { s with timers := (s.timers.partition (·.due ≤ s.clock)).2 }

/-- Whether an event on a widget calls a function of a script. -/
def isScripted (s : Session σ) (id : WidgetId) (event : String) : Bool :=
  match (s.tree.get? id).bind (·.binding? event) with
  | some (.script _) => true
  | _ => false

/-- The sessions that the scripts find which a turn calls, other than those of a new page. -/
def invocations (s : Session σ) : Turn σ → List (Session σ)
  | .timers => s.dueFirings.map (·.2)
  | .dispatch id event => if !s.halted && s.isScripted id event then [s] else []
  | .message => if s.nextEdit?.isSome then [s] else []
  | .worker _ | .route _ _ | .back | .forward | .refresh | .start _ _ | .report _ | .takeErrors | .wait _
  | .network _ => []

/-- No due timer comes after one whose callback fails. -/
def Unbroken (s : Session σ) : Prop :=
  s.dueFirings.Pairwise fun earlier _ => (timeout earlier.1 earlier.2).1.isOk = true

instance (s : Session σ) : Decidable s.Unbroken :=
  inferInstanceAs (Decidable (List.Pairwise _ _))

def Turn.isTravel : Turn σ → Bool
  | .route _ _ | .back | .forward | .refresh => true
  | _ => false

/-- A turn calls no script in a halted session, and no turn but a page change changes what such a session
shows or what its scripts know, or starts an action list. -/
structure Rests (s : Session σ) (turn : Turn σ) : Prop where
  calls : ∀ u ∈ s.invocations turn, u.halted = false
  still : s.halted = true → turn.isTravel = false →
    (s.after transport turn).tree = s.tree ∧ (s.after transport turn).rules = s.rules ∧
      (s.after transport turn).world = s.world ∧ (s.after transport turn).nextWorker = s.nextWorker

theorem fire_eq (timer : Timer) (s : Session σ) :
    (fire timer s).2 = match timeout timer s with
      | (.ok _, t) => t
      | (.error e, t) => t.report e := by
  change (reporting (fun s => timeout timer s) s).2 = _
  unfold reporting
  split <;> simp [*]

/-- All that is due is fired, and nothing else. -/
theorem fireAll_eq (timers : List Timer) (s : Session σ) :
    ((timers.forM fire).run s).2 = match (firings timers s).getLast? with
      | some (timer, t) => (fire timer t).2
      | none => s := by
  induction timers generalizing s with
  | nil => rfl
  | cons timer timers ih =>
    have hstep : (((timer :: timers).forM fire).run s).2 = ((timers.forM fire).run (fire timer s).2).2 := rfl
    rw [hstep, ih, firings, List.getLast?_cons]
    cases (firings timers (fire timer s).2).getLast? <;> rfl

theorem script_of_callHandler {f : FunctionId} {arguments : List Script.Value} {scope : ScopeId}
    {handler widget source : String} {e : Error}
    (h : callHandler f arguments scope handler widget source s = (.error e, t)) :
    e.isCancellation = false := by
  rw [callHandler, Effect.run_get_bind, Effect.run_bind, outcome] at h
  generalize s.world.callFunction host s scope f arguments = r at h
  obtain ⟨result, world, u⟩ := r
  cases result with
  | ok values => cases h
  | error failure =>
    cases h
    rfl

end calls

section refusals

/-- What scripts can do to a session that is halted: they start nothing, and halt nothing by themselves. -/
structure Refuses (s t : Session σ) : Prop where
  config : t.config = s.config
  halted : t.halted = s.halted
  pending : t.pending = s.pending
  nextWorker : s.halted = true → t.nextWorker = s.nextWorker
  deferred : s.halted = true → t.deferred = s.deferred

instance : IsPreorder (Session σ) Refuses where
  refl _ := ⟨rfl, rfl, rfl, fun _ => rfl, fun _ => rfl⟩
  trans s t u h k := by
    refine ⟨k.config.trans h.config, k.halted.trans h.halted, k.pending.trans h.pending, fun hs => ?_, fun hs => ?_⟩
    · exact (k.nextWorker (h.halted.trans hs)).trans (h.nextWorker hs)
    · exact (k.deferred (h.halted.trans hs)).trans (h.deferred hs)

theorem refuses_carries : Binds (Refuses (σ := σ)) (fun _ => True) (fun _ => True) where
  perform service s _ := by
    rcases perform_frame service s with ⟨_, _, _, _, _, h⟩ | ⟨hgoing, hact⟩
    · rw [h]
      exact ⟨rfl, rfl, rfl, fun _ => rfl, fun _ => rfl⟩
    · have hnot : s.halted ≠ true := by simp [hgoing]
      rcases hact with ⟨_, _, h⟩ | ⟨_, h⟩ <;> rw [h] <;>
        exact ⟨rfl, rfl, rfl, fun hs => absurd hs hnot, fun hs => absurd hs hnot⟩
  world _ _ _ := ⟨rfl, rfl, rfl, fun _ => rfl, fun _ => rfl⟩
  rules _ _ := ⟨rfl, rfl, rfl, fun _ => rfl, fun _ => rfl⟩
  bind _ _ _ _ _ _ := ⟨rfl, rfl, rfl, fun _ => rfl, fun _ => rfl⟩
  scope _ _ _ _ := ⟨rfl, rfl, rfl, fun _ => rfl, fun _ => rfl⟩

/-- What a page change can do to a session that is halted. -/
structure Yields (s t : Session σ) : Prop where
  config : t.config = s.config
  halted : t.halted = s.halted
  pending : s.pending = [] → t.pending = []
  nextWorker : s.halted = true → t.nextWorker = s.nextWorker

instance : IsPreorder (Session σ) Yields where
  refl _ := ⟨rfl, rfl, id, fun _ => rfl⟩
  trans s t u h k := by
    refine ⟨k.config.trans h.config, k.halted.trans h.halted, k.pending ∘ h.pending, fun hs => ?_⟩
    exact (k.nextWorker (h.halted.trans hs)).trans (h.nextWorker hs)

theorem yields_compiled {α : Type} (c : Markup.Compile α) : Moves Yields (compiled c : Act σ α) :=
  Effect.moves_get_bind fun _ => Effect.moves_set_bind ⟨rfl, rfl, id, fun _ => rfl⟩ (moves_lift _ _)

/-- A page that is shown in a halted session has no action list to start. -/
theorem yields_install (url : Url) (n : Node) : Moves Yields (install url n : Act σ Unit) := by
  intro s
  have hcompiled := yields_compiled (Markup.compilePage n) s
  obtain ⟨e, t, hc, h⟩ | ⟨page, t, u, hc, hr, h⟩ := install_outcomes url n s
  · rw [hc] at hcompiled
    rw [h]
    exact hcompiled
  · rw [hc] at hcompiled
    have hruns : Moves Refuses (runPage page : Act σ Unit) :=
      (refuses_carries.runPage fun _ _ _ _ => trivial).moves fun _ => trivial
    have hran := hruns (t.stage (page.content.map Markup.Fragment.root))
    rw [hr] at hran
    have hwaits : t.halted = true → u.deferred = some [] := fun ht => hran.deferred ht
    have hstill : t.halted = true → u.nextWorker = t.nextWorker := fun ht => hran.nextWorker ht
    refine IsTrans.trans _ _ _ hcompiled ?_
    rcases h with h | ⟨e, h⟩ <;> rw [h]
    · dsimp only [commit]
      obtain ⟨workers, nextWorker, hstarted⟩ := startAll_frame (u.cancelInFlight.deferred.getD []) _
      refine ⟨?_, ?_, fun _ => ?_, fun ht => ?_⟩
      · rw [hstarted]
        exact hran.config
      · rw [hstarted]
        exact hran.halted
      · rw [hstarted]
        rfl
      · have hnone : u.cancelInFlight.deferred.getD [] = [] := by
          rw [show u.cancelInFlight.deferred = u.deferred from rfl, hwaits ht]
          rfl
        rw [hnone]
        exact hstill ht
    · exact ⟨hran.config, hran.halted, fun hp => hran.pending.trans hp, hstill⟩

theorem yields_navigates : Navigates (Yields (σ := σ)) where
  fetches s t h := by
    obtain ⟨network, rfl⟩ := h
    exact ⟨rfl, rfl, id, fun _ => rfl⟩
  history _ _ := ⟨rfl, rfl, id, fun _ => rfl⟩
  install := yields_install

end refusals

section orders

/-- No fragment waits for a place, and all action lists were started before the last page change. -/
structure Idle (s : Session σ) : Prop where
  pending : s.pending = []
  stale : ∀ w ∈ s.workers, w.generation < s.generation

/-- The books are in order, and a session that is halted is idle. -/
structure Ordered (s : Session σ) : Prop where
  consistent : s.Consistent
  idle : s.halted = true → s.Idle

/-- A step of a session that stops at its first error, if it is one, after which that session is in order. -/
def Orders (s t : Session σ) : Prop :=
  s.Ordered → t.Ordered

instance : IsPreorder (Session σ) Orders where
  refl _ h := h
  trans _ _ _ h k hs := k (h hs)

/-- A step that does not halt the session, and starts nothing if it is halted. -/
theorem Yields.orders (h : s.Yields t) (hleads : s.Leads t) : s.Orders t := by
  intro hs
  obtain ⟨ht, hfollows⟩ := hleads hs.consistent
  refine ⟨ht, fun hhalted => ?_⟩
  have hbefore : s.halted = true := h.halted.symm.trans hhalted
  have hidle := hs.idle hbefore
  refine ⟨h.pending hidle.pending, fun v hv => ?_⟩
  rcases hfollows.origin v hv with ⟨w, hw, -, hgeneration⟩ | hnew
  · rw [← hgeneration]
    exact Nat.lt_of_lt_of_le (hidle.stale w hw) hfollows.generation_le
  · have hlt := ht.id_lt v hv
    rw [h.nextWorker hbefore] at hlt
    exact absurd hlt (Nat.not_lt_of_le hnew)

theorem Refuses.yields (h : s.Refuses t) : s.Yields t :=
  ⟨h.config, h.halted, fun hp => h.pending.trans hp, h.nextWorker⟩

theorem report_of_cancellation {e : Error} (h : e.isCancellation = true) : s.report e = s :=
  if_pos h

theorem report_eq {e : Error} (h : e.isCancellation = false) : s.report e =
    if s.config.failFast && !s.halted then
      { { s with errors := s.errors ++ [e] }.cancelInFlight with halted := true, timers := [] }
    else { s with errors := s.errors ++ [e] } := by
  simp [report, h]

/-- An error that halts the session leaves it idle. -/
theorem orders_report (e : Error) : s.Orders (s.report e) := by
  intro hs
  refine ⟨((acts_report e).1 hs.consistent).1, ?_⟩
  cases hcancel : e.isCancellation with
  | true =>
    rw [report_of_cancellation hcancel]
    exact hs.idle
  | false =>
    rw [report_eq hcancel]
    split
    · refine fun _ => ⟨rfl, List.forall_mem_map.mpr fun w hw => ?_⟩
      exact Nat.lt_succ_of_le (hs.consistent.generation_le w hw)
    · intro hhalted
      obtain ⟨hpending, hstale⟩ := hs.idle hhalted
      exact ⟨hpending, hstale⟩

theorem orders_carries : Carries (Orders (σ := σ)) (fun _ => True) (fun _ => True) where
  perform service s h := (refuses_carries.perform service s h).yields.orders (acts_perform service).1
  world s world h := (refuses_carries.world s world h).yields.orders (acts_carries.world s world h).1
  rules s rules := (refuses_carries.rules s rules).yields.orders (acts_carries.rules s rules).1
  bind s id name f h hv := (refuses_carries.bind s id name f h hv).yields.orders (acts_carries.bind s id name f h hv).1

theorem orders_fireTimers : s.Orders s.fireTimers :=
  orders_carries.fireTimers (fun _ => orders_report)
    (fun _ _ => Yields.orders ⟨rfl, rfl, id, fun _ => rfl⟩
      (Keeps.leads ⟨rfl, rfl, rfl, rfl, Nat.le_refl _, fun _ _ h => h⟩)) s

theorem orders_startActions (hgoing : s.halted = false) (actions : List Action.Instruction)
    (caller : WidgetId) : s.Orders (s.startActions actions caller) := by
  intro hs
  refine ⟨(leads_startActions actions caller hs.consistent).1, fun hhalted => ?_⟩
  exact absurd hhalted (by simp [startActions, hgoing])

theorem orders_dispatch (id : WidgetId) (event : String) :
    Moves Orders (dispatch id event : Act σ Bool) :=
  orders_carries.dispatch (fun _ => orders_report)
    (fun _ actions caller hgoing => orders_startActions hgoing actions caller) id event

end orders

section halted

variable (hs : s.Ordered) (hhalted : s.halted = true)

include hhalted

theorem report_of_halted (e : Error) : ∃ errors, s.report e = { s with errors } := by
  cases hcancel : e.isCancellation with
  | true => exact ⟨s.errors, report_of_cancellation hcancel⟩
  | false =>
    refine ⟨s.errors ++ [e], ?_⟩
    rw [report_eq hcancel, hhalted, Bool.not_true, Bool.and_false, if_neg Bool.false_ne_true]

include hs

theorem nextEdit?_of_halted : s.nextEdit? = none := by
  unfold nextEdit?
  split
  · rfl
  · next m inbox hinbox =>
    split
    · next w htask hw =>
      obtain ⟨hmem, hid⟩ := worker_of_find? hw
      have hm : m ∈ s.inbox := hinbox ▸ List.mem_cons_self
      have hstale := (hs.idle hhalted).stale w hmem
      rw [hs.consistent.sender m hm w hmem hid] at hstale
      split
      · exact if_neg (Nat.ne_of_gt hstale)
      · rfl
    · rfl

/-- No message does more to a halted session than to tell an action list that it is cancelled. -/
theorem handleNext_of_halted : ∃ inbox workers errors,
    s.handleNext transport = { s with inbox, workers, errors } := by
  obtain ⟨-, heq⟩ | ⟨m, inbox, hinbox, hcases⟩ := handleNext_outcomes transport s
  · exact ⟨s.inbox, s.workers, s.errors, heq⟩
  · have hm : m ∈ s.inbox := hinbox ▸ List.mem_cons_self
    have hidle := hs.idle hhalted
    obtain ⟨-, heq⟩ | ⟨roots, -, heq⟩ | ⟨e, -, heq⟩ := hcases <;> rw [heq]
    · obtain ⟨-, heq⟩ | ⟨w, q, k, hw, -, heq⟩ :=
        answerWorker_outcomes transport { s with inbox } m.sender m.started <;> rw [heq]
      · exact ⟨inbox, s.workers, s.errors, rfl⟩
      · obtain ⟨hmem, hid⟩ := worker_of_find? hw
        have hstale := hidle.stale w hmem
        rw [hs.consistent.sender m hm w hmem hid] at hstale
        rw [answerCurrent_of_stale transport (s := { s with inbox }) (Nat.ne_of_gt hstale)]
        exact ⟨inbox, _, s.errors, rfl⟩
    · refine ⟨inbox, s.workers, s.errors, releaseFragments_of_dropped fun root _ => ?_⟩
      change s.pending.lookup root = none
      rw [hidle.pending]
      rfl
    · obtain ⟨errors, h⟩ := report_of_halted (s := { s with inbox }) hhalted e
      exact ⟨inbox, s.workers, errors, h⟩

/-- All that a halted session does by itself is to forget its timers, to take note of errors, and to see
its action lists end. -/
theorem after_of_halted {turn : Turn σ} (htravel : turn.isTravel = false)
    (hstart : ∀ actions caller, turn ≠ .start actions caller) :
    ∃ network workers inbox errors timers clock,
      s.after transport turn = { s with network, workers, inbox, errors, timers, clock } := by
  cases turn with
  | message =>
    obtain ⟨inbox, workers, errors, h⟩ := handleNext_of_halted transport hs hhalted
    exact ⟨_, workers, inbox, errors, _, _, h⟩
  | timers => exact ⟨_, _, _, _, [], _, by rw [after, fireTimers, if_pos hhalted]⟩
  | worker id =>
    obtain ⟨network, workers, inbox, h⟩ := takeTurn_frame transport (s := s) id
    exact ⟨network, workers, inbox, _, _, _, h⟩
  | dispatch id event =>
    refine ⟨s.network, s.workers, s.inbox, s.errors, s.timers, s.clock, ?_⟩
    rw [after, dispatch, Effect.run_get_bind, if_pos hhalted]
    rfl
  | start actions caller => exact absurd rfl (hstart actions caller)
  | report error =>
    obtain ⟨errors, h⟩ := report_of_halted hhalted error
    exact ⟨_, _, _, errors, _, _, h⟩
  | takeErrors => exact ⟨_, _, _, [], _, _, rfl⟩
  | wait clock => exact ⟨_, _, _, _, _, clock, rfl⟩
  | network network => exact ⟨network, _, _, _, _, _, rfl⟩
  | _ => cases htravel

end halted

section answers

/-- A part of a session is as it was. -/
def Same {α : Type} (f : Session σ → α) (s t : Session σ) : Prop :=
  f t = f s

instance {α : Type} (f : Session σ → α) : IsPreorder (Session σ) (Same f) where
  refl _ := rfl
  trans _ _ _ h k := Eq.trans k h

variable {α : Type} {f : Session σ → α}

/-- Answers leave alone what does not depend on the page and its fragments, if the scripts do that an edit
brings with it. -/
theorem same_answer
    (hframe : ∀ (s : Session σ) network tree registry rules pending,
      s.Same f { s with network, tree, registry, rules, pending })
    (q : Ask) (hbind : (∃ result target edit, q = .edit result target edit) →
      ∀ ids, Moves (Same f) (bindScripts ids : Act σ Unit)) :
    Moves (Same f) (answer transport q) := by
  cases q with
  | requestBody caller selector => exact Effect.moves_get_bind fun s => moves_lift _ _ s
  | loadFragment response =>
    refine Effect.moves_bind (moves_lift _ _) fun node => Effect.moves_get_bind fun s => ?_
    have hinlined := (fetches_inlined transport ((Url.parse response.url).toOption.getD s.url) node).mono
      fun s t (h : s.Fetches t) => show s.Same f t by
        obtain ⟨network, rfl⟩ := h
        exact hframe s network _ _ _ _
    refine Effect.moves_bind_at (hinlined s) fun n => ?_
    have hcompiled : Moves (Same f) (compiled (Markup.compileFragment n) : Act σ Markup.Fragment) :=
      Effect.moves_get_bind fun s => Effect.moves_set_bind (hframe s _ _ _ _ _) (moves_lift _ _)
    refine Effect.moves_bind hcompiled fun fragment => ?_
    refine Effect.moves_bind (moves_addRules (fun s rules => hframe s _ _ _ rules _) _) fun _ => ?_
    exact Effect.moves_bind (Effect.moves_modify fun s => hframe s _ _ _ _ _) fun _ => Effect.moves_pure _
  | select selector within => exact Effect.moves_get_bind fun s => moves_lift _ _ s
  | isContainer id => exact Effect.moves_get_bind fun s => moves_lift _ _ s
  | query id => exact Effect.moves_get_bind fun s => Effect.moves_pure _ s
  | edit result target edit =>
    refine Effect.moves_get_bind fun s => Effect.moves_set_bind (hframe s _ _ _ _ _) ?_
    refine Effect.moves_bind (moves_lift _ _) fun _ => ?_
    split
    · exact Effect.moves_pure _
    · next root _ =>
      refine Effect.moves_get_bind fun t => ?_
      refine Effect.moves_set_bind ?_ (hbind ⟨_, _, _, rfl⟩ _)
      split
      · exact hframe t _ _ _ _ _
      · exact hframe t _ _ _ _ _

theorem same_answerWorker (hworkers : ∀ (s : Session σ) workers, s.Same f { s with workers })
    {id started : Nat} (hanswer : ∀ w q k, s.workers.find? (·.id = id) = some w → w.phase = .asking q k →
      s.generation = started → s.Same f (answer transport q s).2) :
    s.Same f (s.answerWorker transport id started) := by
  obtain ⟨-, h⟩ | ⟨w, q, k, hw, hphase, h⟩ := answerWorker_outcomes transport s id started <;> rw [h]
  · exact Std.Refl.refl s
  · have hanswered : s.Same f (answerCurrent transport started q s).2 := by
      rw [answerCurrent_eq]
      split
      · next hcurrent => exact hanswer w q k hw hphase hcurrent
      · exact Std.Refl.refl s
    exact IsTrans.trans _ _ _ hanswered (hworkers _ _)

theorem same_releaseFragments
    (hframe : ∀ (s : Session σ) tree pending, s.Same f { s with tree, pending }) (roots : List WidgetId) :
    s.Same f (s.releaseFragments roots) :=
  along_releaseFragments (fun s _ _ => hframe s _ _) s roots

end answers

section turns

def mode (s : Session σ) : Config × Bool :=
  (s.config, s.halted)

theorem same_mode_answer (q : Ask) : Moves (Same mode) (answer transport q) := by
  refine same_answer transport (f := mode) (fun _ _ _ _ _ _ => rfl) q fun _ ids => ?_
  have hbind : Moves Refuses (bindScripts ids : Act σ Unit) :=
    (refuses_carries.bindScripts fun _ _ => trivial).moves fun _ => trivial
  exact hbind.mono fun _ _ h => congrArg₂ Prod.mk h.config h.halted

theorem config_report (e : Error) : (s.report e).config = s.config :=
  along_report (R := Same (·.config)) (fun _ _ => rfl) (fun _ => rfl) (fun _ => rfl) s e

/-- Of the messages only a report can halt a session. -/
theorem mode_handleNext (s : Session σ) : (s.handleNext transport).mode = s.mode ∨
    ∃ m inbox e, s.inbox = m :: inbox ∧ s.handleNext transport = { s with inbox }.report e := by
  obtain ⟨-, h⟩ | ⟨m, inbox, hinbox, ⟨-, h⟩ | ⟨roots, -, h⟩ | ⟨e, -, h⟩⟩ := handleNext_outcomes transport s
  · exact .inl (congrArg mode h)
  · rw [h]
    exact .inl (same_answerWorker transport (f := mode) (fun _ _ => rfl)
      fun _ q _ _ _ _ => same_mode_answer transport q { s with inbox })
  · rw [h]
    exact .inl (same_releaseFragments (f := mode) (fun _ _ _ => rfl) roots)
  · exact .inr ⟨m, inbox, e, hinbox, h⟩

theorem config_after (turn : Turn σ) : (s.after transport turn).config = s.config := by
  have hcarries : Carries (Same (σ := σ) (·.config)) (fun _ => True) (fun _ => True) :=
    { perform := fun service s h => (refuses_carries.perform service s h).config
      world := fun _ _ _ => rfl
      rules := fun _ _ => rfl
      bind := fun _ _ _ _ _ _ => rfl }
  cases turn with
  | message =>
    obtain hmode | ⟨m, inbox, e, -, h⟩ := mode_handleNext transport s
    · exact congrArg Prod.fst hmode
    · rw [after, h]
      exact config_report e
  | timers => exact hcarries.fireTimers (fun _ _ => config_report _) (fun _ _ => rfl) s
  | worker id =>
    obtain ⟨network, workers, inbox, h⟩ := takeTurn_frame transport (s := s) id
    rw [after, h]
  | route destination suppressHistory =>
    exact (yields_navigates.route transport destination suppressHistory s).config
  | back => exact (yields_navigates.revisit transport History.back s).config
  | forward => exact (yields_navigates.revisit transport History.forward s).config
  | refresh => exact (yields_navigates.refresh transport s).config
  | dispatch id event =>
    exact hcarries.dispatch (fun _ _ => config_report _) (fun _ _ _ _ => rfl) id event s
  | report error => exact config_report error
  | _ => rfl

theorem config_afterAll (turns : List (Turn σ)) : (s.afterAll transport turns).config = s.config := by
  induction turns generalizing s with
  | nil => rfl
  | cons turn turns ih => exact ih.trans (config_after transport turn)

theorem orders_handleNext (hgoing : s.halted = false) : s.Orders (s.handleNext transport) := by
  intro hs
  have hconsistent := (leads_handleNext transport hs.consistent).1
  have hnot : s.halted ≠ true := by simp [hgoing]
  obtain hmode | ⟨m, inbox, e, hinbox, h⟩ := mode_handleNext transport s
  · refine ⟨hconsistent, fun hhalted => absurd ?_ hnot⟩
    exact (congrArg Prod.snd hmode).symm.trans hhalted
  · have hrest : { s with inbox }.Ordered :=
      ⟨(leads_dropMessage hinbox hs.consistent).1, fun hhalted => absurd hhalted hnot⟩
    rw [h]
    exact orders_report e hrest

theorem yields_of_isTravel {turn : Turn σ} (h : turn.isTravel = true) : s.Yields (s.after transport turn) := by
  cases turn with
  | route destination suppressHistory => exact yields_navigates.route transport destination suppressHistory s
  | back => exact yields_navigates.revisit transport History.back s
  | forward => exact yields_navigates.revisit transport History.forward s
  | refresh => exact yields_navigates.refresh transport s
  | _ => cases h

/-- Every turn keeps a session in order, but to start an action list when it is halted. -/
theorem orders_after {turn : Turn σ}
    (hstart : ∀ actions caller, turn = .start actions caller → s.halted = false) :
    s.Orders (s.after transport turn) := by
  intro hs
  have hleads : s.Leads (s.after transport turn) := leads_after transport turn
  cases htravel : turn.isTravel with
  | true => exact (yields_of_isTravel transport htravel).orders hleads hs
  | false =>
    cases hhalted : s.halted with
    | true =>
      obtain ⟨network, workers, inbox, errors, timers, clock, h⟩ :=
        after_of_halted transport hs hhalted htravel fun actions caller heq =>
          absurd (hstart actions caller heq) (by simp [hhalted])
      have hyields : s.Yields (s.after transport turn) := by
        rw [h]
        exact ⟨rfl, rfl, fun hp => hp, fun _ => rfl⟩
      exact hyields.orders hleads hs
    | false =>
      -- nothing but an error can halt the session now
      have hquiet (h : (s.after transport turn).halted = s.halted) : (s.after transport turn).Ordered :=
        ⟨(hleads hs.consistent).1, fun ht => absurd (h.symm.trans ht) (by simp [hhalted])⟩
      cases turn with
      | message => exact orders_handleNext transport hhalted hs
      | timers => exact orders_fireTimers hs
      | worker id =>
        obtain ⟨network, workers, inbox, h⟩ := takeTurn_frame transport (s := s) id
        refine hquiet ?_
        rw [after, h]
      | dispatch id event => exact orders_dispatch id event s hs
      | start actions caller => exact hquiet rfl
      | report error => exact orders_report error hs
      | takeErrors => exact hquiet rfl
      | wait clock => exact hquiet rfl
      | network network => exact hquiet rfl
      | _ => cases htravel

end turns

section batches

theorem refuses_timeout (timer : Timer) (s : Session σ) : s.Refuses (timeout timer s).2 :=
  (refuses_carries.toCarries.callHandler _ _ _ _ _ _).moves (fun _ => trivial) s

/-- A callback halts the session exactly if it fails. -/
theorem halted_fire (hfast : s.config.failFast = true) (hgoing : s.halted = false) (timer : Timer) :
    (fire timer s).2.config = s.config ∧ ((fire timer s).2.halted = false ↔ (timeout timer s).1.isOk = true) := by
  have hcalled := refuses_timeout timer s
  rw [fire_eq]
  cases h : timeout timer s with
  | mk result t =>
    rw [h] at hcalled
    cases result with
    | ok value => exact ⟨hcalled.config, iff_of_true (hcalled.halted.trans hgoing) rfl⟩
    | error e =>
      have hcancel : e.isCancellation = false := script_of_callHandler h
      have hconfig : t.config = s.config := hcalled.config
      have hhalted : t.halted = s.halted := hcalled.halted
      have hreport : (t.report e).halted = true := by
        rw [report_eq hcancel]
        simp [hconfig, hhalted, hfast, hgoing]
      exact ⟨(config_report e).trans hconfig, iff_of_false (by simp [hreport]) Bool.false_ne_true⟩

/-- Timers that fire one after another find the session going exactly if each but the last succeeds. -/
theorem firings_going_iff (hfast : s.config.failFast = true) (hgoing : s.halted = false) (timers : List Timer) :
    (∀ firing ∈ firings timers s, firing.2.halted = false) ↔
      (firings timers s).Pairwise fun earlier _ => (timeout earlier.1 earlier.2).1.isOk = true := by
  induction timers generalizing s with
  | nil => exact iff_of_true (List.forall_mem_nil _) .nil
  | cons timer timers ih =>
    obtain ⟨hconfig, hhalted⟩ := halted_fire hfast hgoing timer
    rw [firings, List.forall_mem_cons, List.pairwise_cons]
    by_cases hok : (timeout timer s).1.isOk = true
    · rw [ih (hconfig ▸ hfast) (hhalted.mpr hok)]
      exact ⟨fun h => ⟨fun _ _ => hok, h.2⟩, fun h => ⟨hgoing, h.2⟩⟩
    · have hstopped : (fire timer s).2.halted ≠ false := mt hhalted.mp hok
      cases timers with
      | nil => simp [firings, hgoing]
      | cons next timers =>
        refine iff_of_false (fun h => hstopped ?_) fun h => hok ?_
        · exact h.2 (next, (fire timer s).2) List.mem_cons_self
        · exact h.1 (next, (fire timer s).2) List.mem_cons_self

theorem unbroken_of_halted (h : s.halted = true) : s.Unbroken := by
  rw [Unbroken, dueFirings, if_pos h]
  exact .nil

theorem unbroken_iff (hfast : s.config.failFast = true) :
    (∀ u ∈ s.invocations .timers, u.halted = false) ↔ s.Unbroken := by
  have hmap : (∀ u ∈ s.invocations .timers, u.halted = false) ↔
      ∀ firing ∈ s.dueFirings, firing.2.halted = false := by
    rw [invocations, List.forall_mem_map]
  rw [hmap, Unbroken, dueFirings]
  split
  · exact iff_of_true (List.forall_mem_nil _) .nil
  · next hgoing =>
    let waiting : Session σ := { s with timers := (s.timers.partition (·.due ≤ s.clock)).2 }
    have hwaiting : waiting.halted = false := by simpa using hgoing
    exact firings_going_iff (s := waiting) hfast hwaiting _

end batches

theorem world_handleNext (hreport : ∀ (s : Session σ) e, (s.report e).world = s.world)
    (hedit : s.nextEdit? = none) : (s.handleNext transport).world = s.world := by
  obtain ⟨-, heq⟩ | ⟨m, inbox, hinbox, ⟨htask, heq⟩ | ⟨roots, -, heq⟩ | ⟨e, -, heq⟩⟩ :=
    handleNext_outcomes transport s
  · rw [heq]
  · rw [heq]
    refine same_answerWorker transport (f := (·.world)) (fun _ _ => rfl) fun w q k hw hphase hcurrent => ?_
    refine same_answer transport (f := (·.world)) (fun _ _ _ _ _ _ => rfl) q (fun hq => ?_) _
    obtain ⟨result, target, edit, rfl⟩ := hq
    have hw' : s.workers.find? (·.id = m.sender) = some w := hw
    have hcurrent' : s.generation = m.started := hcurrent
    simp [nextEdit?, hinbox, htask, hw', hphase, hcurrent'] at hedit
  · rw [heq]
    exact same_releaseFragments (f := (·.world)) (fun _ _ _ => rfl) _
  · rw [heq]
    exact hreport _ _

/-- A turn that calls no script leaves the world of the scripts alone. -/
theorem world_of_no_invocations {turn : Turn σ} (htravel : turn.isTravel = false)
    (h : s.invocations turn = []) : (s.after transport turn).world = s.world := by
  have hreport : ∀ (s : Session σ) (e : Error), (s.report e).world = s.world :=
    along_report (R := Same (·.world)) (fun _ _ => rfl) (fun _ => rfl) fun _ => rfl
  cases turn with
  | message =>
    have hedit : s.nextEdit? = none := by
      cases hnext : s.nextEdit? with
      | none => rfl
      | some edit => simp [invocations, hnext] at h
    exact world_handleNext transport hreport hedit
  | timers =>
    have hnone : s.dueFirings = [] := List.map_eq_nil_iff.mp h
    unfold dueFirings at hnone
    rw [after, fireTimers]
    split at hnone
    · next hhalted => rw [if_pos hhalted]
    · next hgoing =>
      rw [if_neg hgoing]
      dsimp only
      rw [fireAll_eq, hnone]
      rfl
  | worker id =>
    obtain ⟨network, workers, inbox, heq⟩ := takeTurn_frame transport (s := s) id
    rw [after, heq]
  | dispatch id event =>
    rw [after, dispatch, Effect.run_get_bind]
    split
    · rfl
    · next hgoing =>
      rw [run_liveWidget_bind]
      cases hw : s.tree.widget id with
      | error e => rfl
      | ok w =>
        have hget : s.tree.get? id = some w := Tree.widget_eq_ok.mp hw
        dsimp only
        cases hbinding : w.binding? event with
        | none => rfl
        | some binding =>
          cases binding with
          | actions actions => rfl
          | script f => simp [invocations, isScripted, hgoing, hget, hbinding] at h
  | report error => exact hreport s error
  | start actions caller => rfl
  | takeErrors => rfl
  | wait clock => rfl
  | network network => rfl
  | _ => cases htravel

theorem rests_of_ordered (hs : s.Ordered) (hfast : s.config.failFast = true) {turn : Turn σ}
    (htimers : turn = .timers → s.Unbroken)
    (hstart : ∀ actions caller, turn = .start actions caller → s.halted = false) :
    s.Rests transport turn where
  calls := by
    cases turn with
    | timers => exact (unbroken_iff hfast).mpr (htimers rfl)
    | dispatch id event =>
      intro u hu
      dsimp only [invocations] at hu
      split at hu
      · next hcalls =>
        obtain rfl := List.mem_singleton.mp hu
        obtain ⟨hgoing, -⟩ := Bool.and_eq_true_iff.mp hcalls
        simpa using hgoing
      · cases hu
    | message =>
      intro u hu
      dsimp only [invocations] at hu
      split at hu
      · next hedit =>
        obtain rfl := List.mem_singleton.mp hu
        by_contra hhalted
        rw [nextEdit?_of_halted hs (by simpa using hhalted)] at hedit
        cases hedit
      · cases hu
    | _ => exact List.forall_mem_nil _
  still := by
    intro hhalted htravel
    obtain ⟨network, workers, inbox, errors, timers, clock, h⟩ :=
      after_of_halted transport hs hhalted htravel fun actions caller heq =>
        absurd (hstart actions caller heq) (by simp [hhalted])
    rw [h]
    exact ⟨rfl, rfl, rfl, rfl⟩

theorem ordered_start {config : Config} {network : σ} (h : start config network = .ok s) : s.Ordered := by
  refine ⟨consistent_start h, fun hhalted => ?_⟩
  obtain ⟨url, -, rfl⟩ := start_eq_ok h
  cases hhalted

theorem config_start {config : Config} {network : σ} (h : start config network = .ok s) :
    s.config = config := by
  obtain ⟨url, -, rfl⟩ := start_eq_ok h
  rfl

/-- At all times of a session that is to stop at its first error, and does so: turns find it halted when
they call scripts, change what is shown, or start an action list exactly if a timer fires that was due
together with one before it whose callback has failed, or an action list is started from outside. -/
theorem halted_sessions_rest_iff (config : Config) (network : σ) (first : Session σ)
    (hstart : start config network = .ok first) (hfast : config.failFast = true) (turns : List (Turn σ)) :
    (∀ done turn rest, turns = done ++ turn :: rest →
      (first.afterAll transport done).Rests transport turn) ↔
    ∀ done turn rest, turns = done ++ turn :: rest → let s := first.afterAll transport done
      (turn = .timers → s.Unbroken) ∧ ∀ actions caller, turn = .start actions caller → s.halted = false := by
  have hconfig (done : List (Turn σ)) : (first.afterAll transport done).config.failFast = true := by
    rw [config_afterAll, config_start hstart, hfast]
  constructor
  · intro hrests done turn rest hturns s
    have h := hrests done turn rest hturns
    constructor
    · rintro rfl
      exact (unbroken_iff (hconfig done)).mp h.calls
    · rintro actions caller rfl
      by_contra hhalted
      obtain ⟨-, -, -, hnext⟩ := h.still (by simpa using hhalted) rfl
      exact Nat.succ_ne_self _ hnext
  · intro hcauses
    have hordered (done : List (Turn σ)) :
        ∀ rest, turns = done ++ rest → (first.afterAll transport done).Ordered := by
      induction done using List.reverseRecOn with
      | nil => exact fun _ _ => ordered_start hstart
      | append_singleton done turn ih =>
        intro rest hturns
        rw [List.append_assoc, List.singleton_append] at hturns
        rw [afterAll, List.foldl_append]
        exact orders_after transport (hcauses done turn rest hturns).2 (ih _ hturns)
    intro done turn rest hturns
    obtain ⟨htimers, hstarts⟩ := hcauses done turn rest hturns
    exact rests_of_ordered transport (hordered done _ hturns) (hconfig done) htimers hstarts

section examples

/-- A page with two timers that are due together. -/
def twoTimers (first second : String) : String :=
  "<celx><page><script>timeout(function() " ++ first ++ " end, 0) timeout(function() " ++ second ++
    " end, 0)</script></page></celx>"

/-- The first of two callbacks fails and halts the session, and the second is called all the same. -/
theorem failed_timer_fires_next : ∃ first, start {} () = .ok first ∧
    let site := serving (twoTimers "error()" "alert(1)")
    let s := first.afterAll site [.route "/p" false]
    s.config.failFast = true ∧ (s.invocations .timers).map (·.halted) = [false, true] ∧
      (s.after site .timers).halted = true ∧ (s.after site .timers).errors.length = 1 ∧
      s.alerts = [] ∧ (s.after site .timers).alerts = ["1"] ∧
      s.tree.pinned = [] ∧ (s.after site .timers).tree.pinned.length = 1 := by
  exact exists_start (by decide +kernel)

/-- A session that the last of its timers halts is at rest. -/
theorem failed_last_timer_rests : ∃ first, start {} () = .ok first ∧
    let site := serving (twoTimers "alert(1)" "error()")
    let turns : List (Turn Unit) := [.route "/p" false, .timers, .timers]
    ({} : Config).failFast = true ∧ (first.afterAll site [.route "/p" false, .timers]).halted = true ∧
      ∀ done turn rest, turns = done ++ turn :: rest → (first.afterAll site done).Rests site turn := by
  obtain ⟨first, hstart, hunbroken, hhalted⟩ := exists_start (p := fun first =>
    let site := serving (twoTimers "alert(1)" "error()")
    (first.afterAll site [.route "/p" false]).Unbroken ∧
      (first.afterAll site [.route "/p" false, .timers]).halted = true) (by decide +kernel)
  refine ⟨first, hstart, rfl, hhalted, ?_⟩
  refine (halted_sessions_rest_iff _ {} () first hstart rfl _).mpr fun done turn rest hturns => ?_
  have hmem : turn ∈ [.route "/p" false, .timers, .timers] := by simp [hturns]
  refine ⟨?_, by rintro actions caller rfl; simp at hmem⟩
  rintro rfl
  match done, hturns with
  | [], h => cases h
  | [_], h =>
    cases h
    exact hunbroken
  | [_, _], h =>
    cases h
    exact unbroken_of_halted hhalted
  | _ :: _ :: _ :: _, h => simp at h

end examples

end Hypermedia.Session
