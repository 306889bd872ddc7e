import Hypermedia.Proofs.Effect
import Hypermedia.Proofs.Script.Chains
import Hypermedia.Proofs.Script.Requests
import Hypermedia.Proofs.Tree.Extension
import Hypermedia.Session.Schedule

/-! What the scripts of a session ask for, and where a step leads that runs them: wherever their
requests lead, and the changes that bind them to their widgets. -/
namespace Hypermedia.Session

open Effect (Moves MovesIf thenAsks eachAsks)
open Script (Service)

variable {σ : Type}

section requests

def scriptRequests (source : String) (scope : ScopeId) (s : Session σ) : List Service :=
  s.world.executeRequests host s scope source

def handlerRequests (f : FunctionId) (arguments : List Script.Value) (scope : ScopeId)
    (s : Session σ) : List Service :=
  s.world.callRequests host s scope f arguments

/-- What the script of a widget asks for. -/
def ownScriptRequests (id : WidgetId) : Session σ → List Service :=
  thenAsks (liveWidget id) fun w s =>
    match w.script, w.scope with
    | some source, some scope => scriptRequests source scope s
    | _, _ => []

/-- What the calls of `init` ask for where handlers are bound. -/
def bindRequests (id : WidgetId) (scope : ScopeId) (query source : String) :
    List (String × Script.Value) → Session σ → List Service
  | [] => fun _ => []
  | (name, .function f) :: rest =>
    let others := bindRequests id scope query source rest
    if name = "init" then fun s =>
      handlerRequests f [] scope s ++
        thenAsks (callHandler f [] scope "init" query source) (fun _ => others) s
    else if isEventName name then
      if isValidEvent name then
        thenAsks (liveWidget id) fun _ =>
          thenAsks (modifyWidget id fun w => w.bind name (.script f)) fun _ => others
      else fun _ => []
    else others
  | _ :: rest => bindRequests id scope query source rest

def ownBindRequests (id : WidgetId) : Session σ → List Service :=
  thenAsks (liveWidget id) fun w s =>
    match w.scope with
    | none => []
    | some scope => bindRequests id scope (s.tree.query id) (w.script.getD "")
        (s.world.scopes.bindings scope) s

/-- What the scripts of new widgets ask for. -/
def widgetRequests (ids : List WidgetId) : Session σ → List Service :=
  thenAsks (ids.forM addScope) fun _ s =>
    eachAsks runOwnScript ownScriptRequests ids s ++ thenAsks (ids.forM runOwnScript)
      (fun _ => eachAsks bindOwnHandlers ownBindRequests ids.reverse) s

/-- What the scripts of a page ask for, those of its widgets included. -/
def pageRequests (page : Markup.Page) (s : Session σ) : List Service :=
  let run : String → Act σ Unit := fun source => runScript source s.document "Page"
  eachAsks run (fun source => scriptRequests source s.document) page.scripts s ++
    thenAsks (page.scripts.forM run) (fun _ => thenAsks (addRules page.rules) fun _ s =>
      match page.content with
      | some content => widgetRequests content.widgets s
      | none => []) s

end requests

section world

/-- What a script asks for changes what is on the page, or is an action list that starts or waits; a session
that is halted takes no action list. -/
theorem perform_frame (service : Service) (s : Session σ) :
    (∃ tree rules loose alerts timers,
      (perform service s).2 = { s with tree, rules, loose, alerts, timers }) ∨
    s.halted = false ∧ ((∃ actions caller, (perform service s).2 = s.startActions actions caller) ∨
      ∃ deferred, (perform service s).2 = { s with deferred }) := by
  have hplace : ∀ (r : Except SelectionError Unit × Tree) (ids : List WidgetId),
      ∃ tree loose, (s.placeWidgets r ids).2 = { s with tree, loose } := by
    rintro ⟨outcome, tree⟩ ids
    cases outcome with
    | ok => exact ⟨tree, _, rfl⟩
    | error e => exact ⟨tree, _, rfl⟩
  cases service with
  | readField id name => exact .inl ⟨_, _, _, _, _, rfl⟩
  | writeField id name offer =>
    rw [perform]
    split <;> exact .inl ⟨_, _, _, _, _, rfl⟩
  | find selector =>
    rw [perform]
    split <;> exact .inl ⟨_, _, _, _, _, rfl⟩
  | alert message => exact .inl ⟨_, _, _, _, _, rfl⟩
  | style id property value =>
    rw [perform]
    split <;> exact .inl ⟨_, _, _, _, _, rfl⟩
  | schedule callback milliseconds scope => exact .inl ⟨_, _, _, _, _, rfl⟩
  | act actions caller =>
    rw [perform]
    split
    · exact .inl ⟨_, _, _, _, _, rfl⟩
    · next hgoing =>
      refine .inr ⟨by simpa using hgoing, ?_⟩
      split
      · exact .inr ⟨_, rfl⟩
      · exact .inl ⟨actions, caller, rfl⟩
  | build b =>
    rw [perform, buildWidget]
    split
    · exact .inl ⟨_, _, _, _, _, rfl⟩
    · split <;> exact .inl ⟨_, _, _, _, _, rfl⟩
  | pin id =>
    obtain ⟨tree, loose, h⟩ := hplace (s.tree.pin id) [id]
    exact .inl ⟨tree, _, loose, _, _, h⟩
  | dismiss id => exact .inl ⟨_, _, _, _, _, rfl⟩
  | append parent child =>
    obtain ⟨tree, loose, h⟩ := hplace (s.tree.append parent child) [child]
    exact .inl ⟨tree, _, loose, _, _, h⟩

/-- Scripts have the world to themselves: requests to the session leave it alone. -/
theorem world_perform (service : Service) (s : Session σ) : (perform service s).2.world = s.world := by
  rcases perform_frame service s with ⟨_, _, _, _, _, h⟩ | ⟨-, ⟨_, _, h⟩ | ⟨_, h⟩⟩ <;>
    exact (congrArg Session.world h).trans rfl

private def SameWorld (s t : Session σ) : Prop :=
  t.world = s.world

private instance : IsPreorder (Session σ) SameWorld where
  refl _ := rfl
  trans _ _ _ h k := Eq.trans k h

variable (s : Session σ) (scope : ScopeId)

/-- What is put together after a script are the session and a world that comes after its own. -/
theorem world_execute (source : String) :
    let r := s.world.execute host s scope source
    r.2.2.world.scopes.Follows r.2.1.scopes := by
  have hworld : s.SameWorld (s.world.execute host s scope source).2.2 :=
    Script.World.execute_requests (P := fun _ => True) (fun service s _ => world_perform service s)
      s.world s scope source fun _ _ => trivial
  dsimp only
  rw [hworld]
  exact s.world.execute_scopes s scope source

theorem world_callFunction (f : FunctionId) (arguments : List Script.Value) :
    let r := s.world.callFunction host s scope f arguments
    r.2.2.world.scopes.Follows r.2.1.scopes := by
  have hworld : s.SameWorld (s.world.callFunction host s scope f arguments).2.2 :=
    Script.World.callFunction_requests (P := fun _ => True)
      (fun service s _ => world_perform service s) s.world s scope f arguments fun _ _ => trivial
  dsimp only
  rw [hworld]
  exact s.world.callFunction_scopes s scope f arguments

end world

/-- What scripts do to a session, by requests of a kind and by handlers for widgets of a kind, leads along
a relation. -/
structure Carries (R : Session σ → Session σ → Prop) (P : Service → Prop) (Q : WidgetId → Prop) :
    Prop where
  perform : ∀ service s, P service → R s (perform service s).2
  world : ∀ (s : Session σ) world, s.world.scopes.Follows world.scopes → R s { s with world }
  rules : ∀ (s : Session σ) rules, R s { s with rules }
  bind : ∀ (s : Session σ) id name f, Q id → isValidEvent name = true →
    R s { s with tree := s.tree.modify id fun w => w.bind name (.script f) }

/-- Moreover giving scopes to widgets of the kind does. -/
structure Binds (R : Session σ → Session σ → Prop) (P : Service → Prop) (Q : WidgetId → Prop) : Prop
    extends Carries R P Q where
  scope : ∀ (s : Session σ) id (scope : Option ScopeId), Q id →
    R s { s with tree := s.tree.modify id fun w => { w with scope } }

variable {R : Session σ → Session σ → Prop} [IsPreorder (Session σ) R] {P : Service → Prop}
  {Q : WidgetId → Prop}

theorem moves_lift {ε α : Type} (into : ε → Error) (r : Except ε α) :
    Moves R (lift into r : Act σ α) := by
  cases r with
  | ok a => exact Effect.moves_pure a
  | error e => exact Effect.moves_throw (into e)

theorem moves_addRules (h : ∀ (s : Session σ) rules, R s { s with rules }) (rules : Style.RuleMap) :
    Moves R (addRules rules : Act σ Unit) :=
  Effect.moves_get_bind fun s => Effect.moves_set_bind (h s _) (moves_lift _ _)

theorem moves_liveWidget (id : WidgetId) : Moves R (liveWidget id : Act σ Widget) :=
  Effect.moves_get_bind fun s => moves_lift Error.selection _ s

theorem run_modifyWorld_bind {α β : Type} (f : Script.World → α × Script.World) (g : α → Act σ β) (s : Session σ) :
    (modifyWorld f >>= g) s = g (f s.world).1 { s with world := (f s.world).2 } := rfl

theorem run_liveWidget_bind {α : Type} (x : WidgetId) (g : Widget → Act σ α) (s : Session σ) :
    (liveWidget x >>= g) s = match s.tree.widget x with
      | .ok w => g w s
      | .error e => (.error (.selection e), s) := by
  have hlive : liveWidget x s = (lift .selection (s.tree.widget x) : Act σ Widget) s := rfl
  rw [Effect.run_bind, hlive]
  cases s.tree.widget x <;> rfl

namespace Carries

variable (h : Carries R P Q)

include h

/-- The world goes one way and the state of the session another, and both are put together. -/
theorem outcome {α : Type} (handler widget source : String) {s : Session σ}
    {r : Except Script.Failure α × Script.World × Session σ} (hr : R s r.2.2)
    (hworld : r.2.2.world.scopes.Follows r.2.1.scopes) :
    R s (outcome handler widget source r s).2 := by
  obtain ⟨result, world, t⟩ := r
  exact Effect.moves_set_bind (IsTrans.trans _ _ _ hr (h.world t world hworld)) (moves_lift _ result)

theorem runScript (source : String) (scope : ScopeId) (widget : String) :
    MovesIf R P (runScript source scope widget : Act σ Unit) (scriptRequests source scope) := by
  refine Effect.movesIf_get_bind fun s hs => ?_
  have hrun : R s (s.world.execute host s scope source).2.2 :=
    Script.World.execute_requests h.perform s.world s scope source hs
  exact Effect.moves_bind_at (h.outcome _ _ _ hrun (world_execute s scope source))
    fun _ => Effect.moves_pure _

theorem callHandler (f : FunctionId) (arguments : List Script.Value) (scope : ScopeId)
    (handler widget source : String) :
    MovesIf R P (callHandler f arguments scope handler widget source : Act σ Script.Value)
      (handlerRequests f arguments scope) := by
  refine Effect.movesIf_get_bind fun s hs => ?_
  have hrun : R s (s.world.callFunction host s scope f arguments).2.2 :=
    Script.World.callFunction_requests h.perform s.world s scope f arguments hs
  exact Effect.moves_bind_at (h.outcome _ _ _ hrun (world_callFunction s scope f arguments))
    fun _ => Effect.moves_pure _

theorem modifyWorld {α : Type} {f : Script.World → α × Script.World}
    (hf : ∀ w : Script.World, w.scopes.Follows (f w).2.scopes) : Moves R (modifyWorld f : Act σ α) :=
  Effect.moves_get_bind fun s =>
    Effect.moves_set_bind (h.world s (f s.world).2 (hf s.world)) (Effect.moves_pure _)

theorem widgetHandle (id : WidgetId) : Moves R (widgetHandle id : Act σ Script.Value) :=
  h.modifyWorld fun _ => .refl

theorem runOwnScript (id : WidgetId) :
    MovesIf R P (runOwnScript id : Act σ Unit) (ownScriptRequests id) := by
  refine Effect.movesIf_then (moves_liveWidget id) fun w => ?_
  cases w.script with
  | none => exact (Effect.moves_pure _).movesIf _
  | some source =>
    cases w.scope with
    | none => exact (Effect.moves_pure _).movesIf _
    | some scope => exact Effect.movesIf_get_bind fun s hs => h.runScript source scope _ s hs

theorem bindHandlers {id : WidgetId} (hid : Q id) (scope : ScopeId) (query source : String)
    (bindings : List (String × Script.Value)) :
    MovesIf R P (bindHandlers id scope query source bindings : Act σ Unit)
      (bindRequests id scope query source bindings) := by
  induction bindings with
  | nil => exact (Effect.moves_pure _).movesIf _
  | cons binding rest ih =>
    obtain ⟨name, value⟩ := binding
    cases value with
    | function f =>
      unfold Session.bindHandlers bindRequests
      dsimp only
      split
      · exact Effect.movesIf_bind (h.callHandler _ _ _ _ _ _) fun _ => ih
      split
      · split
        · next hvalid =>
          refine Effect.movesIf_then (moves_liveWidget id) fun _ => ?_
          exact Effect.movesIf_then (Effect.moves_modify fun s => h.bind s id name f hid hvalid) fun _ => ih
        · exact fun s _ => Std.Refl.refl s
      · exact ih
    | _ => exact ih

theorem bindOwnHandlers {id : WidgetId} (hid : Q id) :
    MovesIf R P (bindOwnHandlers id : Act σ Unit) (ownBindRequests id) := by
  refine Effect.movesIf_then (moves_liveWidget id) fun w => ?_
  cases w.scope with
  | none => exact (Effect.moves_pure _).movesIf _
  | some scope => exact Effect.movesIf_get_bind fun s hs => h.bindHandlers hid _ _ _ _ s hs

/-- What new widgets do once they have their scopes. -/
theorem runWidgets {ids : List WidgetId} (hids : ∀ id ∈ ids, Q id) :
    MovesIf R P (do ids.forM Session.runOwnScript; ids.reverse.forM Session.bindOwnHandlers : Act σ Unit)
      fun s => eachAsks Session.runOwnScript ownScriptRequests ids s ++
        thenAsks (ids.forM Session.runOwnScript)
          (fun _ => eachAsks Session.bindOwnHandlers ownBindRequests ids.reverse) s := by
  refine Effect.movesIf_bind (Effect.movesIf_each ids fun id _ => h.runOwnScript id) fun _ => ?_
  refine Effect.movesIf_each ids.reverse fun id hid => h.bindOwnHandlers (hids id ?_)
  exact List.mem_reverse.mp hid

end Carries

namespace Binds

variable (h : Binds R P Q)

include h

theorem addScope {id : WidgetId} (hid : Q id) : Moves R (addScope id : Act σ Unit) := by
  refine Effect.moves_get_bind fun s => ?_
  refine Effect.moves_bind_at (h.modifyWorld (fun w => ?_) s) fun scope => ?_
  · exact (Script.Scopes.Step.add w.scopes _).follows.trans (Script.Scopes.Step.house _ _ (some id)).follows
  refine Effect.moves_bind (h.widgetHandle id) fun self => ?_
  refine Effect.moves_bind (h.modifyWorld fun w => ?_) fun _ => ?_
  · exact (Script.Scopes.Step.define w.scopes scope "self" self).follows
  refine Effect.moves_bind (moves_liveWidget id) fun _ => ?_
  exact Effect.moves_modify fun s => h.scope s id (some scope) hid

theorem bindScripts {ids : List WidgetId} (hids : ∀ id ∈ ids, Q id) :
    MovesIf R P (bindScripts ids : Act σ Unit) (widgetRequests ids) := by
  refine Effect.movesIf_then (Effect.moves_forM ids fun id hid => h.addScope (hids id hid)) fun _ => ?_
  exact h.runWidgets hids

theorem runPage {page : Markup.Page}
    (hids : ∀ content, page.content = some content → ∀ id ∈ content.widgets, Q id) :
    MovesIf R P (runPage page : Act σ Unit) (pageRequests page) := by
  refine Effect.movesIf_get_bind fun s hs => ?_
  refine Effect.movesIf_bind (Effect.movesIf_each _ fun source _ => h.runScript _ _ _) (fun _ => ?_) s hs
  refine Effect.movesIf_then (moves_addRules h.rules _) fun _ => ?_
  cases hcontent : page.content with
  | none => exact (Effect.moves_pure _).movesIf _
  | some content => exact h.bindScripts (hids content hcontent)

end Binds

section reporting

variable (h : Carries R (fun _ => True) (fun _ => True)) (hreport : ∀ (s : Session σ) e, R s (s.report e))

include hreport in
theorem moves_reporting {α : Type} {step : Act σ α} (hstep : Moves R step)
    (s : Session σ) : R s (reporting step s).2 := by
  have hs := hstep s
  unfold reporting
  split
  · next hr =>
    rw [hr] at hs
    exact hs
  · next hr =>
    rw [hr] at hs
    exact IsTrans.trans _ _ _ hs (hreport _ _)

include h hreport

theorem Carries.dispatch
    (hstart : ∀ (s : Session σ) actions caller, s.halted = false → R s (s.startActions actions caller))
    (id : WidgetId) (event : String) : Moves R (dispatch id event : Act σ Bool) := by
  refine Effect.moves_get_bind fun s => ?_
  dsimp only
  split
  · exact Effect.moves_pure _ s
  next hgoing =>
    rw [run_liveWidget_bind]
    cases s.tree.widget id with
    | error e => exact Std.Refl.refl s
    | ok w =>
      dsimp only
      cases w.binding? event with
      | none => exact Effect.moves_pure _ s
      | some binding =>
        cases binding with
        | actions actions => exact hstart s actions id (by simpa using hgoing)
        | script f =>
          refine Effect.moves_bind_at (h.widgetHandle id s) fun handle => ?_
          have hcall : Moves R (liftM (reporting (Session.callHandler f [handle] (s.scopeFor id) event
              (s.tree.query id) (w.script.getD "") : Act σ Script.Value)) : Act σ (Option Script.Value)) :=
            moves_reporting hreport ((h.callHandler _ _ _ _ _ _).moves fun _ => trivial)
          refine Effect.moves_bind hcall fun value => ?_
          split <;> exact Effect.moves_pure _

theorem Carries.fire (timer : Timer) (s : Session σ) : R s (fire timer s).2 :=
  moves_reporting hreport ((h.callHandler _ _ _ _ _ _).moves fun _ => trivial) s

theorem Carries.fireAll (timers : List Timer) (s : Session σ) :
    R s ((timers.forM Session.fire).run s).2 := by
  induction timers generalizing s with
  | nil => exact Std.Refl.refl s
  | cons timer timers ih => exact IsTrans.trans _ _ _ (h.fire hreport timer s) (ih _)

theorem Carries.fireTimers (htimers : ∀ (s : Session σ) timers, R s { s with timers }) (s : Session σ) :
    R s s.fireTimers := by
  unfold Session.fireTimers
  split
  · exact htimers s []
  · exact IsTrans.trans _ _ _ (htimers s _) (h.fireAll hreport _ _)

end reporting

end Hypermedia.Session
