import Hypermedia.Session.State

/-! Scripts in a session: what they may do to it, and how the handlers of widgets are bound and
called. -/
namespace Hypermedia.Session

open Script (Field Service World)

variable {σ : Type}

def editTree (s : Session σ) (r : Except SelectionError Unit × Tree) :
    Except String Field × Session σ :=
  match r with
  | (.ok (), tree) => (.ok .nothing, { s with tree })
  | (.error e, tree) => (.error e.message, { s with tree })

/-- Forgets that a widget has no place. -/
def settled (s : Session σ) (ids : List WidgetId) : Session σ :=
  { s with loose := s.loose.filter fun id => !ids.contains id }

/-- Places widgets by a step of the tree; they keep none if that fails. -/
def placeWidgets (s : Session σ) (r : Except SelectionError Unit × Tree) (ids : List WidgetId) :
    Except String Field × Session σ :=
  match s.editTree r with
  | (.ok field, s) => (.ok field, s.settled ids)
  | refused => refused

/-- Builds a widget, which has no place at first. -/
def buildWidget (s : Session σ) (b : Widget.Blueprint) : Except String Field × Session σ :=
  match b.handlers.find? fun h => !isValidEvent h.1 with
  | some (event, _) => (.error (CompileError.invalidEventHandler event).message, s)
  | none =>
    match b.build s.tree with
    | (.error e, tree) => (.error e.message, { s with tree })
    | (.ok id, tree) =>
      let s := settled { s with tree } b.children
      (.ok (.widget id), { s with loose := s.loose ++ [id] })

def perform (service : Service) (s : Session σ) : Except String Field × Session σ :=
  match service with
  | .readField id name => (Field.read s.tree id name, s)
  | .writeField id name offer =>
    match Field.write s.tree id name offer with
    | .ok tree => (.ok .nothing, { s with tree })
    | .error message => (.error message, s)
  | .find selector =>
    match Selector.parse selector with
    | .ok selector => (.ok (.widgets (s.tree.findAll selector s.tree.layers)), s)
    | .error e => (.error e.message, s)
  | .alert message => (.ok .nothing, { s with alerts := s.alerts ++ [message] })
  | .style id property value =>
    match s.rules.apply (s.tree.query id) (.ofList [(property, value)]) Style.scriptPriority with
    | .ok rules => (.ok .nothing, { s with rules })
    | .error e => (.error e.message, s)
  | .schedule callback milliseconds scope =>
    let delay := if 0.0 < milliseconds then milliseconds else 0.0
    (.ok .nothing, { s with timers := s.timers ++ [⟨s.clock + delay, callback, scope⟩] })
  | .act actions caller =>
    if s.halted then (.error "session halted", s)
    else match s.deferred with
      | some lists => (.ok .nothing, { s with deferred := some (lists ++ [(actions, caller)]) })
      | none => (.ok .nothing, s.startActions actions caller)
  | .build b => s.buildWidget b
  | .pin id => s.placeWidgets (s.tree.pin id) [id]
  | .dismiss id => (.ok .nothing, { s with tree := (s.tree.dismiss id).2 })
  | .append parent child => s.placeWidgets (s.tree.append parent child) [child]

def host : Script.Host (Session σ) where
  perform := perform
  held := heldScopes

/-- The name under which errors of scripts that are no handlers are shown. -/
def scriptHandler : String := "<script>"

/-- The outcome of a script with where it failed, if it did. -/
def outcome {α : Type} (handler widget source : String)
    (r : Except Script.Failure α × World × Session σ) : Act σ α := do
  let (result, world, s) := r
  set { s with world }
  lift (fun f => .script (f.withOrigin handler widget source)) result

def runScript (source : String) (scope : ScopeId) (widget : String) : Act σ Unit := do
  let s ← get
  let _ ← outcome scriptHandler widget source (s.world.execute host s scope source)

def callHandler (f : FunctionId) (arguments : List Script.Value) (scope : ScopeId)
    (handler widget source : String) : Act σ Script.Value := do
  let s ← get
  let values ← outcome handler widget source (s.world.callFunction host s scope f arguments)
  return values.headD .nil

def modifyWorld {α : Type} (f : World → α × World) : Act σ α := do
  let s ← get
  let (a, world) := f s.world
  set { s with world }
  return a

def widgetHandle (id : WidgetId) : Act σ Script.Value :=
  modifyWorld fun w => w.addHandle (.widget id)

def liveWidget (id : WidgetId) : Act σ Widget := do
  lift .selection ((← get).tree.widget id)

def modifyWidget (id : WidgetId) (f : Widget → Widget) : Act σ Unit :=
  modify fun s => { s with tree := s.tree.modify id f }

def scopeAmong (s : Session σ) (ids : List WidgetId) : ScopeId :=
  (ids.findSome? fun id => (s.tree.get? id).bind (·.scope)).getD s.document

def scopeFor (s : Session σ) (id : WidgetId) : ScopeId :=
  s.scopeAmong (s.tree.lineage id)

/-- Gives a widget a scope inside that of the nearest widget around it. -/
def addScope (id : WidgetId) : Act σ Unit := do
  let s ← get
  let scope ← modifyWorld fun w =>
    let (scope, scopes) := w.scopes.add (some (s.scopeAmong (s.tree.ancestors id)))
    (scope, { w with scopes := scopes.modify scope fun sc => { sc with widget := some id } })
  let self ← widgetHandle id
  modifyWorld fun w => ((), { w with scopes := (w.scopes.define scope "self" self).2 })
  let _ ← liveWidget id
  modifyWidget id fun w => { w with scope := some scope }

def runOwnScript (id : WidgetId) : Act σ Unit := do
  let w ← liveWidget id
  match w.script, w.scope with
  | some source, some scope => runScript source scope ((← get).tree.query id)
  | _, _ => return ()

/-- Binds the handlers that a widget's scope defines, and calls `init`. -/
def bindHandlers (id : WidgetId) (scope : ScopeId) (query source : String) :
    List (String × Script.Value) → Act σ Unit
  | [] => return ()
  | (name, .function f) :: rest => do
    if name = "init" then
      let _ ← callHandler f [] scope "init" query source
    else if isEventName name then
      if isValidEvent name then
        let _ ← liveWidget id
        modifyWidget id fun w => w.bind name (.script f)
      else throw (.compile (.invalidEventHandler name))
    bindHandlers id scope query source rest
  | _ :: rest => bindHandlers id scope query source rest

def bindOwnHandlers (id : WidgetId) : Act σ Unit := do
  let w ← liveWidget id
  match w.scope with
  | none => return ()
  | some scope =>
    let s ← get
    bindHandlers id scope (s.tree.query id) (w.script.getD "") (s.world.scopes.bindings scope)

/-- Gives new widgets, parents first, their scopes, runs their scripts and binds their handlers;
children are bound before their parents. -/
def bindScripts (ids : List WidgetId) : Act σ Unit := do
  ids.forM addScope
  ids.forM runOwnScript
  ids.reverse.forM bindOwnHandlers

/-- Runs a step and takes note of its error. -/
def reporting {α : Type} (step : Act σ α) : Step σ (Option α) := fun s =>
  match step s with
  | (.ok a, s) => (some a, s)
  | (.error e, s) => (none, s.report e)

/-- Fires an event on a widget; the result tells whether a handler took it. -/
def dispatch (id : WidgetId) (event : String) : Act σ Bool := do
  let s ← get
  if s.halted then return false
  let w ← liveWidget id
  match w.binding? event with
  | none => return false
  | some (.actions actions) =>
    modify fun s => s.startActions actions id
    return true
  | some (.script f) =>
    let handle ← widgetHandle id
    let call : Act σ Script.Value :=
      callHandler f [handle] (s.scopeFor id) event (s.tree.query id) (w.script.getD "")
    match ← reporting call with
    | some value => return value.isTruthy
    | none => return false

end Hypermedia.Session
