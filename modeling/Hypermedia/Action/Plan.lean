import Hypermedia.Action.Instruction
import Hypermedia.Network.Request
import Hypermedia.Network.Response
import Hypermedia.Widget.Tree

/-! Plans: what the steps of an action list ask for, one question after another. -/
namespace Hypermedia.Action

def Instruction.illegal (i : Instruction) : ActionError :=
  .unknownModifier i.verb.text (i.modifier.getD "")

/-- The structural edit that a tree-edit instruction performs. -/
def Instruction.edit (i : Instruction) : Except ActionError Edit :=
  match i.placement? with
  | none => .error i.illegal
  | some placement =>
    match i.verb, placement with
    | .swap, .replace => .ok .replace
    | .swap, .inside => .ok .replaceChildren
    | .swap, .before => .ok .before
    | .insert, .before => .ok .before
    | .swap, .after => .ok .after
    | .insert, .after => .ok .after
    | .insert, .inside => .ok .prepend
    | .insert, .replace => .error (.missingModifier i.verb.text)
    | .append, .inside => .ok .append
    | .append, .replace => .ok .append
    | _, _ => .error i.illegal

/-- A question of a step to the session that runs it. -/
inductive Ask where
  /-- The data of the widget a selector finds, or of the caller's surroundings. -/
  | requestBody (caller : WidgetId) (selector : Option String)
  /-- Makes a detached fragment of a response. -/
  | loadFragment (response : Network.Response)
  /-- The matches of a selector below a widget, or in the document. -/
  | select (selector : String) (within : Option WidgetId)
  | isContainer (widget : WidgetId)
  | query (widget : WidgetId)
  | edit (result target : WidgetId) (edit : Edit)

abbrev Ask.Answer : Ask → Type
  | requestBody _ _ => Json
  | loadFragment _ => WidgetId
  | select _ _ => List WidgetId
  | isContainer _ => Bool
  | query _ => String
  | edit _ _ _ => Unit

/-- A request as an action list words it. -/
structure Call where
  verb : Verb
  endpoint : String
  body : Json

/-- The rest of a step: its result, an error, or what it waits for and what follows from that. -/
inductive Plan (α : Type) where
  | done (result : α)
  | fail (error : Error)
  | fetch (call : Call) (k : Network.Response → Plan α)
  | ask (question : Ask) (k : question.Answer → Plan α)

/-- What answers the questions of plans and fetches for them. -/
structure Host (σ : Type) where
  fetch : Call → σ → Except Error Network.Response × σ
  answer : (q : Ask) → σ → Except Error q.Answer × σ

namespace Plan

variable {α β : Type}

def bind : Plan α → (α → Plan β) → Plan β
  | done a, f => f a
  | fail e, _ => fail e
  | fetch c k, f => fetch c fun response => (k response).bind f
  | ask q k, f => ask q fun answer => (k answer).bind f

instance : Monad Plan where
  pure := done
  bind := bind

instance : Inhabited (Plan α) := ⟨fail (.network .cancelled)⟩

def put (q : Ask) : Plan q.Answer := ask q done

/-- What follows from an answer; an error ends it. -/
def resume (k : β → Plan α) : Except Error β → Plan α
  | .ok answer => k answer
  | .error e => fail e

/-- Runs a plan with a host that has every answer at once. -/
def run {σ : Type} (host : Host σ) : Plan α → σ → Except Error α × σ
  | done a, s => (.ok a, s)
  | fail e, s => (.error e, s)
  | fetch c k, s =>
    match host.fetch c s with
    | (.ok response, s) => (k response).run host s
    | (.error e, s) => (.error e, s)
  | ask q k, s =>
    match host.answer q s with
    | (.ok answer, s) => (k answer).run host s
    | (.error e, s) => (.error e, s)

end Plan

namespace Instruction

/-- Sends a request and makes a fragment of its answer, which becomes the result. -/
def remoteCall (i : Instruction) (caller : WidgetId) : Plan (Option WidgetId) := do
  let body ← Plan.put (.requestBody caller i.modifier)
  let response ← Plan.fetch ⟨i.verb, i.argument, body⟩ .done
  if response.isSuccess then return some (← Plan.put (.loadFragment response))
  else .fail (.network (.http response.status response.url))

def firstMatch (selector : String) (within : Option WidgetId) : Plan WidgetId := do
  match ← Plan.put (.select selector within) with
  | id :: _ => return id
  | [] => .fail (.selection (.noMatch selector))

/-- Narrows the result to its first part that a selector matches. -/
def narrow (i : Instruction) : Option WidgetId → Plan (Option WidgetId)
  | none => .fail (.selection .noResult)
  | some result => some <$> firstMatch i.argument (some result)

/-- Fails if an edit changes the children of a target that holds none. -/
def requireContainer (target : WidgetId) (edit : Edit) : Plan Unit :=
  if edit.changesChildren then do
    if ← Plan.put (.isContainer target) then return ()
    else .fail (.selection (.notContainer (← Plan.put (.query target))))
  else return ()

/-- Places the result relative to a target in the document. -/
def treeEdit (i : Instruction) : Option WidgetId → Plan (Option WidgetId)
  | none => .fail (.selection .noResult)
  | some result => do
    let target ← firstMatch i.argument none
    match i.edit with
    | .error e => .fail (.action e)
    | .ok edit =>
      requireContainer target edit
      Plan.put (.edit result target edit)
      return some result

/-- What a step does on behalf of a widget, given the result so far. -/
def plan (i : Instruction) (caller : WidgetId) (result : Option WidgetId) :
    Plan (Option WidgetId) :=
  if i.verb.isRemote then i.remoteCall caller
  else if i.verb = .select then i.narrow result
  else i.treeEdit result

end Instruction

/-- Runs steps up to the first error; the result is that of the last step that succeeded. -/
def runAll {σ : Type} (host : Host σ) (caller : WidgetId) :
    List Instruction → Option WidgetId → σ → Except Error Unit × Option WidgetId × σ
  | [], result, s => (.ok (), result, s)
  | i :: rest, result, s =>
    match (i.plan caller result).run host s with
    | (.ok result, s) => runAll host caller rest result s
    | (.error e, s) => (.error e, result, s)

end Hypermedia.Action
