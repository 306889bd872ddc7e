import Hypermedia.Script.Field
import Hypermedia.Style.Value
import Hypermedia.Widget.Blueprint

/-! What scripts may ask of a session. -/
namespace Hypermedia.Script

inductive Service where
  | readField (widget : WidgetId) (name : String)
  | writeField (widget : WidgetId) (name : String) (offer : Offer)
  | find (selector : String)
  | alert (message : String)
  | style (widget : WidgetId) (property : String) (value : Style.Value)
  | schedule (callback : FunctionId) (milliseconds : Float) (scope : ScopeId)
  | act (actions : List Action.Instruction) (caller : WidgetId)
  | build (blueprint : Widget.Blueprint)
  | pin (widget : WidgetId)
  | dismiss (widget : WidgetId)
  | append (parent child : WidgetId)

/-- Where scripts run: how requests are met, and the scopes that are kept alive. -/
structure Host (σ : Type) where
  perform : Service → σ → Except String Field × σ
  held : σ → List ScopeId

/-- The host of scripts that run outside any session. -/
def Host.absent (held : List ScopeId) : Host Unit where
  perform := fun _ s => (.error "no session to run against", s)
  held := fun _ => held

end Hypermedia.Script
