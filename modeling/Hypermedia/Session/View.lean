import Hypermedia.Script.Path
import Hypermedia.Session.Scripting
import Hypermedia.Widget.Contents

/-! What a session shows: contents with the values of their placeholders, outlines and styles. -/
namespace Hypermedia.Session

variable {σ : Type}

/-- The content that a widget shows; in one that has a scope, placeholders are filled. To look at a
session does not change it: what functions on the way to a value write is forgotten. -/
def renderContent (s : Session σ) (id : WidgetId) : Except Error (Option String) := do
  let w ← Except.widen .selection (s.tree.widget id)
  match w.content, w.scope with
  | some text, some scope =>
    let shown ← Except.widen .compile
      (s.world.interpolate s.heldScopes s.tree scope id text)
    return some shown
  | content, _ => return content

def outlineOf (s : Session σ) (id : WidgetId) : Except Error String :=
  s.tree.outline s.renderContent id

def outline (s : Session σ) : Except Error String :=
  match s.tree.root with
  | some root => s.outlineOf root
  | none => .ok ""

def styleOf (s : Session σ) (id : WidgetId) : Style.Properties :=
  s.rules.compute s.tree id

def property? (s : Session σ) (name : String) : Option String :=
  s.page.bind (·.properties.lookup name)

def resolvePath (s : Session σ) (scope : ScopeId) (path : String) : Option String :=
  s.world.resolve s.heldScopes s.tree scope path

end Hypermedia.Session
