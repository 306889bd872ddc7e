import Hypermedia.Widget.Tree

/-! Widgets described before they are built. -/
namespace Hypermedia.Widget

/-- A widget to build, and the widgets it takes as its children. -/
structure Blueprint where
  kind : Kind
  content : Option String := none
  eid : Option String := none
  groups : List String := []
  attributes : List (String × Attribute) := []
  children : List WidgetId := []
  handlers : List (String × Binding) := []

namespace Blueprint

def widget (b : Blueprint) : Widget :=
  let w : Widget := { kind := b.kind, eid := b.eid, groups := b.groups, content := b.content }
  let w := b.attributes.foldl (fun w a => w.setAttribute a.1 (some a.2)) w
  b.handlers.foldl (fun w h => w.bind h.1 h.2) w

/-- Builds a widget and moves its children into it; if one cannot be moved, the widget is removed
again. -/
def build (b : Blueprint) (t : Tree) : Except SelectionError WidgetId × Tree :=
  let (id, t) := t.construct b.widget
  match t.appendAll id b.children with
  | (.ok (), t) => (.ok id, t)
  | (.error e, t) => (.error e, t.remove id)

end Blueprint

end Hypermedia.Widget
