import Hypermedia.Widget.Tree

/-! Operations of a tree as data, and the tree after a run of them. -/
namespace Hypermedia

/-- Whether a widget is as it was made: no link leads from it. -/
def Widget.IsUnlinked (w : Widget) : Prop :=
  w.parent = none ∧ w.children = []

namespace Tree

/-- What can be done to a tree; the places need not hold widgets. -/
inductive Operation where
  | construct (w : Widget) (unlinked : w.IsUnlinked)
  | append (parent child : WidgetId)
  | insert (parent : WidgetId) (index : Nat) (child : WidgetId)
  | replace (target new : WidgetId)
  | setChildren (parent : WidgetId) (children : List WidgetId)
  | place (id target : WidgetId) (edit : Edit)
  | detach (id : WidgetId)
  | remove (id : WidgetId)
  | setRoot (root : Option WidgetId)
  | takeRoot
  | pin (id : WidgetId)
  | dismiss (id : WidgetId)
  | clearPinned

/-- The outcome of an operation, and the tree it leaves, also where it fails. -/
def perform (t : Tree) : Operation → Except SelectionError Unit × Tree
  | .construct w _ => (.ok (), (t.construct w).2)
  | .append parent child => t.append parent child
  | .insert parent index child => t.insert parent index child
  | .replace target new => t.replace target new
  | .setChildren parent children => t.setChildren parent children
  | .place id target edit => t.place id target edit
  | .detach id => (.ok (), t.detach id)
  | .remove id => (.ok (), t.remove id)
  | .setRoot root => (.ok (), t.setRoot root)
  | .takeRoot => (.ok (), t.takeRoot.2)
  | .pin id => t.pin id
  | .dismiss id => (.ok (), (t.dismiss id).2)
  | .clearPinned => (.ok (), t.clearPinned)

def after (t : Tree) (op : Operation) : Tree :=
  (t.perform op).2

def afterAll (t : Tree) (ops : List Operation) : Tree :=
  ops.foldl after t

end Tree

end Hypermedia
