import Hypermedia.Widget.Tree
import Hypermedia.Widget.Selector

/-! Finding widgets by selector. -/
namespace Hypermedia

/-- Whether a widget's own fields satisfy a compound; states are not looked at. -/
def Compound.matches (c : Compound) (t : Tree) (id : WidgetId) : Bool :=
  match t.get? id with
  | none => false
  | some w =>
    c.kind.all (fun kind => Text.sameLetters kind.toList w.kind.name.toList) &&
    c.eid.all (fun eid => w.eid == some eid) &&
    c.identity.all (fun n => id.index == n) &&
    c.groups.all (fun group => w.groups.contains group)

/-- Whether the parts, innermost first, are satisfied going up a chain of widgets. -/
def Selector.ascend (t : Tree) : List Compound → List WidgetId → Bool
  | [], _ => true
  | _ :: _, [] => false
  | part :: parts, id :: ids =>
    if part.matches t id then ascend t parts ids else ascend t (part :: parts) ids

def Selector.matches (s : Selector) (t : Tree) (id : WidgetId) : Bool :=
  s.subject.matches t id && ascend t s.above.reverse (t.ancestors id)

namespace Tree

def addNew (found : List WidgetId) (id : WidgetId) : List WidgetId :=
  if found.contains id then found else found ++ [id]

/-- All matches under the given roots, each once, in order of the first visit. -/
def findAll (t : Tree) (s : Selector) (roots : List WidgetId) : List WidgetId :=
  ((roots.flatMap t.descendants).filter (s.matches t)).foldl addNew []

def find? (t : Tree) (s : Selector) (roots : List WidgetId) : Option WidgetId :=
  (roots.flatMap t.descendants).find? (s.matches t)

end Tree

end Hypermedia
