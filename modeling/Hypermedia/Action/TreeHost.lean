import Hypermedia.Action.Plan
import Hypermedia.Markup.Page
import Hypermedia.Markup.Reader
import Hypermedia.Widget.Contents
import Hypermedia.Widget.Match

/-! Questions of action lists that a widget tree alone can answer. -/
namespace Hypermedia

namespace Tree

def selectAll (t : Tree) (selector : String) (within : Option WidgetId) :
    Except SelectionError (List WidgetId) := do
  let selector ← Selector.parse selector
  return t.findAll selector (within.elim t.layers ([·]))

/-- The widget whose data a request carries: the first match of a selector, or else what surrounds
the caller. -/
def dataSource (t : Tree) (caller : WidgetId) :
    Option String → Except SelectionError WidgetId
  | some selector => do
    match ← t.selectAll selector none with
    | id :: _ => return id
    | [] => throw (.noMatch selector)
  | none => return (t.parent? caller).getD caller

def requestBody (t : Tree) (caller : WidgetId) (selector : Option String) :
    Except SelectionError Json := do
  return .obj (t.serialize (← t.dataSource caller selector)).entries

def isContainer (t : Tree) (id : WidgetId) : Except SelectionError Bool := do
  return (← t.widget id).kind.isContainer

end Tree

namespace Action

/-- The markup of a response, or a text of it. -/
def responseNode (r : Network.Response) : Except CompileError Node :=
  if r.isMarkup then
    match Markup.parse r.body with
    | .ok n => .ok n
    | .error fault => .error (.markup fault)
  else .ok ((Node.ofTag "text").withText (some r.body))

/-- Compiles a response without components into a tree. -/
def fragmentOfResponse (r : Network.Response) (t : Tree) : Except Error WidgetId × Tree :=
  match responseNode r with
  | .error e => (.error (.compile e), t)
  | .ok n =>
    let (fragment, workspace) := (Markup.compileFragment n).run { tree := t }
    (fragment.map (·.root), workspace.tree)

/-- A host of action lists that is a tree and no session: nothing is bound, and no rule is
applied. -/
def treeHost {σ : Type} (fetch : Call → σ → Except NetworkError Network.Response × σ) :
    Host (Tree × σ) where
  fetch call s :=
    let (r, network) := fetch call s.2
    (Except.widen .network r, s.1, network)
  answer q s :=
    match q with
    | .requestBody caller selector => (Except.widen .selection (s.1.requestBody caller selector), s)
    | .loadFragment response =>
      let (r, tree) := fragmentOfResponse response s.1
      (r, tree, s.2)
    | .select selector within => (Except.widen .selection (s.1.selectAll selector within), s)
    | .isContainer id => (Except.widen .selection (s.1.isContainer id), s)
    | .query id => (.ok (s.1.query id), s)
    | .edit result target edit =>
      let (r, tree) := s.1.place result target edit
      (Except.widen .selection r, tree, s.2)

end Action

end Hypermedia
