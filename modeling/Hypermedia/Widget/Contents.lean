import Hypermedia.Json
import Hypermedia.Widget.Tree

/-! The contents of subtrees: outlines as text, and the data of the named widgets. -/
namespace Hypermedia.Tree

/-- The line of a widget: its selector and, when it has any, its content on one line. -/
def outlineLine (t : Tree) (id : WidgetId) (depth : Nat) (content : Option String) : List Char :=
  List.replicate (2 * depth) ' ' ++ (t.query id).toList ++
    (match content with
      | some content => ':' :: ' ' :: Text.exchange '\n' [' '] content.toList
      | none => []) ++ ['\n']

/-- The lines of a subtree to a given depth below `depth`, each child after its parent. -/
def outlineWithin (t : Tree) (render : WidgetId → Except Error (Option String)) :
    Nat → Nat → WidgetId → Except Error (List Char)
  | 0, _, _ => .ok []
  | n + 1, depth, id => do
    let content ← render id
    let below ← (t.children id).mapM (t.outlineWithin render n (depth + 1))
    return t.outlineLine id depth content ++ below.flatten

/-- The outline of a subtree, two spaces to a level, with contents as `render` gives them. -/
def outline (t : Tree) (render : WidgetId → Except Error (Option String)) (id : WidgetId) :
    Except Error String := do
  let text ← t.outlineWithin render (t.slots.size + 1) 0 id
  return String.ofList text

def rawContent (t : Tree) (id : WidgetId) : Except Error (Option String) :=
  match t.widget id with
  | .ok w => .ok w.content
  | .error e => .error (.selection e)

/-- What a named widget contributes: a checkbox its state, a slider its value, others their
content. -/
def formValue (w : Widget) : Json :=
  match w.kind with
  | .checkbox => .bool w.isChecked
  | .slider =>
    match w.attribute? "value" with
    | some value => value.toJson
    | none => .null
  | _ =>
    match w.content with
    | some content => .str content
    | none => .null

def formEntry? (t : Tree) (id : WidgetId) : Option (String × Json) := do
  let w ← t.get? id
  let name ← w.attribute? "name"
  return (name.text, formValue w)

/-- The named widgets at and below `id`, a later one in place of an earlier one of the same name. -/
def serialize (t : Tree) (id : WidgetId) : Dict Json :=
  Dict.ofList ((t.descendants id).filterMap t.formEntry?)

end Hypermedia.Tree
