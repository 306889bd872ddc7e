import Hypermedia.Widget.Tree

/-! Fields of widgets as scripts read and write them. -/
namespace Hypermedia.Script

inductive Field where
  | nothing
  | value (value : Widget.Attribute)
  | widget (id : WidgetId)
  | widgets (ids : List WidgetId)
  | words (words : List String)
  | scope (id : ScopeId)

/-- A value on its way into a field: its text unless it is `nil`, and what else it can be read
as. -/
structure Offer where
  text : Option String
  datum : Option Widget.Attribute
  words : Except String (List String)
  typeName : String

namespace Field

def ofText : Option String → Field
  | some s => value (.str s)
  | none => nothing

def isPrivate (name : String) : Bool :=
  ['_'].isPrefixOf name.toList

def denied (name : String) : String :=
  "access to attribute '" ++ name ++ "' is denied"

def ofWidget (t : Tree) (id : WidgetId) (w : Widget) (name : String) : Field :=
  if name = "content" then ofText w.content
  else if name = "eid" then ofText w.eid
  else if name = "kind" then ofText (some w.kind.name)
  else if name = "selector" then ofText (some (t.query id))
  else if name = "groups" then words w.groups
  else if name = "parent" then (w.parent.map widget).getD nothing
  else if name = "children" then widgets w.children
  else if name = "checked" ∧ w.kind = .checkbox then value (.bool w.isChecked)
  else if name = "scope" then (w.scope.map scope).getD nothing
  else ((w.attribute? name).map value).getD nothing

def read (t : Tree) (id : WidgetId) (name : String) : Except String Field :=
  if isPrivate name then .error (denied name)
  else match t.get? id with
    | some w => .ok (ofWidget t id w name)
    | none => .error (SelectionError.detached id.index).message

def readOnly : List String :=
  ["kind", "parent", "children", "selector", "scope"]

def writeTo (w : Widget) (name : String) (offer : Offer) : Except String Widget := do
  if name = "content" then return { w with content := offer.text }
  else if name = "eid" then return { w with eid := offer.text }
  else if name = "groups" then return { w with groups := ← offer.words }
  else if readOnly.contains name then
    throw ("widget field '" ++ name ++ "' is read-only")
  else if isPrivate name then throw (denied name)
  else if offer.text.isNone then return w.setAttribute name none
  else match offer.datum with
    | some a => return w.setAttribute name (some a)
    | none =>
      throw ("cannot store a " ++ offer.typeName ++ " value in attribute '" ++ name ++ "'")

def write (t : Tree) (id : WidgetId) (name : String) (offer : Offer) : Except String Tree :=
  match t.widget id with
  | .error e => .error e.message
  | .ok w => (writeTo w name offer).map fun w => t.modify id fun _ => w

/-- The text shown for a field; a field that holds nothing has none. -/
def text? : Field → Option String
  | nothing => none
  | value a => some a.text
  | widget id => some ("widget: " ++ id.text)
  | widgets ids => some (" ".intercalate (ids.map fun id => "widget: " ++ id.text))
  | words ws => some (" ".intercalate ws)
  | scope id => some ("scope: " ++ decimal id.index)

end Field

end Hypermedia.Script
