/-! The kinds of widgets, and the names of their events. -/
namespace Hypermedia.Widget

/-- What a widget is; each kind has a markup tag. -/
inductive Kind where
  | text | button | link | field | checkbox | slider
  | tower | row | container | dialogue
  deriving DecidableEq, Repr, Inhabited

namespace Kind

def all : List Kind :=
  [text, button, link, field, checkbox, slider, tower, row, container, dialogue]

def name : Kind → String
  | text => "Text"
  | button => "Button"
  | link => "Link"
  | field => "Field"
  | checkbox => "Checkbox"
  | slider => "Slider"
  | tower => "Tower"
  | row => "Row"
  | container => "Container"
  | dialogue => "Dialogue"

def ofTag? (tag : String) : Option Kind :=
  all.find? fun kind => kind.name.toList.map Char.toLower == tag.toList.map Char.toLower

def isContainer : Kind → Bool
  | tower | row | container | dialogue => true
  | _ => false

end Kind

end Hypermedia.Widget

namespace Hypermedia

/-- Names that bind to events start with `on` or `pre`. -/
def isEventName (name : String) : Bool :=
  "on".toList.isPrefixOf name.toList || "pre".toList.isPrefixOf name.toList

def isEventChar (c : Char) : Bool :=
  c.isAlphanum || c == '_'

def eventPart? (name : String) : Option (List Char) :=
  match "on_".toList.isPrefixOf? name.toList with
  | some event => some event
  | none => "pre_".toList.isPrefixOf? name.toList

def isValidEvent (name : String) : Bool :=
  match eventPart? name with
  | some event => !event.isEmpty && event.all isEventChar
  | none => false

end Hypermedia
