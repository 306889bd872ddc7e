import Hypermedia.Markup.Node
import Hypermedia.Error

/-! Markup events: reading a stream of them as a tree, and writing a tree as such a stream. -/
namespace Hypermedia.Markup

inductive Event where
  | start (tag : String) (attributes : List (String × String))
  | single (tag : String) (attributes : List (String × String))
  | stop
  | chars (text : String)
  | aside
  deriving DecidableEq, Repr

/-- The open elements, innermost first, and the root once it is closed. -/
structure Reading where
  opened : List Node := []
  root : Option Node := none

def addChars (slot : Option String) (text : String) : Option String :=
  some (slot.getD "" ++ text)

/-- Character data goes to the tail of the last child, or to the text while there is no child. -/
def addText (n : Node) (text : String) : Node :=
  match n.children.getLast? with
  | some last =>
    n.withChildren (n.children.dropLast ++ [last.withTail (addChars last.tail text)])
  | none => n.withText (addChars n.text text)

/-- A closed element joins the innermost open one or becomes the root. -/
def Reading.close (r : Reading) (n : Node) : Except MarkupFault Reading :=
  match r.opened, r.root with
  | parent :: outer, _ =>
    .ok { r with opened := parent.withChildren (parent.children ++ [n]) :: outer }
  | [], none => .ok { r with root := some n }
  | [], some _ => .error (.secondRoot n.tag)

/-- The effect of one event; character data outside the root is dropped. -/
def Reading.step (r : Reading) : Event → Except MarkupFault Reading
  | .start tag attributes =>
    .ok { r with opened := .mk tag attributes none [] none :: r.opened }
  | .single tag attributes => r.close (.mk tag attributes none [] none)
  | .stop =>
    match r.opened with
    | n :: outer => { r with opened := outer }.close n
    | [] => .error .unbalancedEnd
  | .chars text =>
    match r.opened with
    | n :: outer => .ok { r with opened := addText n text :: outer }
    | [] => .ok r
  | .aside => .ok r

def Reading.result (r : Reading) : Except MarkupFault Node :=
  match r.opened, r.root with
  | n :: _, _ => .error (.unclosed n.tag)
  | [], some root => .ok root
  | [], none => .error .noRoot

def ofEvents (events : List Event) : Except MarkupFault Node := do
  let r ← events.foldlM Reading.step {}
  r.result

def charsOf : Option String → List Event
  | none => []
  | some text => [.chars text]

mutual

/-- The events of an element, its tail included. -/
def linear : Node → List Event
  | .mk tag attributes text children tail =>
    .start tag attributes :: charsOf text ++ linearAll children ++ .stop :: charsOf tail

def linearAll : List Node → List Event
  | [] => []
  | n :: rest => linear n ++ linearAll rest

end

end Hypermedia.Markup
