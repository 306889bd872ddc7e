import Hypermedia.Text.Cut

/-! Markup trees: elements with attributes, character data and children. -/
namespace Hypermedia

/-- An element: `text` precedes its first child, `tail` follows its end tag. -/
inductive Node where
  | mk (tag : String) (attributes : List (String × String)) (text : Option String)
      (children : List Node) (tail : Option String)
  deriving Inhabited, BEq, Repr

namespace Node

def tag : Node → String
  | mk tag _ _ _ _ => tag

def attributes : Node → List (String × String)
  | mk _ attributes _ _ _ => attributes

def text : Node → Option String
  | mk _ _ text _ _ => text

def children : Node → List Node
  | mk _ _ _ children _ => children

def tail : Node → Option String
  | mk _ _ _ _ tail => tail

def ofTag (tag : String) : Node :=
  mk tag [] none [] none

def withTag (n : Node) (tag : String) : Node :=
  mk tag n.attributes n.text n.children n.tail

def withAttributes (n : Node) (attributes : List (String × String)) : Node :=
  mk n.tag attributes n.text n.children n.tail

def withText (n : Node) (text : Option String) : Node :=
  mk n.tag n.attributes text n.children n.tail

def withChildren (n : Node) (children : List Node) : Node :=
  mk n.tag n.attributes n.text children n.tail

def withTail (n : Node) (tail : Option String) : Node :=
  mk n.tag n.attributes n.text n.children tail

def attribute? (n : Node) (name : String) : Option String :=
  n.attributes.lookup name

/-- An attribute list with the value under a name changed, or the name added at the end. -/
def putAttribute (name value : String) : List (String × String) → List (String × String)
  | [] => [(name, value)]
  | (key, old) :: rest =>
    if key = name then (key, value) :: rest else (key, old) :: putAttribute name value rest

def setAttribute (n : Node) (name value : String) : Node :=
  n.withAttributes (putAttribute name value n.attributes)

def setAttributes (n : Node) (attributes : List (String × String)) : Node :=
  attributes.foldl (fun n entry => n.setAttribute entry.1 entry.2) n

def dropAttribute (name : String) (attributes : List (String × String)) :
    List (String × String) :=
  attributes.eraseP (fun entry => entry.1 == name)

def removeAttribute (n : Node) (name : String) : Option String × Node :=
  (n.attribute? name, n.withAttributes (dropAttribute name n.attributes))

def child? (n : Node) (tag : String) : Option Node :=
  n.children.find? (·.tag == tag)

def modifyChild (n : Node) (tag : String) (f : Node → Node) : Node :=
  match n.children.findIdx? (·.tag == tag) with
  | some i => n.withChildren (n.children.modify i f)
  | none => n

mutual

def mapTags (f : String → String) : Node → Node
  | mk tag attributes text children tail =>
    mk (f tag) attributes text (mapTagsAll f children) tail

def mapTagsAll (f : String → String) : List Node → List Node
  | [] => []
  | n :: rest => mapTags f n :: mapTagsAll f rest

end

mutual

/-- The element and all below it, parents first. -/
def elements : Node → List Node
  | mk tag attributes text children tail =>
    mk tag attributes text children tail :: elementsAll children

def elementsAll : List Node → List Node
  | [] => []
  | n :: rest => elements n ++ elementsAll rest

end

/-- The content of an element: its text unless blank, else the tails of its children put
together. -/
def contentText (n : Node) : Option String :=
  let tails := n.children.filterMap (·.tail)
  let joined := if tails.isEmpty then none else some (String.join tails)
  match n.text with
  | some text => if Text.allBlank text.toList then joined else some text
  | none => joined

end Node

end Hypermedia
