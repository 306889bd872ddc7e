import Hypermedia.Action.Descriptor
import Hypermedia.Markup.Component
import Hypermedia.Style.Block
import Hypermedia.Text.Margin
import Hypermedia.Widget.Tree

/-! Building widgets from elements, with components expanded on the way. -/
namespace Hypermedia.Markup

/-- Components nested deeper than this count as recursive. -/
def maxExpansions : Nat := 32

def descriptorMark : Char := ':'

/-- The tree under construction, the rules met so far, and the widgets built, parents first. -/
structure Building where
  tree : Tree
  rules : Style.RuleMap := {}
  widgets : List WidgetId := []

/-- A step of building; what was built stays when it fails. -/
abbrev Build := ExceptT Error (StateM Building)

/-- A widget with the source of the handlers its attributes declare. -/
structure Configured where
  widget : Widget
  handlers : List Char := []

def handlerSource (event : List Char) (body : String) : List Char :=
  "function ".toList ++ event ++ "() ".toList ++ body.toList ++ " end\n".toList

/-- The effect of one attribute; hyphens in its name become underscores. -/
def configure (c : Configured) (entry : String × String) : Except Error Configured :=
  let key := Text.exchange '-' ['_'] entry.1.toList
  let name := String.ofList key
  if name = "groups" then
    .ok { c with widget := { c.widget with
      groups := (Text.words entry.2.toList).map String.ofList } }
  else if name = "eid" then .ok { c with widget := { c.widget with eid := some entry.2 } }
  else if isEventName name then
    match entry.2.toList with
    | ':' :: descriptor =>
      match Action.compile (String.ofList descriptor) with
      | .ok list => .ok { c with widget := c.widget.bind name (.actions list) }
      | .error e => .error (.action e)
    | _ => .ok { c with handlers := c.handlers ++ handlerSource key entry.2 }
  else
    let value := Widget.Attribute.coerce entry.2
    .ok { c with widget := c.widget.setAttribute name (some value) }

def trimFeeds (s : List Char) : List Char :=
  ((s.dropWhile (· == '\n')).reverse.dropWhile (· == '\n')).reverse

/-- The content of a widget: the element's content without its margin and outer line feeds, unless
blank. -/
def widgetContent (n : Node) : Option String :=
  match n.contentText with
  | none => none
  | some text =>
    let text := trimFeeds (Text.dedent text.toList)
    if Text.allBlank text then none else some (String.ofList text)

def bodyOf (n : Node) : String :=
  n.text.getD ""

def isStyleTag (tag : String) : Bool :=
  tag == "style" || tag == "styles"

def isScriptTag (tag : String) : Bool :=
  tag == "script" || tag == "lua"

def childScripts (children : List Node) : List Char :=
  (children.filter (isScriptTag ·.tag)).flatMap fun n =>
    Text.dedent (bodyOf n).toList ++ ['\n']

/-- The script of a widget: that of its children, then its handlers, unless all blank. -/
def widgetScript (children : List Node) (handlers : List Char) : Option String :=
  let script := childScripts children ++ handlers
  if Text.allBlank script then none else some (String.ofList script)

namespace Build

def lift {ε α : Type} (into : ε → Error) (r : Except ε α) : Build α :=
  match r with
  | .ok value => pure value
  | .error e => throw (into e)

def construct (w : Widget) : Build WidgetId := do
  let s ← get
  let (id, tree) := s.tree.construct w
  set { s with tree, widgets := s.widgets ++ [id] }
  return id

def modifyWidget (id : WidgetId) (f : Widget → Widget) : Build Unit :=
  modify fun s => { s with tree := s.tree.modify id f }

def query (id : WidgetId) : Build String :=
  return (← get).tree.query id

def adopt (parent child : WidgetId) : Build Unit := do
  let s ← get
  let (outcome, tree) := s.tree.append parent child
  set { s with tree }
  lift Error.selection outcome

/-- Merges the rules of a style element, scoped to the widget around it. -/
def addRules (n : Node) (scope : String) : Build Unit := do
  let rules ← lift Error.compile (Style.compileRules (bodyOf n) (some scope))
  modify fun s => { s with rules := s.rules.merge rules }

end Build

/-- Starts a widget of a kind from an element: its attributes and content, and its handlers. -/
def startWidget (kind : Widget.Kind) (n : Node) : Build (WidgetId × List Char) := do
  let w ← Build.construct { kind }
  let c ← Build.lift id (n.attributes.foldlM configure ⟨{ kind }, []⟩)
  Build.modifyWidget w fun _ => { c.widget with content := widgetContent n }
  return (w, c.handlers)

mutual

/-- Builds the widget an element stands for, and all below it; `expansions` components are open. -/
def buildNode (registry : Registry) (expansions : Nat) (n : Node) : Build WidgetId :=
  match n with
  | .mk tag attributes text children tail =>
    let n := Node.mk tag attributes text children tail
    match registry.get? tag with
    | some component =>
      if expansions < maxExpansions then
        buildNode registry (expansions + 1) (component.expand n)
      else throw (.compile (.malformedComponent component.name
        ("expansion nested deeper than " ++ decimal maxExpansions ++ " levels")))
    | none =>
      match Widget.Kind.ofTag? tag with
      | none => throw (.compile (.unknownTag tag))
      | some kind => do
        let (id, handlers) ← startWidget kind n
        buildChildren registry expansions id kind.isContainer children
        match widgetScript children handlers with
        | some script => Build.modifyWidget id fun w => { w with script := some script }
        | none => pure ()
        return id
termination_by (maxExpansions - expansions, sizeOf n)

/-- Builds the children of a widget and collects its rules. -/
def buildChildren (registry : Registry) (expansions : Nat) (parent : WidgetId)
    (isContainer : Bool) (children : List Node) : Build Unit :=
  match children with
  | [] => pure ()
  | child :: rest => do
    let scope ← Build.query parent
    if isStyleTag child.tag then Build.addRules child scope
    else if isScriptTag child.tag then pure ()
    else if !isContainer then throw (.compile (.leafWithChildren scope))
    else
      let id ← buildNode registry expansions child
      Build.adopt parent id
    buildChildren registry expansions parent isContainer rest
termination_by (maxExpansions - expansions, sizeOf children)

end

/-- A compiled subtree: its root, detached, its rules, and its widgets, parents first. -/
structure Fragment where
  root : WidgetId
  rules : Style.RuleMap
  widgets : List WidgetId

/-- Compiles an element into detached widgets; when that fails, what was built is removed. -/
def buildFragment (registry : Registry) (tree : Tree) (n : Node) :
    Except Error Fragment × Tree :=
  match (buildNode registry 0 n).run { tree } with
  | (.ok root, s) => (.ok { root, rules := s.rules, widgets := s.widgets }, s.tree)
  | (.error e, s) => (.error e, s.tree.removeAll s.widgets)

end Hypermedia.Markup
