import Hypermedia.Markup.Build

/-! Pages: declarations and at most one content element. -/
namespace Hypermedia.Markup

def isDirective (tag : String) : Bool :=
  tag == "component" || tag == "complib" || tag == "style" || tag == "script"

/-- What compiling adds to: the known components and the widget tree. -/
structure Workspace where
  registry : Registry := {}
  tree : Tree := {}

structure Page where
  properties : List (String × String)
  title : Option String
  rules : Style.RuleMap := {}
  scripts : List String := []
  content : Option Fragment := none

/-- A step of compiling; what it has done to the workspace stays when it fails. -/
abbrev Compile := ExceptT Error (StateM Workspace)

def pageElement? (document : Node) : Option Node :=
  if document.tag = "page" then some document else document.child? "page"

def contentNodes (page : Node) : List Node :=
  page.children.filter (fun child => !isDirective child.tag)

def declareLibrary (library : Node) : Compile Unit := do
  let s ← get
  let (outcome, registry) := s.registry.registerLibrary library
  set { s with registry }
  match outcome with
  | .ok () => pure ()
  | .error e => throw (.compile e)

def declareComponent (declaration : Node) : Compile Unit := do
  match Component.ofNode declaration none with
  | .ok c => modify fun s => { s with registry := s.registry.register c }
  | .error e => throw (.compile e)

/-- The effect of one child of a page; content is left for later. -/
def declare (p : Page) (child : Node) : Compile Page := do
  if child.tag = "complib" then
    declareLibrary child
    return p
  else if child.tag = "component" then
    declareComponent child
    return p
  else if child.tag = "style" then
    match Style.compileRules (bodyOf child) none with
    | .ok rules => return { p with rules := p.rules.merge rules }
    | .error e => throw (.compile e)
  else if child.tag = "script" then
    let script := String.ofList (Text.dedent (bodyOf child).toList)
    return { p with scripts := p.scripts ++ [script] }
  else return p

def buildContent (n : Node) : Compile Fragment := do
  let s ← get
  let (outcome, tree) := buildFragment s.registry s.tree n
  set { s with tree }
  match outcome with
  | .ok fragment => return fragment
  | .error e => throw e

/-- Compiles a page element; declarations take effect before the content is built. -/
def compileElement (page : Node) : Compile Page := do
  let start : Page := { properties := page.attributes, title := page.attribute? "title" }
  let declared ← page.children.foldlM declare start
  match contentNodes page with
  | [] => return declared
  | n :: _ =>
    let fragment ← buildContent n
    let rules := declared.rules.merge fragment.rules
    return { declared with rules, content := some fragment }

def compilePage (document : Node) : Compile Page :=
  match pageElement? document with
  | none => throw (.compile .missingPage)
  | some page =>
    let count := (contentNodes page).length
    if 1 < count then throw (.compile (.multipleContentNodes count)) else compileElement page

/-- Compiles an answer to a request: an element, or the content of a whole document with its page
rules. -/
def compileFragment (n : Node) : Compile Fragment := do
  if n.tag ≠ "celx" ∧ n.tag ≠ "page" then buildContent n
  else
    let page ← compilePage n
    match page.content with
    | none => throw (.compile .missingPage)
    | some fragment => return { fragment with rules := page.rules }

end Hypermedia.Markup
