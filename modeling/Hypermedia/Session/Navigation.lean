import Hypermedia.Session.Inline
import Hypermedia.Session.Scripting

/-! Navigation: fetching documents, and showing a page in place of another or keeping the old
one. -/
namespace Hypermedia.Session

variable {σ : Type} (transport : Transport σ)

def exchange (r : Network.Request) : Act σ Network.Response := do
  modify fun s => { s with network := transport.send r s.network }
  let s ← get
  let (reply, network) := transport.reply r s.network
  set { s with network }
  match reply with
  | some reply => lift .network reply
  | none => throw (.network (.transport "no reply"))

/-- Fetches a document or resource; only a success counts. -/
def fetchDocument (url : Url) : Act σ Network.Response := do
  let request ← lift .network (Network.Request.ofText .get url.text)
  let response ← exchange transport request
  if response.isSuccess then return response
  else throw (.network (.http response.status response.url))

/-- Elements nested deeper than this are not searched for resources. -/
def maxInlineBudget : Nat := 100000

def endlessInlining : Error :=
  .compile (.malformedComponent "complib" "component libraries nested too deeply")

def fetchSource (base : Url) : Fetch (Session σ) := fun src =>
  (do
    let url ← lift .network (resolveEndpoint base src)
    return (← fetchDocument transport url).body : Act σ String)

/-- Puts the resources that a document names into it. -/
def inlined (base : Url) (n : Node) : Act σ Node := do
  let r := inlineSources (fetchSource transport base) maxInlineBudget n (← get)
  set r.state
  match r.outcome with
  | .ok () => return r.value
  | .error (.failed e) => throw e
  | .error .outOfBudget => throw endlessInlining

def readMarkup (text : String) : Act σ Node :=
  lift (fun fault => .compile (.markup fault)) (Markup.parse text)

/-- Compiles with the session's components into its tree. -/
def compiled {α : Type} (c : Markup.Compile α) : Act σ α := do
  let s ← get
  let (result, ws) := c.run { registry := s.registry, tree := s.tree }
  set { s with registry := ws.registry, tree := ws.tree }
  lift id result

def addRules (rules : Style.RuleMap) : Act σ Unit := do
  let s ← get
  let (result, rules) := s.rules.applyMap rules Style.documentPriority
  set { s with rules }
  lift .selection result

/-- Puts the old page aside and makes a widget the root, with a new scope for the document. -/
def stage (s : Session σ) (root : Option WidgetId) : Session σ :=
  let (old, tree) := s.tree.takeRoot
  let (document, scopes) := s.world.scopes.add none
  let outgoing : Outgoing :=
    { root := old, rules := s.rules, document := s.document, timers := s.timers
      pinned := s.tree.pinned, loose := s.loose.length }
  { s with
    tree := tree.setRoot root
    world := { s.world with scopes }
    rules := {}
    document, outgoing := some outgoing
    timers := []
    deferred := some [] }

/-- Removes widgets that never got a place. -/
def dropLoose (tree : Tree) (ids : List WidgetId) : Tree :=
  ids.foldl (fun t id =>
    if (t.parent? id).isNone && !t.pinned.contains id then t.remove id else t) tree

/-- The title of a page: its own, unless it has none or is the root of its site. -/
def titleOf (s : Session σ) (url : Url) (page : Markup.Page) : String :=
  match page.title with
  | some title => if url.path.render = ['/'] then s.config.title else title
  | none => s.config.title

/-- Drops the old page and starts the action lists that waited. -/
def commit (s : Session σ) (o : Outgoing) (url : Url) (page : Markup.Page) : Session σ :=
  let s := s.cancelInFlight
  let tree := (s.tree.removeAll o.root.toList).removeAll o.pinned
  -- what was loose before the page was staged comes first in the list
  let tree := dropLoose tree (s.loose.take o.loose)
  let title := s.titleOf url page
  let lists := s.deferred.getD []
  let s := { s with
    tree, title, url
    loose := s.loose.drop o.loose
    page := some { url, title, properties := page.properties, scope := s.document }
    outgoing := none
    deferred := none }
  lists.foldl (fun s list => s.startActions list.1 list.2) s

/-- Drops the new page and puts the old one back. -/
def rollback (s : Session σ) (o : Outgoing) : Session σ :=
  -- the first of the two removes the new root
  let tree := (s.tree.setRoot none).setRoot o.root
  let tree := tree.removeAll (tree.pinned.filter fun id => !o.pinned.contains id)
  { s with
    tree := dropLoose tree (s.loose.drop o.loose)
    loose := s.loose.take o.loose
    rules := o.rules
    document := o.document
    timers := o.timers
    outgoing := none
    deferred := none }

/-- Runs the scripts of a page, applies its rules and binds its widgets. -/
def runPage (page : Markup.Page) : Act σ Unit := do
  let document := (← get).document
  page.scripts.forM fun source => runScript source document "Page"
  addRules page.rules
  match page.content with
  | some content => bindScripts content.widgets
  | none => return ()

/-- Shows a document; the old page stays when that fails. -/
def install (url : Url) (n : Node) : Act σ Unit := do
  let page ← compiled (Markup.compilePage n)
  modify fun s => s.stage (page.content.map (·.root))
  let outgoing := (← get).outgoing
  let result ← attempt (runPage page)
  match outgoing, result with
  | some o, .ok () => modify fun s => s.commit o url page
  | some o, .error e =>
    modify fun s => s.rollback o
    throw e
  | none, result => lift id result

def visit (destination : String) : Act σ Unit := do
  let url ← lift .network (resolveEndpoint (← get).url destination)
  let response ← fetchDocument transport url
  let document ← readMarkup response.body
  install url (← inlined transport url document)

def route (destination : String) (suppressHistory : Bool) : Act σ Unit := do
  if !suppressHistory then
    modify fun s => { s with history := s.history.push destination }
  visit transport destination

/-- Navigates to where the history stands after a move through it. -/
def revisit (move : History → History) : Act σ Unit := do
  let s ← get
  let history := move s.history
  set { s with history }
  if s.history.entries.isEmpty then return ()
  match history.current? with
  | some destination => route transport destination true
  | none => return ()

def back : Act σ Unit := revisit transport History.back

def forward : Act σ Unit := revisit transport History.forward

def refresh : Act σ Unit := do
  route transport (← get).url.text true

end Hypermedia.Session
