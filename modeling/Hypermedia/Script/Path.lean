import Hypermedia.Script.Interpreter
import Hypermedia.Text.Placeholder

/-! Paths from a scope to a value, and texts with paths in them. -/
namespace Hypermedia.Script

/-- Where a path has come to. -/
inductive Stop where
  | value (value : Value)
  | scope (id : ScopeId)
  | field (field : Field)

namespace Stop

/-- The value of a name as seen from a scope; `outer` is the scope around it. -/
def ofName (id : ScopeId) (name : String) : Act Stop := do
  let scopes ← Act.look (·.scopes)
  if name = "outer" then
    match scopes.parent? id with
    | some parent => return scope parent
    | none => return value .nil
  else return value ((scopes.read id name).getD .nil)

def ofWidget (t : Tree) (id : WidgetId) (name : String) : Option Stop :=
  match Field.read t id name with
  | .ok f => some (field f)
  | .error _ => none

def next (t : Tree) (name : String) : Stop → Act (Option Stop)
  | scope id | field (.scope id) => some <$> ofName id name
  | field (.widget id) | value (.handle _ (.widget id)) => return ofWidget t id name
  | value (.handle _ (.scope id)) => do
    if (← Act.living) id then some <$> ofName id name else return none
  | value (.table table) => do
    let found ← Act.guarded do
      return .giveBack [← Act.index (.table table) (.ofString name) none none]
    match found with
    | .ok flow => return some (value (Act.first flow.values))
    | .error _ => return none
  | _ => return none

/-- The text shown for where a path has come to; where nothing is, there is none. -/
def text? (isAlive : ScopeId → Bool) : Stop → Option String
  | value .nil => none
  | value v => some (v.display isAlive)
  | scope id => some ("scope: " ++ decimal id.index)
  | field f => f.text?

end Stop

def follow (t : Tree) : List String → Stop → Act (Option Stop)
  | [], stop => return some stop
  | name :: rest, stop => do
    match ← stop.next t name with
    | some stop => follow t rest stop
    | none => return none

def pathText (t : Tree) (scope : ScopeId) (path : List String) : Act (Option String) := do
  match path with
  | [] => return none
  | name :: rest =>
    match ← follow t rest (← Stop.ofName scope name) with
    | some stop => return stop.text? (← Act.living)
    | none => return none

/-- The text that a path leads to from a scope, and the world that functions on the way leave. -/
def World.lookUp (w : World) (held : List ScopeId) (t : Tree) (scope : ScopeId) (path : String) :
    Option String × World :=
  let names := (Text.cut (· == '.') path.toList).map String.ofList
  let code := Act.code do
    match ← pathText t scope names with
    | some s => return .giveBack [.ofString s]
    | none => return .giveBack []
  let r := run (Host.absent held) apply maxSteps code {} w ()
  match r.outcome with
  | .finished (.giveBack [.str s]) => (some (Bytes.text s), r.world)
  | _ => (none, r.world)

def World.resolve (w : World) (held : List ScopeId) (t : Tree) (scope : ScopeId) (path : String) :
    Option String :=
  (w.lookUp held t scope path).1

/-- A step on the world that may not find a value. -/
abbrev Filling := ExceptT CompileError (StateM World)

/-- The value of a placeholder as seen from a scope, for a widget to show. -/
def Filling.value (held : List ScopeId) (t : Tree) (scope : ScopeId) (widget : WidgetId)
    (path : List Char) : Filling (List Char) := do
  let (found, w) := (← get).lookUp held t scope (String.ofList path)
  set w
  match found with
  | some s => return s.toList
  | none => throw (.unresolvedPlaceholder (String.ofList path) (t.query widget))

/-- A text with the values of its placeholders as seen from a scope, shown by a widget; each is looked
up in the world that the ones before it leave. -/
def Filling.text (held : List ScopeId) (t : Tree) (scope : ScopeId) (widget : WidgetId)
    (text : String) : Filling String := do
  return String.ofList (← Text.fill (value held t scope widget) text.toList)

def World.interpolate (w : World) (held : List ScopeId) (t : Tree) (scope : ScopeId)
    (widget : WidgetId) (text : String) : Except CompileError String :=
  (Filling.text held t scope widget text w).1

end Hypermedia.Script
