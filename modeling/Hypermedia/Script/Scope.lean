import Hypermedia.Dict
import Hypermedia.Script.Value
import Hypermedia.Widget.Kind

/-! Scopes: names bound to values, chained to the scopes around them. -/
namespace Hypermedia.Script

/-- One scope: its bindings and listeners in the order they were made, and the widget it belongs
to. -/
structure Scope where
  parent : Option ScopeId := none
  bindings : List (String × Value) := []
  listeners : List (String × Value) := []
  widget : Option WidgetId := none
  deriving Inhabited

/-- A write that changed a value, and the scope that holds the binding. -/
structure Change where
  owner : ScopeId
  name : String
  old : Value
  new : Value

/-- Whether a write leaves a value as it was: an integer and a double are compared as doubles, all
else by identity. -/
def Value.unchanged : Value → Value → Bool
  | .handle _ (.failure _), _ => false
  | .number (.int i), .number (.float x) => Number.ofInt i.toInt == x
  | .number (.float x), .number (.int i) => x == Number.ofInt i.toInt
  | a, b => a.same b

namespace Scope

def binds (s : Scope) (name : String) : Bool :=
  (s.bindings.lookup name).isSome

def bindIn (name : String) (value : Value) : List (String × Value) → List (String × Value)
  | [] => [(name, value)]
  | (key, old) :: rest =>
    if key = name then (key, value) :: rest else (key, old) :: bindIn name value rest

/-- Binds a name; `nil` takes the binding away. -/
def bind (s : Scope) (name : String) (value : Value) : Scope :=
  if value.isNil then { s with bindings := s.bindings.filter (·.1 != name) }
  else { s with bindings := bindIn name value s.bindings }

def listenersOf (s : Scope) (name : String) : List Value :=
  (s.listeners.filter (·.1 == name)).map (·.2)

def handlers (s : Scope) : List (String × Value) :=
  s.bindings.filter fun b => isEventName b.1 && b.2.isCallable

end Scope

/-- All scopes; a parent comes before its children. The builtins are seen from every scope. -/
structure Scopes where
  all : Array Scope := #[]
  builtins : Dict Value := {}

namespace Scopes

def get? (f : Scopes) (id : ScopeId) : Option Scope :=
  f.all[id.index]?

def bindings (f : Scopes) (id : ScopeId) : List (String × Value) :=
  ((f.get? id).map (·.bindings)).getD []

def handlers (f : Scopes) (id : ScopeId) : List (String × Value) :=
  ((f.get? id).map (·.handlers)).getD []

def modify (f : Scopes) (id : ScopeId) (g : Scope → Scope) : Scopes :=
  { f with all := f.all.modify id.index g }

def add (f : Scopes) (parent : Option ScopeId) : ScopeId × Scopes :=
  (⟨f.all.size⟩, { f with all := f.all.push { parent } })

def parent? (f : Scopes) (id : ScopeId) : Option ScopeId :=
  (f.get? id).bind (·.parent)

def chain (f : Scopes) : Nat → Option ScopeId → List ScopeId
  | 0, _ => []
  | _, none => []
  | n + 1, some id => id :: f.chain n (f.parent? id)

/-- A scope and those around it, the innermost first. -/
def lineage (f : Scopes) (id : ScopeId) : List ScopeId :=
  f.chain (id.index + 1) (some id)

def own? (f : Scopes) (id : ScopeId) (name : String) : Option Value :=
  (f.get? id).bind (·.bindings.lookup name)

/-- The value of a name: that of the nearest scope that binds it, or else a builtin. -/
def read (f : Scopes) (id : ScopeId) (name : String) : Option Value :=
  match (f.lineage id).findSome? (f.own? · name) with
  | some value => some value
  | none => f.builtins.get? name

/-- The nearest of the given scopes that binds a name to something that is not a function. -/
def nearestData (f : Scopes) (name : String) : List ScopeId → Option ScopeId
  | [] => none
  | id :: rest =>
    match f.own? id name with
    | none => nearestData f name rest
    | some value => if value.isCallable then none else some id

/-- The scope a write of a name goes to: one around that binds it to data, unless the scope itself
binds it. -/
def owner (f : Scopes) (id : ScopeId) (name : String) : ScopeId :=
  if (f.own? id name).isSome then id
  else (f.nearestData name (f.lineage id).tail).getD id

/-- Binds a name in a scope, and tells whether that changed its value. -/
def define (f : Scopes) (id : ScopeId) (name : String) (value : Value) :
    Option Change × Scopes :=
  let old := (f.own? id name).getD .nil
  (if old.unchanged value then none else some ⟨id, name, old, value⟩,
    f.modify id (·.bind name value))

def assign (f : Scopes) (id : ScopeId) (name : String) (value : Value) :
    Option Change × Scopes :=
  f.define (f.owner id name) name value

def listen (f : Scopes) (id : ScopeId) (name : String) (listener : Value) : Scopes :=
  f.modify id fun s => { s with listeners := s.listeners ++ [(name, listener)] }

def children (f : Scopes) (isAlive : ScopeId → Bool) (id : ScopeId) : List ScopeId :=
  ((List.range f.all.size).map ScopeId.mk).filter fun child =>
    f.parent? child == some id && isAlive child

/-- The listeners for a name from a scope inward, to a given depth; scopes that bind the name hide
theirs. -/
def listenersWithin (f : Scopes) (isAlive : ScopeId → Bool) (name : String) :
    Nat → ScopeId → List (ScopeId × Value)
  | 0, _ => []
  | n + 1, id =>
    let own := ((f.get? id).map (·.listenersOf name)).getD []
    let inner := (f.children isAlive id).filter fun child => (f.own? child name).isNone
    own.map (id, ·) ++ inner.flatMap (f.listenersWithin isAlive name n)

/-- The listeners a change concerns, each with its scope, outer scopes before inner ones. -/
def listenersFor (f : Scopes) (isAlive : ScopeId → Bool) (c : Change) : List (ScopeId × Value) :=
  f.listenersWithin isAlive c.name f.all.size c.owner

/-- Whether a scope is one of those held or around one of them. -/
def isHeld (f : Scopes) (held : List ScopeId) (id : ScopeId) : Bool :=
  held.any fun h => (f.lineage h).contains id

end Scopes

end Hypermedia.Script
