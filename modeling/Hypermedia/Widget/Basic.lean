import Hypermedia.Widget.Kind
import Hypermedia.Widget.Attribute
import Hypermedia.Action.Instruction

/-! Widgets. -/
namespace Hypermedia

/-- The place of a widget in the tree that owns it; places are never used again. -/
@[ext]
structure WidgetId where
  index : Nat
  deriving DecidableEq, Repr, Inhabited, Ord

structure ScopeId where
  index : Nat
  deriving DecidableEq, Repr, Inhabited

structure FunctionId where
  index : Nat
  deriving DecidableEq, Repr, Inhabited

def WidgetId.text (id : WidgetId) : String :=
  String.ofList (Decimal.digitsOf id.index)

inductive Binding where
  | actions (list : List Action.Instruction)
  | script (function : FunctionId)
  deriving DecidableEq

structure Widget where
  kind : Widget.Kind
  eid : Option String := none
  groups : List String := []
  attributes : Dict Widget.Attribute := {}
  content : Option String := none
  parent : Option WidgetId := none
  children : List WidgetId := []
  bindings : List (String × Binding) := []
  scope : Option ScopeId := none
  script : Option String := none
  deriving Inhabited

namespace Widget

def isContainer (w : Widget) : Bool :=
  w.kind.isContainer

def attribute? (w : Widget) (name : String) : Option Attribute :=
  w.attributes.get? name

def setAttribute (w : Widget) (name : String) (value : Option Attribute) : Widget :=
  match value with
  | some value => { w with attributes := w.attributes.insert name value }
  | none => { w with attributes := w.attributes.erase name }

def isChecked (w : Widget) : Bool :=
  match w.attribute? "checked" with
  | some value => value.isTruthy
  | none => false

def bindIn (event : String) (binding : Binding) : List (String × Binding) → List (String × Binding)
  | [] => [(event, binding)]
  | (name, old) :: rest =>
    if name = event then (name, binding) :: rest else (name, old) :: bindIn event binding rest

/-- Binds an event; a later binding takes the place of an earlier one. -/
def bind (w : Widget) (event : String) (binding : Binding) : Widget :=
  { w with bindings := bindIn event binding w.bindings }

def binding? (w : Widget) (event : String) : Option Binding :=
  w.bindings.lookup event

def withParent (w : Widget) (parent : Option WidgetId) : Widget :=
  { w with parent }

def withoutChild (w : Widget) (child : WidgetId) : Widget :=
  { w with children := w.children.filter (· != child) }

/-- The widget with one child more, before the one at `index` or at the end. -/
def withChild (w : Widget) (index : Nat) (child : WidgetId) : Widget :=
  { w with children := w.children.take index ++ child :: w.children.drop index }

/-- The selector of this widget alone: its kind with its eid, or else with its index. -/
def query (w : Widget) (id : WidgetId) : String :=
  match w.eid with
  | some eid => w.kind.name ++ "#" ++ eid
  | none => w.kind.name ++ "@" ++ id.text

end Widget

end Hypermedia
