import Hypermedia.Style.Block
import Hypermedia.Widget.Match

/-! The rules in force, and the style they give a widget. -/
namespace Hypermedia.Style

/-- The priority of rules that come with a document or fragment. -/
def documentPriority : Int := 0

def scriptPriority : Int := 10

structure Rule where
  selector : Selector
  properties : Properties
  priority : Int
  order : Nat

/-- Rules in the order of their application. -/
structure RuleBook where
  rules : List Rule := []
  nextOrder : Nat := 0

namespace RuleBook

def apply (b : RuleBook) (selector : String) (properties : Properties) (priority : Int) :
    Except SelectionError RuleBook := do
  let selector ← Selector.parse selector
  return { rules := b.rules ++ [{ selector, properties, priority, order := b.nextOrder }]
           nextOrder := b.nextOrder + 1 }

/-- Adds the entries of a rule map up to the first whose selector does not parse. -/
def applyEntries (b : RuleBook) (priority : Int) :
    List (String × Properties) → Except SelectionError Unit × RuleBook
  | [] => (.ok (), b)
  | (selector, properties) :: rest =>
    match b.apply selector properties priority with
    | .ok b => b.applyEntries priority rest
    | .error e => (.error e, b)

def applyMap (b : RuleBook) (m : RuleMap) (priority : Int) :
    Except SelectionError Unit × RuleBook :=
  b.applyEntries priority m.entries

def clear (b : RuleBook) : RuleBook :=
  { b with rules := [] }

/-- The properties applied under exactly this selector text, later ones in place of earlier ones. -/
def rulesFor (b : RuleBook) (selector : String) : Properties :=
  (b.rules.filter (·.selector.source == selector)).foldl
    (fun merged rule => merged.insertAll rule.properties.entries) Dict.empty

/-- Whether rule `a` yields to rule `b`: by priority, then specificity, then order of
application. -/
def Rule.yields (a b : Rule) : Bool :=
  let sa := a.selector.specificity
  let sb := b.selector.specificity
  if a.priority ≠ b.priority then decide (a.priority < b.priority)
  else if sa.names ≠ sb.names then decide (sa.names < sb.names)
  else if sa.classes ≠ sb.classes then decide (sa.classes < sb.classes)
  else if sa.kinds ≠ sb.kinds then decide (sa.kinds < sb.kinds)
  else decide (a.order ≤ b.order)

/-- The rules that bear on the resting style of a widget, the weakest first. -/
def bearing (b : RuleBook) (t : Tree) (id : WidgetId) : List Rule :=
  (b.rules.filter fun rule => !rule.selector.hasState && rule.selector.matches t id).mergeSort
    Rule.yields

def compute (b : RuleBook) (t : Tree) (id : WidgetId) : Properties :=
  (b.bearing t id).foldl (fun style rule => style.insertAll rule.properties.entries) Dict.empty

end RuleBook

end Hypermedia.Style
