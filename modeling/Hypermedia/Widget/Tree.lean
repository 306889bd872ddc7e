import Hypermedia.Widget.Basic
import Hypermedia.Error

/-! The widget tree: links between widgets, the document root, and the pinned layers above it. -/
namespace Hypermedia

inductive Edit where
  | replace | replaceChildren | before | after | prepend | append
  deriving DecidableEq, Repr

def Edit.changesChildren : Edit → Bool
  | replaceChildren | prepend | append => true
  | replace | before | after => false

/-- Every widget by index; a removed one leaves an empty slot, so its index names nothing again. -/
structure Tree where
  slots : Array (Option Widget) := #[]
  root : Option WidgetId := none
  pinned : List WidgetId := []
  deriving Inhabited

namespace Tree

def get? (t : Tree) (id : WidgetId) : Option Widget :=
  t.slots[id.index]?.join

def contains (t : Tree) (id : WidgetId) : Bool :=
  (t.get? id).isSome

def widget (t : Tree) (id : WidgetId) : Except SelectionError Widget :=
  match t.get? id with
  | some w => .ok w
  | none => .error (.detached id.index)

def modify (t : Tree) (id : WidgetId) (f : Widget → Widget) : Tree :=
  { t with slots := t.slots.modify id.index (Option.map f) }

/-- Adds a widget that has no parent. -/
def construct (t : Tree) (w : Widget) : WidgetId × Tree :=
  (⟨t.slots.size⟩, { t with slots := t.slots.push (some w) })

def liveCount (t : Tree) : Nat :=
  t.slots.foldl (fun n slot => if slot.isSome then n + 1 else n) 0

/-- The document root, then the pinned widgets, oldest first. -/
def layers (t : Tree) : List WidgetId :=
  t.root.toList ++ t.pinned

def parent? (t : Tree) (id : WidgetId) : Option WidgetId :=
  (t.get? id).bind (·.parent)

def children (t : Tree) (id : WidgetId) : List WidgetId :=
  match t.get? id with
  | some w => w.children
  | none => []

def chain (t : Tree) : Nat → Option WidgetId → List WidgetId
  | 0, _ => []
  | _, none => []
  | n + 1, some id => id :: t.chain n (t.parent? id)

/-- The ancestors of a widget, the parent first; no chain is longer than the tree is large. -/
def ancestors (t : Tree) (id : WidgetId) : List WidgetId :=
  t.chain t.slots.size (t.parent? id)

def lineage (t : Tree) (id : WidgetId) : List WidgetId :=
  id :: t.ancestors id

def walk (t : Tree) : Nat → WidgetId → List WidgetId
  | 0, _ => []
  | n + 1, id =>
    match t.get? id with
    | some w => id :: w.children.flatMap (t.walk n)
    | none => []

/-- A widget and all below it, parents first; no path is longer than the tree is large. -/
def descendants (t : Tree) (id : WidgetId) : List WidgetId :=
  t.walk t.slots.size id

def indexOf? (t : Tree) (id : WidgetId) : Option Nat :=
  (t.parent? id).bind fun parent => (t.children parent).findIdx? (· == id)

/-- Whether a widget is under the document root or under a pinned widget. -/
def isAttached (t : Tree) (id : WidgetId) : Bool :=
  (t.lineage id).any fun w => t.root == some w || t.pinned.contains w

def query (t : Tree) (id : WidgetId) : String :=
  match t.get? id with
  | some w => w.query id
  | none => "@" ++ id.text

/-- Takes a widget from its parent and keeps its subtree. -/
def detach (t : Tree) (id : WidgetId) : Tree :=
  match t.parent? id with
  | none => t
  | some parent =>
    (t.modify parent (·.withoutChild id)).modify id (·.withParent none)

def vacate (t : Tree) (ids : List WidgetId) : Tree :=
  { t with slots := ids.foldl (fun slots id => slots.setIfInBounds id.index none) t.slots }

def unpin (t : Tree) (id : WidgetId) : Tree :=
  { t with pinned := t.pinned.filter (· != id) }

def remove (t : Tree) (id : WidgetId) : Tree :=
  let t := t.detach id
  let t := t.vacate (t.descendants id)
  let t := if t.root = some id then { t with root := none } else t
  t.unpin id

def removeAll (t : Tree) (ids : List WidgetId) : Tree :=
  ids.foldl remove t

def removeRootUnless (t : Tree) (root : Option WidgetId) : Tree :=
  match t.root with
  | some old => if root = some old then t else { t with root := none }.remove old
  | none => t

/-- Makes a widget the document root and removes the previous one. -/
def setRoot (t : Tree) (root : Option WidgetId) : Tree :=
  let t := match root with
    -- the previous root may hold the new one
    | some new => (t.detach new).unpin new
    | none => t
  { t.removeRootUnless root with root }

/-- Leaves the document without a root and keeps what was its root. -/
def takeRoot (t : Tree) : Option WidgetId × Tree :=
  (t.root, { t with root := none })

def pin (t : Tree) (id : WidgetId) : Except SelectionError Unit × Tree :=
  match t.widget id with
  | .error e => (.error e, t)
  | .ok _ =>
    let t := t.detach id
    (.ok (), if t.pinned.contains id || t.root == some id then t
      else { t with pinned := t.pinned ++ [id] })

/-- Removes the pinned widget that is or holds `id`, if there is one. -/
def dismiss (t : Tree) (id : WidgetId) : Bool × Tree :=
  match (t.lineage id).find? (fun w => t.pinned.contains w) with
  | some holder => (true, t.remove holder)
  | none => (false, t)

def clearPinned (t : Tree) : Tree :=
  { t with pinned := [] }.removeAll t.pinned

/-- Whether `parent` may take `child`: both are there, `parent` holds widgets, and `child` is neither
`parent` nor around it. -/
def checkInsert (t : Tree) (parent child : WidgetId) : Except SelectionError Unit := do
  let holder ← t.widget parent
  if !holder.isContainer then throw (.notContainer (t.query parent))
  let _ ← t.widget child
  if (t.lineage parent).contains child then throw (.notContainer (t.query parent))

/-- Links a widget that has no parent under `parent`, before the child at `index` or at the end. -/
def link (t : Tree) (parent : WidgetId) (index : Nat) (child : WidgetId) :
    Except SelectionError Unit × Tree :=
  match t.widget parent with
  | .error e => (.error e, t)
  | .ok _ =>
    let t := t.modify parent (·.withChild index child)
    match t.widget child with
    | .error e => (.error e, t)
    | .ok _ => (.ok (), t.modify child (·.withParent (some parent)))

def insert (t : Tree) (parent : WidgetId) (index : Nat) (child : WidgetId) :
    Except SelectionError Unit × Tree :=
  match t.checkInsert parent child with
  | .error e => (.error e, t)
  | .ok () => ((t.detach child).unpin child).link parent index child

def append (t : Tree) (parent child : WidgetId) : Except SelectionError Unit × Tree :=
  t.insert parent (t.children parent).length child

/-- The parent of `target` if `new` may stand there: it is a widget that is not around `target`. -/
def checkReplace (t : Tree) (target new : WidgetId) : Except SelectionError WidgetId := do
  match t.parent? target with
  | none => throw (.parentNotContainer (t.query target))
  | some parent =>
    let _ ← t.widget new
    if (t.ancestors target).contains new then throw (.notContainer (t.query parent))
    return parent

/-- Puts `new` in the place of `target` and removes the subtree of `target`. -/
def replace (t : Tree) (target new : WidgetId) : Except SelectionError Unit × Tree :=
  if target = new then (.ok (), t)
  else if t.root = some target then (.ok (), t.setRoot (some new))
  else match t.checkReplace target new with
    | .error e => (.error e, t)
    | .ok parent =>
      -- `new` may be below `target`, so it leaves before the subtree is removed
      let t := t.detach new
      match t.indexOf? target with
      | none => (.error (.parentNotContainer (t.query target)), t)
      | some index => (t.remove target).insert parent index new

/-- Appends widgets one after another and stops at the first that cannot be. -/
def appendAll (t : Tree) (parent : WidgetId) :
    List WidgetId → Except SelectionError Unit × Tree
  | [] => (.ok (), t)
  | child :: rest =>
    match t.append parent child with
    | (.ok (), t) => t.appendAll parent rest
    | (.error e, t) => (.error e, t)

def dropped (t : Tree) (parent : WidgetId) (kept : List WidgetId) : List WidgetId :=
  (t.children parent).filter fun old => !kept.contains old

/-- Makes `children` the children of `parent` and removes the previous ones. -/
def setChildren (t : Tree) (parent : WidgetId) (children : List WidgetId) :
    Except SelectionError Unit × Tree :=
  match t.widget parent with
  | .error e => (.error e, t)
  | .ok holder =>
    if !holder.isContainer then (.error (.notContainer (t.query parent)), t)
    else (t.removeAll (t.dropped parent children)).appendAll parent children

/-- The parent of `target` if it holds widgets and `id` may stand in it. -/
def checkBeside (t : Tree) (id target : WidgetId) : Except SelectionError WidgetId := do
  match t.parent? target with
  | none => throw (.parentNotContainer (t.query target))
  | some parent =>
    if !((t.get? parent).any Widget.isContainer) then
      throw (.parentNotContainer (t.query target))
    let _ ← t.widget id
    if (t.lineage target).contains id then throw (.notContainer (t.query parent))
    return parent

/-- Puts a widget next to `target`, `offset` places after its index. -/
def placeBeside (t : Tree) (id target : WidgetId) (offset : Nat) :
    Except SelectionError Unit × Tree :=
  match t.checkBeside id target with
  | .error e => (.error e, t)
  | .ok parent =>
    -- the index of `target` is measured without the widget
    let t := t.detach id
    match t.indexOf? target with
    | none => (.error (.parentNotContainer (t.query target)), t)
    | some index => t.insert parent (index + offset) id

def place (t : Tree) (id target : WidgetId) : Edit → Except SelectionError Unit × Tree
  | .replace => t.replace target id
  | .replaceChildren => t.setChildren target [id]
  | .prepend => t.insert target 0 id
  | .append => t.append target id
  | .before => t.placeBeside id target 0
  | .after => t.placeBeside id target 1

end Tree

end Hypermedia
