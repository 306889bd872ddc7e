import Hypermedia.Proofs.Lists
import Hypermedia.Proofs.Markup.Elements
import Hypermedia.Proofs.Markup.Parameters

/-! Slots: where the children of a call go, and where the text behind the marker that they replace goes. No character
data around the marker or in the children is lost. -/
namespace Hypermedia

namespace Node

def charsOf (text : Option String) : List Char :=
  (text.getD "").toList

mutual

/-- The character data in an element, in the order of the document; its tail is outside of it. -/
def chars : Node → List Char
  | .mk _ _ text children _ => charsOf text ++ charsAll children

def charsAll : List Node → List Char
  | [] => []
  | n :: rest => chars n ++ charsOf n.tail ++ charsAll rest

end

/-- An attribute list after the values of others were put into it one after another: the names it had are where they
were, the new ones behind them, and the last value counts. -/
structure Overrides (base extra result : List (String × String)) : Prop where
  names : result.map Prod.fst =
    base.map Prod.fst ++ ((extra.map Prod.fst).filter (· ∉ base.map Prod.fst)).eraseDups
  values : ∀ name, result.lookup name = (extra.reverse.lookup name).or (base.lookup name)

end Node

namespace Component

/-- An element with a place among its children. -/
structure Parent where
  tag : String
  attributes : List (String × String)
  text : Option String
  before : List Node
  after : List Node
  tail : Option String

def Parent.holding (p : Parent) (ns : List Node) : Node :=
  .mk p.tag p.attributes p.text (p.before ++ ns ++ p.after) p.tail

/-- A place strictly below the root of a tree, with all of the tree around it. -/
inductive Spot where
  | here (p : Parent)
  | deeper (p : Parent) (s : Spot)

namespace Spot

/-- The tree with elements in the place. -/
def holding : Spot → List Node → Node
  | here p, ns => p.holding ns
  | deeper p s, ns => p.holding [s.holding ns]

/-- The element that the place is in. -/
def parent : Spot → Parent
  | here p => p
  | deeper _ s => s.parent

def root : Spot → Parent
  | here p => p
  | deeper p _ => p

def withParent (q : Parent) : Spot → Spot
  | here _ => here q
  | deeper p s => deeper p (s.withParent q)

/-- The character data of the tree before the place. -/
def front : Spot → List Char
  | here p => Node.charsOf p.text ++ Node.charsAll p.before
  | deeper p s => Node.charsOf p.text ++ Node.charsAll p.before ++ s.front

/-- The character data of the tree after the place. -/
def back : Spot → List Char
  | here p => Node.charsAll p.after
  | deeper p s => s.back ++ Node.charsOf s.root.tail ++ Node.charsAll p.after

/-- Elements are in the place and a text is behind them: it is added to the tail of the last of them or, if there are
none, to the tail of the element before the place or else to the text of the parent. -/
inductive Fills (s : Spot) : Option String → List Node → Node → Prop where
  | bare {ns} : Fills s none ns (s.holding ns)
  | last {ns n text} : Fills s (some text) (ns ++ [n]) (s.holding (ns ++ [n.withTail (appendText n.tail text)]))
  | sibling {before n text} (h : s.parent.before = before ++ [n]) : Fills s (some text) []
      ((s.withParent { s.parent with before := before ++ [n.withTail (appendText n.tail text)] }).holding [])
  | parent {text} (h : s.parent.before = []) : Fills s (some text) []
      ((s.withParent { s.parent with text := appendText s.parent.text text }).holding [])

end Spot

section fill

variable {injected ns ms : List Node} {n m marker : Node} {before after : List Node}

theorem Spot.Fills.deeper {s : Spot} {slot : Option String} (h : s.Fills slot ns m) (p : Parent) :
    (Spot.deeper p s).Fills slot ns (p.holding [m]) := by
  cases h with
  | bare => exact .bare
  | last => exact .last
  | sibling hp => exact .sibling hp
  | parent hp => exact .parent hp

end fill

section chars

variable {s : Spot} {ns ms : List Node} {n m : Node} {slot : Option String} {p q : Parent}

theorem chars_eq (n : Node) : n.chars = Node.charsOf n.text ++ Node.charsAll n.children := by
  cases n
  rfl

@[simp] theorem charsAll_append :
    Node.charsAll (ns ++ ms) = Node.charsAll ns ++ Node.charsAll ms := by
  induction ns with
  | nil => rfl
  | cons n ns ih => simp only [List.cons_append, Node.charsAll, ih, List.append_assoc]

@[simp] theorem charsAll_single : Node.charsAll [n] = n.chars ++ Node.charsOf n.tail := by
  simp [Node.charsAll]

@[simp] theorem charsOf_appendText (slot : Option String) (text : String) :
    Node.charsOf (appendText slot text) = Node.charsOf slot ++ text.toList := by
  simp [Node.charsOf, appendText]

@[simp] theorem chars_withTail (n : Node) (tail : Option String) : (n.withTail tail).chars = n.chars := by
  rw [chars_eq, chars_eq]
  rfl

@[simp] theorem tail_holding : (s.holding ns).tail = s.root.tail := by
  cases s <;> rfl

/-- Text that is added to the tail of the last of some elements is behind them. -/
theorem charsAll_concat_appendText (ns : List Node) (n : Node) (text : String) :
    Node.charsAll (ns ++ [n.withTail (appendText n.tail text)]) = Node.charsAll (ns ++ [n]) ++ text.toList := by
  have htail : (n.withTail (appendText n.tail text)).tail = appendText n.tail text := rfl
  simp only [charsAll_append, charsAll_single, chars_withTail, htail, charsOf_appendText, List.append_assoc]

theorem chars_holding (s : Spot) (ns : List Node) : (s.holding ns).chars = s.front ++ Node.charsAll ns ++ s.back := by
  induction s with
  | here p => simp only [Spot.holding, Parent.holding, Node.chars, charsAll_append, Spot.front, Spot.back, List.append_assoc]
  | deeper p s ih =>
    simp only [Spot.holding, Parent.holding, Node.chars, charsAll_append, charsAll_single, tail_holding, ih,
      Spot.front, Spot.back, List.append_assoc]

/-- Text that is added to a parent right before the place comes behind all that was before the place. -/
theorem front_withParent {added : List Char}
    (h : Node.charsOf q.text ++ Node.charsAll q.before =
      Node.charsOf s.parent.text ++ Node.charsAll s.parent.before ++ added) :
    (s.withParent q).front = s.front ++ added := by
  induction s with
  | here p => exact h
  | deeper p s ih =>
    rw [Spot.withParent, Spot.front, ih h, Spot.front, List.append_assoc _ s.front]

theorem back_withParent (hafter : q.after = s.parent.after) (htail : q.tail = s.parent.tail) :
    (s.withParent q).back = s.back := by
  induction s with
  | here p => exact congrArg Node.charsAll hafter
  | deeper p s ih =>
    have hroot : (s.withParent q).root.tail = s.root.tail := by
      cases s with
      | here p => exact htail
      | deeper p s => rfl
    rw [Spot.withParent, Spot.back, ih hafter htail, hroot, Spot.back]

theorem chars_withParent {t : List Char}
    (hfront : Node.charsOf q.text ++ Node.charsAll q.before =
      Node.charsOf s.parent.text ++ Node.charsAll s.parent.before ++ t)
    (hafter : q.after = s.parent.after) (htail : q.tail = s.parent.tail) :
    ((s.withParent q).holding []).chars = s.front ++ t ++ s.back := by
  rw [chars_holding, front_withParent hfront, back_withParent hafter htail, Node.charsAll, List.append_nil]

/-- Filling a spot keeps the character data around it and puts that of the elements and of the text behind them in. -/
theorem Spot.Fills.chars_eq (h : s.Fills slot ns m) :
    m.chars = s.front ++ Node.charsAll ns ++ Node.charsOf slot ++ s.back := by
  cases h with
  | bare => simp only [chars_holding, Node.charsOf, Option.getD_none, String.toList_empty, List.append_nil]
  | last =>
    rw [chars_holding, charsAll_concat_appendText, ← List.append_assoc]
    rfl
  | @sibling before n text hp =>
    have hchars := chars_withParent (s := s) (t := text.toList)
      (q := { s.parent with before := before ++ [n.withTail (appendText n.tail text)] })
      (by rw [charsAll_concat_appendText, hp, List.append_assoc]) rfl rfl
    rw [hchars, Node.charsAll, List.append_nil]
    rfl
  | @parent text hp =>
    have hchars := chars_withParent (s := s) (t := text.toList)
      (q := { s.parent with text := appendText s.parent.text text }) (by simp [hp, Node.charsAll]) rfl rfl
    rw [hchars, Node.charsAll, List.append_nil]
    rfl

end chars

section overrides

variable {base extra : List (String × String)} {name key value : String} {n : Node}

end overrides

section mapTexts

variable {f : String → String} {n : Node}

end mapTexts

end Component

end Hypermedia
