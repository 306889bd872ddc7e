import Hypermedia.Markup.Node
import Hypermedia.Error
import Hypermedia.Dict

/-! Components: templates with parameters, expanded where they are called. -/
namespace Hypermedia

/-- A template and its parameters with their defaults, in order of declaration. -/
structure Component where
  name : String
  params : List (String × String)
  template : Node
  deriving Inhabited

/-- The tag of the place where the children of a call go. -/
def slotTag : String := "_slot"

namespace Component

/-- Reads a declaration: every attribute but `name` is a parameter, the first child is the
template. -/
def ofNode (n : Node) (space : Option String) : Except CompileError Component :=
  match (n.attributes.filter (·.1 == "name")).getLast? with
  | none => .error .missingComponentName
  | some (_, name) =>
    let name := match space with
      | some space => space ++ "." ++ name
      | none => name
    match n.children with
    | [] => .error (.malformedComponent name "no template element")
    | template :: _ =>
      .ok { name
            params := n.attributes.filter (·.1 != "name")
            template := template.withTail none }

/-- The value of each parameter at a call: its attribute there, or its default. -/
def values (c : Component) (call : Node) : List (List Char × List Char) :=
  c.params.map fun (key, default) =>
    (key.toList, ((call.attribute? key).getD default).toList)

/-- The longest name a text starts with: its last value, and the rest of the text. -/
def longest? : List (List Char × List Char) → List Char → Option (List Char × List Char)
  | [], _ => none
  | (name, value) :: names, s =>
    match name.isPrefixOf? s, longest? names s with
    | some rest, some (other, otherRest) =>
      if rest.length < otherRest.length then some (value, rest) else some (other, otherRest)
    | some rest, none => some (value, rest)
    | none, found => found

theorem length_of_isPrefixOf? {l s rest : List Char} (h : l.isPrefixOf? s = some rest) :
    rest.length ≤ s.length := by
  induction l generalizing s with
  | nil =>
    have he : some s = some rest := h
    exact Nat.le_of_eq (congrArg List.length (Option.some.inj he).symm)
  | cons c l ih =>
    cases s with
    | nil =>
      have he : (none : Option (List Char)) = some rest := h
      exact absurd he (by simp)
    | cons d s =>
      have he : (if c == d then l.isPrefixOf? s else none) = some rest := h
      split at he
      · exact Nat.le_succ_of_le (ih he)
      · exact absurd he (by simp)

theorem longest?_length {names : List (List Char × List Char)} {s value rest : List Char}
    (h : longest? names s = some (value, rest)) : rest.length ≤ s.length := by
  induction names generalizing value rest with
  | nil => simp [longest?] at h
  | cons entry names ih =>
    obtain ⟨name, v⟩ := entry
    rw [longest?] at h
    split at h
    · rename_i r o oR hr ho
      split at h
      · obtain ⟨-, rfl⟩ := Prod.mk.inj (Option.some.inj h)
        exact length_of_isPrefixOf? hr
      · obtain ⟨-, rfl⟩ := Prod.mk.inj (Option.some.inj h)
        exact ih ho
    · rename_i r hr _
      obtain ⟨-, rfl⟩ := Prod.mk.inj (Option.some.inj h)
      exact length_of_isPrefixOf? hr
    · exact ih h

/-- Exchanges each `$name` for its value, from left to right; values are not looked at again. -/
def substitute (names : List (List Char × List Char)) (s : List Char) : List Char :=
  match s with
  | [] => []
  | c :: rest =>
    if c = '$' then
      match h : longest? names rest with
      | some (value, after) =>
        have := longest?_length h
        value ++ substitute names after
      | none => '$' :: substitute names rest
    else c :: substitute names rest
termination_by s.length
decreasing_by all_goals simp_wf <;> omega

def substituteText (names : List (List Char × List Char)) (s : String) : String :=
  String.ofList (substitute names s.toList)

mutual

/-- Substitutes in the attribute values, texts and tails of an element and all below it. -/
def fillIn (names : List (List Char × List Char)) : Node → Node
  | .mk tag attributes text children tail =>
    .mk tag (attributes.map fun (key, value) => (key, substituteText names value))
      (text.map (substituteText names)) (fillInAll names children)
      (tail.map (substituteText names))

def fillInAll (names : List (List Char × List Char)) : List Node → List Node
  | [] => []
  | n :: rest => fillIn names n :: fillInAll names rest

end

def appendText (slot : Option String) (text : String) : Option String :=
  some (slot.getD "" ++ text)

def appendToLast (ns : List Node) (text : String) : List Node :=
  match ns.getLast? with
  | some last => ns.dropLast ++ [last.withTail (appendText last.tail text)]
  | none => []

def splitAtSlot? : List Node → Option (List Node × Node × List Node)
  | [] => none
  | n :: rest =>
    if n.tag = slotTag then some ([], n, rest)
    else (splitAtSlot? rest).map fun (before, marker, after) => (n :: before, marker, after)

/-- An element whose marker child gives way to `injected`; the marker's tail follows them. -/
def inject (n : Node) (before : List Node) (marker : Node) (after injected : List Node) : Node :=
  match marker.tail with
  | none => n.withChildren (before ++ injected ++ after)
  | some tail =>
    if injected.isEmpty then
      if before.isEmpty then
        (n.withText (appendText n.text tail)).withChildren after
      else n.withChildren (appendToLast before tail ++ after)
    else n.withChildren (before ++ appendToLast injected tail ++ after)

mutual

/-- Puts `injected` in the place of the first marker below an element, nearer ones first. -/
def fillSlot? (injected : List Node) : Node → Option Node
  | .mk tag attributes text children tail =>
    let n := Node.mk tag attributes text children tail
    match splitAtSlot? children with
    | some (before, marker, after) => some (inject n before marker after injected)
    | none => (fillSlotAll? injected children).map n.withChildren

def fillSlotAll? (injected : List Node) : List Node → Option (List Node)
  | [] => none
  | n :: rest =>
    match fillSlot? injected n with
    | some n => some (n :: rest)
    | none => (fillSlotAll? injected rest).map (n :: ·)

end

/-- The attributes of a call that are no parameters. -/
def forwarded (c : Component) (call : Node) : List (String × String) :=
  call.attributes.filter fun entry => !(c.params.any (·.1 == entry.1))

/-- What a call stands for: the template with parameters filled in, children in the slot, and the
other attributes of the call on its root. -/
def expand (c : Component) (call : Node) : Node :=
  let filled := fillIn (c.values call) c.template
  let slotted := (fillSlot? call.children filled).getD filled
  (slotted.setAttributes (c.forwarded call)).withTail call.tail

end Component

abbrev Registry := Dict Component

namespace Registry

/-- Adds a component in place of one of the same name. -/
def register (r : Registry) (c : Component) : Registry :=
  r.insert c.name c

/-- Registers declarations up to the first that is malformed. -/
def registerAll (r : Registry) (space : Option String) :
    List Node → Except CompileError Unit × Registry
  | [] => (.ok (), r)
  | n :: rest =>
    match Component.ofNode n space with
    | .ok c => (r.register c).registerAll space rest
    | .error e => (.error e, r)

/-- Registers every child of a library under the namespace of the library. -/
def registerLibrary (r : Registry) (library : Node) : Except CompileError Unit × Registry :=
  r.registerAll (library.attribute? "namespace") library.children

end Registry

end Hypermedia
