import Hypermedia.Proofs.Markup.Elements
import Hypermedia.Proofs.Markup.Expansion
import Mathlib

/-! Components are macros: building an element with its components is building, without components, the
element that is left when every call has given way to its expansion. -/
namespace Hypermedia.Markup

mutual

/-- An element with the components at it and everywhere below it expanded, inside styles and scripts too,
`expansions` of them open already, unless they nest too deep. -/
def expandAll (registry : Registry) (expansions : Nat) (n : Node) : Option Node :=
  match n with
  | .mk tag attributes text children tail =>
    match registry.get? tag with
    | some component =>
      if expansions < maxExpansions then
        expandAll registry (expansions + 1) (component.expand (.mk tag attributes text children tail))
      else none
    | none => (expandEach registry expansions children).map (.mk tag attributes text · tail)
termination_by (maxExpansions - expansions, sizeOf n)

def expandEach (registry : Registry) (expansions : Nat) (children : List Node) :
    Option (List Node) :=
  match children with
  | [] => some []
  | child :: rest => do
    let expanded ← expandAll registry expansions child
    let others ← expandEach registry expansions rest
    return expanded :: others
termination_by (maxExpansions - expansions, sizeOf children)

end

/-- No component is called by the tag of a style or a script, and none gives way to one. -/
structure Macros (registry : Registry) : Prop where
  name : ∀ tag c, registry.get? tag = some c → isAside (.ofTag tag) = false
  template : ∀ tag c, registry.get? tag = some c → isAside c.template = false

theorem macros_of_entries {registry : Registry} (h : ∀ entry ∈ registry.entries,
    isAside (.ofTag entry.1) = false ∧ isAside entry.2.template = false) : Macros registry := by
  have hmem : ∀ tag c, registry.get? tag = some c → (tag, c) ∈ registry.entries := by
    intro tag c hc
    obtain ⟨before, after, heq, -⟩ := List.lookup_eq_some_iff.mp hc
    rw [heq]
    exact List.mem_append_right _ List.mem_cons_self
  exact ⟨fun tag c hc => (h _ (hmem tag c hc)).1, fun tag c hc => (h _ (hmem tag c hc)).2⟩

mutual

/-- `m` is `n` with its components expanded; inside styles and scripts anything may have happened. -/
inductive Expands (registry : Registry) : Nat → Node → Node → Prop where
  | call {expansions n m c} (known : registry.get? n.tag = some c) (bound : expansions < maxExpansions)
      (inner : Expands registry (expansions + 1) (c.expand n) m) : Expands registry expansions n m
  | element {expansions tag attributes text tail ns ms} (unknown : registry.get? tag = none)
      (below : ExpandsEach registry expansions ns ms) :
      Expands registry expansions (.mk tag attributes text ns tail) (.mk tag attributes text ms tail)

inductive ExpandsEach (registry : Registry) : Nat → List Node → List Node → Prop where
  | nil {expansions} : ExpandsEach registry expansions [] []
  | aside {expansions n m ns ms} (aside : isAside n = true) (tag : m.tag = n.tag)
      (text : m.text = n.text) (tail : m.tail = n.tail) (rest : ExpandsEach registry expansions ns ms) :
      ExpandsEach registry expansions (n :: ns) (m :: ms)
  | cons {expansions n m ns ms} (plain : isAside n = false) (first : Expands registry expansions n m)
      (rest : ExpandsEach registry expansions ns ms) :
      ExpandsEach registry expansions (n :: ns) (m :: ms)

end

section expand

open Component

variable {names : List (List Char × List Char)} {injected : List Node} {n m call : Node}

theorem tag_fillIn : (fillIn names n).tag = n.tag := by
  cases n
  rfl

theorem tag_inject {before after : List Node} {marker : Node} :
    (inject n before marker after injected).tag = n.tag := by
  unfold inject
  split
  · rfl
  split
  · split <;> rfl
  · rfl

theorem tag_fillSlot? (h : fillSlot? injected n = some m) : m.tag = n.tag := by
  cases n with
  | mk tag attributes text children tail =>
    rw [fillSlot?] at h
    split at h
    · cases h
      exact tag_inject
    · obtain ⟨filled, -, rfl⟩ := Option.map_eq_some_iff.mp h
      rfl

theorem tag_expand (c : Component) : (c.expand call).tag = c.template.tag := by
  have hslotted : ((fillSlot? call.children (fillIn (c.values call) c.template)).getD
      (fillIn (c.values call) c.template)).tag = c.template.tag := by
    cases hfill : fillSlot? call.children (fillIn (c.values call) c.template) with
    | none => exact tag_fillIn
    | some filled => exact (tag_fillSlot? hfill).trans tag_fillIn
  exact Node.tag_setAttributes.trans hslotted

end expand

section expands

variable {registry : Registry} {n m : Node} {ns ms : List Node}

theorem isAside_congr (h : m.tag = n.tag) : isAside m = isAside n := by
  rw [isAside, isAside, h]

theorem not_isStyleTag (h : isAside n = false) : isStyleTag n.tag = false :=
  (Bool.or_eq_false_iff.mp h).1

theorem not_isScriptTag (h : isAside n = false) : isScriptTag n.tag = false :=
  (Bool.or_eq_false_iff.mp h).2

theorem childScripts_cons :
    childScripts (n :: ns) =
      (if isScriptTag n.tag then Text.dedent (bodyOf n).toList ++ ['\n'] else []) ++ childScripts ns := by
  unfold childScripts
  rw [List.filter_cons]
  split
  · rw [List.flatMap_cons]
  · rfl

/-- What follows an element still does when it is expanded. -/
theorem Expands.tail_eq {expansions : Nat} {n m : Node} (h : Expands registry expansions n m) :
    m.tail = n.tail :=
  match h with
  | .call _ _ inner => inner.tail_eq
  | .element _ _ => rfl

theorem Expands.not_aside {expansions : Nat} {n m : Node} (hr : Macros registry)
    (h : Expands registry expansions n m) (hn : isAside n = false) : isAside m = false :=
  match h with
  | .call known _ inner =>
    inner.not_aside hr ((isAside_congr (tag_expand _)).trans (hr.template _ _ known))
  | .element _ _ => hn

theorem ExpandsEach.tails {expansions : Nat} {ns ms : List Node}
    (h : ExpandsEach registry expansions ns ms) :
    ms.filterMap (·.tail) = ns.filterMap (·.tail) := by
  match h with
  | .nil => rfl
  | .aside _ _ _ tail rest => rw [List.filterMap_cons, List.filterMap_cons, tail, rest.tails]
  | .cons _ first rest => rw [List.filterMap_cons, List.filterMap_cons, first.tail_eq, rest.tails]

/-- Expanding neither makes nor takes away scripts. -/
theorem ExpandsEach.scripts {expansions : Nat} {ns ms : List Node} (hr : Macros registry)
    (h : ExpandsEach registry expansions ns ms) : childScripts ms = childScripts ns := by
  match h with
  | .nil => rfl
  | .aside _ tag text _ rest =>
    rw [childScripts_cons, childScripts_cons, tag, bodyOf, bodyOf, text, rest.scripts hr]
  | .cons plain first rest =>
    have hn := not_isScriptTag plain
    have hm := not_isScriptTag (first.not_aside hr plain)
    simp only [childScripts_cons, hn, hm, Bool.false_eq_true, if_false, rest.scripts hr]

theorem startWidget_congr (kind : Widget.Kind) {tag : String} {attributes : List (String × String)}
    {text tail : Option String} (h : ms.filterMap (·.tail) = ns.filterMap (·.tail)) :
    startWidget kind (.mk tag attributes text ms tail) =
      startWidget kind (.mk tag attributes text ns tail) := by
  have hcontent : widgetContent (.mk tag attributes text ms tail) =
      widgetContent (.mk tag attributes text ns tail) := by
    unfold widgetContent Node.contentText
    dsimp only [Node.children, Node.text]
    rw [h]
  unfold startWidget
  rw [hcontent]
  rfl

mutual

/-- Without components the expansion is built as the element is with them. -/
theorem buildNode_of_expands (hr : Macros registry) {expansions : Nat} {n m : Node}
    (h : Expands registry expansions n m) (k : Nat) :
    buildNode registry expansions n = buildNode {} k m := by
  match h with
  | .call (n := .mk tag attributes text children tail) known bound inner =>
    have hknown : registry.get? tag = some _ := known
    rw [buildNode]
    simp only [hknown, if_pos bound]
    exact buildNode_of_expands hr inner k
  | @Expands.element _ _ tag _ _ _ _ _ unknown below =>
    have hempty : ({} : Registry).get? tag = none := rfl
    rw [buildNode, buildNode]
    simp only [unknown, hempty, startWidget_congr _ below.tails, widgetScript, below.scripts hr]
    cases Widget.Kind.ofTag? tag with
    | none => rfl
    | some kind =>
      dsimp only
      congr 1
      funext started
      rw [buildChildren_of_expands hr below k]

theorem buildChildren_of_expands (hr : Macros registry) {expansions : Nat} {ns ms : List Node}
    (h : ExpandsEach registry expansions ns ms) (k : Nat) {parent : WidgetId} {isContainer : Bool} :
    buildChildren registry expansions parent isContainer ns =
      buildChildren {} k parent isContainer ms := by
  match h with
  | .nil => rw [buildChildren, buildChildren]
  | .aside (n := n) (m := m) aside tag text _ rest =>
    have hrules : Build.addRules m = Build.addRules n := by
      unfold Build.addRules bodyOf
      rw [text]
    rw [buildChildren, buildChildren, tag, hrules, buildChildren_of_expands hr rest k]
    congr 1
    funext scope
    split
    · rfl
    split
    · rfl
    · next hstyle hscript => simp [isAside, hstyle, hscript] at aside
  | .cons plain first rest =>
    have hm := first.not_aside hr plain
    rw [buildChildren, buildChildren, buildNode_of_expands hr first k, buildChildren_of_expands hr rest k]
    simp only [not_isStyleTag plain, not_isStyleTag hm, not_isScriptTag plain, not_isScriptTag hm,
      Bool.false_eq_true, if_false]

end

mutual

theorem expands_of_expandNode {expansions : Nat} {n m : Node}
    (h : expandNode registry expansions n = some m) : Expands registry expansions n m := by
  cases n with
  | mk tag attributes text children tail =>
    rw [expandNode] at h
    cases hcomponent : registry.get? tag with
    | some component =>
      simp only [hcomponent] at h
      split at h
      · next hlt => exact .call hcomponent hlt (expands_of_expandNode h)
      · cases h
    | none =>
      simp only [hcomponent] at h
      obtain ⟨ms, hms, rfl⟩ := Option.map_eq_some_iff.mp h
      exact .element hcomponent (expandsEach_of_expandChildren hms)
termination_by (maxExpansions - expansions, sizeOf n)

theorem expandsEach_of_expandChildren {expansions : Nat} {ns ms : List Node}
    (h : expandChildren registry expansions ns = some ms) : ExpandsEach registry expansions ns ms := by
  cases ns with
  | nil =>
    rw [expandChildren] at h
    cases h
    exact .nil
  | cons n ns =>
    rw [expandChildren] at h
    split at h
    · next haside =>
      obtain ⟨others, hothers, rfl⟩ := Option.map_eq_some_iff.mp h
      exact .aside haside rfl rfl rfl (expandsEach_of_expandChildren hothers)
    · next haside =>
      obtain ⟨expanded, hexpanded, h⟩ := Option.bind_eq_some_iff.mp h
      obtain ⟨others, hothers, h⟩ := Option.bind_eq_some_iff.mp h
      cases h
      exact .cons (Bool.eq_false_iff.mpr haside) (expands_of_expandNode hexpanded)
        (expandsEach_of_expandChildren hothers)
termination_by (maxExpansions - expansions, sizeOf ns)

end

/-- A style or a script is no call, so that expanding below it leaves its own text. -/
theorem expandAll_aside (hr : Macros registry) {expansions : Nat} {n m : Node} (hn : isAside n = true)
    (h : expandAll registry expansions n = some m) :
    m.tag = n.tag ∧ m.text = n.text ∧ m.tail = n.tail := by
  cases n with
  | mk tag attributes text children tail =>
    rw [expandAll] at h
    cases hcomponent : registry.get? tag with
    | some component =>
      have hname : isAside (.mk tag attributes text children tail) = false := hr.name _ _ hcomponent
      rw [hname] at hn
      cases hn
    | none =>
      simp only [hcomponent] at h
      obtain ⟨ms, -, rfl⟩ := Option.map_eq_some_iff.mp h
      exact ⟨rfl, rfl, rfl⟩

mutual

theorem expands_of_expandAll (hr : Macros registry) {expansions : Nat} {n m : Node}
    (h : expandAll registry expansions n = some m) : Expands registry expansions n m := by
  cases n with
  | mk tag attributes text children tail =>
    rw [expandAll] at h
    cases hcomponent : registry.get? tag with
    | some component =>
      simp only [hcomponent] at h
      split at h
      · next hlt => exact .call hcomponent hlt (expands_of_expandAll hr h)
      · cases h
    | none =>
      simp only [hcomponent] at h
      obtain ⟨ms, hms, rfl⟩ := Option.map_eq_some_iff.mp h
      exact .element hcomponent (expandsEach_of_expandEach hr hms)
termination_by (maxExpansions - expansions, sizeOf n)

theorem expandsEach_of_expandEach (hr : Macros registry) {expansions : Nat} {ns ms : List Node}
    (h : expandEach registry expansions ns = some ms) : ExpandsEach registry expansions ns ms := by
  cases ns with
  | nil =>
    rw [expandEach] at h
    cases h
    exact .nil
  | cons n ns =>
    rw [expandEach] at h
    obtain ⟨expanded, hexpanded, h⟩ := Option.bind_eq_some_iff.mp h
    obtain ⟨others, hothers, h⟩ := Option.bind_eq_some_iff.mp h
    cases h
    have hrest := expandsEach_of_expandEach hr hothers
    cases haside : isAside n with
    | true =>
      obtain ⟨htag, htext, htail⟩ := expandAll_aside hr haside hexpanded
      exact .aside haside htag htext htail hrest
    | false => exact .cons haside (expands_of_expandAll hr hexpanded) hrest
termination_by (maxExpansions - expansions, sizeOf ns)

end

end expands

/-- Building an element with components has the outcome of building its expansion without any, be it an error
or a fragment, and leaves the same tree. It does not matter whether the expansion goes into the styles and
scripts. -/
theorem buildFragment_of_expanded {registry : Registry} (hr : Macros registry) {n m : Node}
    (h : expandAll registry 0 n = some m ∨ expandNode registry 0 n = some m) (tree : Tree) :
    buildFragment registry tree n = buildFragment {} tree m := by
  have hexpands : Expands registry 0 n m :=
    h.elim (expands_of_expandAll hr) expands_of_expandNode
  rw [buildFragment, buildFragment, buildNode_of_expands hr hexpands 0]

/-- A component whose template calls another one and goes on with what it is called with. -/
def panel : Component where
  name := "panel"
  params := [("title", "none")]
  template := .mk "tower" [] none [.mk "badge" [("label", "$title")] none [] none, .ofTag slotTag] none

def badge : Component where
  name := "badge"
  params := [("label", "none")]
  template := .mk "text" [] (some "$label") [] none

theorem buildFragment_of_expanded_panel :
    Macros ⟨[("badge", badge), ("panel", panel)]⟩ ∧ ∃ m,
      expandAll ⟨[("badge", badge), ("panel", panel)]⟩ 0
        (.mk "panel" [("title", "a")] none [.mk "badge" [] none [] (some "b"), .ofTag "script"] none) = some m ∧
      buildFragment ⟨[("badge", badge), ("panel", panel)]⟩ {}
        (.mk "panel" [("title", "a")] none [.mk "badge" [] none [] (some "b"), .ofTag "script"] none) =
          buildFragment {} {} m := by
  have hmacros : Macros ⟨[("badge", badge), ("panel", panel)]⟩ := macros_of_entries (by decide)
  have hexpands : (expandAll ⟨[("badge", badge), ("panel", panel)]⟩ 0
      (.mk "panel" [("title", "a")] none [.mk "badge" [] none [] (some "b"), .ofTag "script"] none)).isSome =
        true := by cbv
  obtain ⟨m, hm⟩ := Option.isSome_iff_exists.mp hexpands
  exact ⟨hmacros, m, hm, buildFragment_of_expanded hmacros (.inl hm) {}⟩

end Hypermedia.Markup
