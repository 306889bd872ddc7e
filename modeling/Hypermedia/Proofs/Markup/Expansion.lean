import Hypermedia.Markup.Build

/-! Elements with their components expanded, and the widgets that mirror them. -/
namespace Hypermedia.Markup

/-- Whether a child stands for no widget: it is a style or a script of the widget around it. -/
def isAside (n : Node) : Bool :=
  isStyleTag n.tag || isScriptTag n.tag

mutual

/-- An element with the components at it and below it expanded, `expansions` of them open already, unless
they nest too deep. -/
def expandNode (registry : Registry) (expansions : Nat) (n : Node) : Option Node :=
  match n with
  | .mk tag attributes text children tail =>
    match registry.get? tag with
    | some component =>
      if expansions < maxExpansions then
        expandNode registry (expansions + 1) (component.expand (.mk tag attributes text children tail))
      else none
    | none => (expandChildren registry expansions children).map (.mk tag attributes text · tail)
termination_by (maxExpansions - expansions, sizeOf n)

def expandChildren (registry : Registry) (expansions : Nat) (children : List Node) :
    Option (List Node) :=
  match children with
  | [] => some []
  | child :: rest =>
    if isAside child then (expandChildren registry expansions rest).map (child :: ·)
    else do
      let expanded ← expandNode registry expansions child
      let others ← expandChildren registry expansions rest
      return expanded :: others
termination_by (maxExpansions - expansions, sizeOf children)

end

mutual

/-- A widget stands for an element: it is of the kind of its tag, and its children stand for the children of
the element but for styles and scripts, in their order. -/
def Mirrors (t : Tree) : Node → WidgetId → Prop
  | .mk tag _ _ children _, id =>
    ∃ w, t.get? id = some w ∧ Widget.Kind.ofTag? tag = some w.kind ∧ MirrorsAll t children w.children

def MirrorsAll (t : Tree) : List Node → List WidgetId → Prop
  | [], ids => ids = []
  | n :: rest, ids =>
    if isAside n then MirrorsAll t rest ids
    else ∃ id others, ids = id :: others ∧ Mirrors t n id ∧ MirrorsAll t rest others

end

section mirrors

variable {t u : Tree} {id : WidgetId} {m : Node} {ms ns : List Node} {ids more : List WidgetId}

theorem isAside_of_kind {n : Node} {kind : Widget.Kind} (h : Widget.Kind.ofTag? n.tag = some kind) :
    isAside n = false := by
  have hnone : ∀ tag ∈ ["style", "styles", "script", "lua"], Widget.Kind.ofTag? tag = none := by
    decide
  refine Bool.eq_false_iff.mpr fun haside => ?_
  have htag : n.tag ∈ ["style", "styles", "script", "lua"] := by
    simpa [isAside, isStyleTag, isScriptTag, or_assoc] using haside
  exact Option.some_ne_none _ (h.symm.trans (hnone n.tag htag))

theorem Mirrors.not_aside (h : Mirrors t m id) : isAside m = false := by
  cases m with
  | mk tag attributes text children tail =>
    rw [Mirrors] at h
    obtain ⟨w, -, hkind, -⟩ := h
    exact isAside_of_kind (n := .mk tag attributes text children tail) hkind

theorem mirrorsAll_single (h : Mirrors t m id) : MirrorsAll t [m] [id] := by
  rw [MirrorsAll, h.not_aside]
  exact ⟨id, [], rfl, h, rfl⟩

theorem MirrorsAll.append (h : MirrorsAll t ms ids) (k : MirrorsAll t ns more) :
    MirrorsAll t (ms ++ ns) (ids ++ more) := by
  induction ms generalizing ids with
  | nil =>
    rw [MirrorsAll] at h
    rwa [h]
  | cons m ms ih =>
    rw [MirrorsAll] at h
    rw [List.cons_append, MirrorsAll]
    split
    · next haside =>
      rw [if_pos haside] at h
      exact ih h
    · next haside =>
      rw [if_neg haside] at h
      obtain ⟨id, others, rfl, hid, hothers⟩ := h
      exact ⟨id, others ++ more, rfl, hid, ih hothers⟩

end mirrors

end Hypermedia.Markup
