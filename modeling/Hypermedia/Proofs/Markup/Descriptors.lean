import Hypermedia.Proofs.Markup.Declarations
import Hypermedia.Proofs.Markup.Depth
import Hypermedia.Proofs.Tree.Wired

/-! Descriptors of actions in markup: what compiling binds is what the attributes say of the elements that it
comes to. -/
namespace Hypermedia.Markup

open Effect (Moves)

variable {registry : Registry} {n : Node}

/-- What widgets are made of: the elements, and the components that are known then. -/
structure Material where
  registry : Registry
  elements : List Node

namespace Material

/-- The content of a page, once its declarations have been read. -/
def ofPage (registry : Registry) (document : Node) : Material where
  registry := (declarations document).foldl Registry.register registry
  elements := (pageElement? document).toList.flatMap contentNodes

/-- An answer to a request, or the content of a whole document. -/
def ofFragment (registry : Registry) (n : Node) : Material :=
  if n.tag ≠ "celx" ∧ n.tag ≠ "page" then ⟨registry, [n]⟩ else ofPage registry n

/-- Whether an attribute makes this binding of an element that stands in the material, with its components
expanded. -/
def Declares (m : Material) (b : String × Binding) : Prop :=
  ∃ n ∈ m.elements, ∃ depth element, Nested m.registry n depth element ∧ Markup.Declares element b

theorem Declares.actions {m : Material} {b : String × Binding} (h : m.Declares b) :
    isEventName b.1 = true ∧ ∃ list, b.2 = .actions list := by
  obtain ⟨n, -, depth, element, -, entry, -, hdeclared⟩ := h
  exact actions_of_declared? hdeclared

/-- More elements declare no less. -/
theorem Declares.of_mem {elements : List Node} {b : String × Binding} (h : Declares ⟨registry, [n]⟩ b)
    (hn : n ∈ elements) : Declares ⟨registry, elements⟩ b := by
  obtain ⟨m, hm, hdeclares⟩ := h
  obtain rfl := List.mem_singleton.mp hm
  exact ⟨m, hn, hdeclares⟩

end Material

theorem closed_nested (registry : Registry) (n : Node) :
    Closed registry fun element => ∃ depth, Nested registry n depth element where
  expanded _ _ := fun ⟨depth, hm⟩ hc => ⟨depth + 1, hm.expanded hc⟩
  child _ _ := fun ⟨depth, hm⟩ hc hmem haside => ⟨depth, hm.child hc hmem haside⟩

/-- The widgets that there were are wired as before, and what the others bind is declared. -/
def Building.Wires (registry : Registry) (n : Node) (s t : Building) : Prop :=
  Tree.Wires (Material.Declares ⟨registry, [n]⟩) s.tree t.tree

instance : IsPreorder Building (Building.Wires registry n) where
  refl s := .refl s.tree
  trans _ _ _ := .trans

theorem wires_conveys (registry : Registry) (n : Node) :
    Building.Conveys (fun element => ∃ depth, Nested registry n depth element)
      (Building.Wires registry n) where
  construct s w _ hbindings := Tree.wires_construct fun b hb => by
    obtain ⟨element, ⟨depth, hnested⟩, hdeclares⟩ := hbindings b hb
    exact ⟨n, List.mem_singleton_self n, depth, element, hnested, hdeclares⟩
  script _ _ _ := Tree.wires_modify fun _ _ => ⟨rfl, rfl⟩
  append s parent child := Tree.wires_insert s.tree parent _ child
  rules s _ := .refl s.tree

theorem wires_buildFragment (registry : Registry) (tree : Tree) (n : Node) :
    Tree.Wires (Material.Declares ⟨registry, [n]⟩) tree (buildFragment registry tree n).2 := by
  have hbuilt : Building.Wires registry n { tree } (buildNode registry 0 n { tree }).2 :=
    (wires_conveys registry n).buildNode (closed_nested registry n) 0 n ⟨0, .root⟩ { tree }
  unfold buildFragment
  cases hr : (buildNode registry 0 n).run { tree } with
  | mk outcome t =>
    have hrun : buildNode registry 0 n { tree } = (outcome, t) := hr
    rw [hrun] at hbuilt
    cases outcome with
    | ok root => exact hbuilt
    | error e => exact Tree.Wires.trans hbuilt (Tree.wires_removeAll t.tree t.widgets)

theorem wires_buildContent (n : Node) (s : Workspace) :
    Tree.Wires (Material.Declares ⟨s.registry, [n]⟩) s.tree (buildContent n s).2.tree := by
  rw [run_buildContent]
  exact wires_buildFragment s.registry s.tree n

theorem wires_compileElement (page : Node) (s : Workspace) :
    Tree.Wires (Material.Declares
      ⟨((reached page.children).flatMap components).foldl Registry.register s.registry, contentNodes page⟩)
      s.tree (compileElement page s).2.tree := by
  obtain h | ⟨n, rest, hcontent, h⟩ := state_compileElement page s <;> rw [h]
  · exact .refl s.tree
  · rw [hcontent]
    have hbuilt := wires_buildContent n
      { s with registry := ((reached page.children).flatMap components).foldl Registry.register s.registry }
    exact hbuilt.mono fun b hb => hb.of_mem List.mem_cons_self

theorem wires_compilePage (document : Node) (s : Workspace) :
    Tree.Wires (Material.ofPage s.registry document).Declares s.tree (compilePage document s).2.tree := by
  unfold compilePage Material.ofPage declarations
  cases pageElement? document with
  | none => exact .refl s.tree
  | some page =>
    have hbuilt := wires_compileElement page s
    dsimp only
    split
    · exact .refl s.tree
    · simpa using hbuilt

theorem wires_compileFragment (n : Node) (s : Workspace) :
    Tree.Wires (Material.ofFragment s.registry n).Declares s.tree (compileFragment n s).2.tree := by
  rw [state_compileFragment, Material.ofFragment]
  split
  · exact wires_buildContent n s
  · exact wires_compilePage n s

end Hypermedia.Markup
