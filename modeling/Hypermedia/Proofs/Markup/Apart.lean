import Hypermedia.Proofs.Markup.Compiled
import Hypermedia.Proofs.Tree.Parts

/-! Fragments that have just been compiled stand apart: their widgets are new, no link leads from them or to
them, and nothing of a script is bound to them. -/
namespace Hypermedia

namespace Tree

variable {base t : Tree} {inside : WidgetId → Prop} {tops : List WidgetId}

/-- What was enclosed stays so where a tree grows beside it. -/
theorem Sprouts.shields (h : base.Sprouts t tops) (he : base.Encloses inside) : Shields inside base t := by
  have hold : ∀ x, inside x → ¬ base.Unused x := fun x hx => not_unused_of_contains (he.live x hx)
  refine he.shields h.grown.forest (fun x hx => h.grown.get?_eq x (hold x hx)) ?_ fun x hx => ?_
  · rw [h.root]
    exact he.root
  · exact he.pinned x (h.grown.mem_pinned hx (h.pinned x hx))

end Tree

namespace Markup

open Effect (Meets Moves)
open Hypermedia.Tree (places)

/-- A widget that was bare still is. -/
def Building.Bares (s t : Building) : Prop :=
  ∀ x, s.tree.Bare x → t.tree.Bare x

instance : IsPreorder Building Building.Bares where
  refl _ _ hx := hx
  trans _ _ _ h k x hx := k x (h x hx)

theorem bares_conveys : Building.Conveys (fun _ => True) Building.Bares where
  construct _ _ hw hbindings _ hx := by
    obtain ⟨kind, hbonds⟩ := hw
    exact hx.construct (isBare_of_declares hbonds fun b hb => (hbindings b hb).imp fun _ hn => hn.2)
  script _ _ _ _ hx := hx.modify fun _ hw => hw.congr rfl rfl
  append _ _ _ _ hx := hx.insert
  rules _ _ _ hx := hx

/-- A fragment that a tree has got beside the widgets of `base`, with nothing bound yet. -/
structure Fragment.Apart (base : Tree) (c : Fragment) (t : Tree) : Prop where
  new : c.New base t
  spans : t.Spans c.root c.widgets
  bare : ∀ x ∈ c.widgets, t.Bare x

variable {base v : Tree} {registry : Registry} {n : Node} {c : Fragment} {page : Page}

theorem Page.Holds.new (h : page.Holds base (Fragment.Apart base) v) : page.New base v := by
  unfold Page.Holds at h
  unfold Page.New
  cases hcontent : page.content with
  | none => rwa [hcontent] at h
  | some c =>
    rw [hcontent] at h
    exact h.new

theorem spans_of_buildFragment (hb : base.Sane) (h : buildFragment registry base n = (.ok c, v)) :
    v.Spans c.root c.widgets := by
  obtain ⟨m, t, -, hroots, rfl, hwidgets⟩ := roots_of_buildFragment hb h
  have hlisted : c.widgets = places base.slots.size t.tree.slots.size :=
    hwidgets.symm.trans hroots.outgrows.widgets
  have hwalked : c.widgets = t.tree.descendants c.root :=
    hlisted.trans (hroots.walk _ (Nat.le_add_right _ _)).symm
  have hforest := hroots.outgrows.sane.forest
  have hnew : base.Unused c.root := Nat.le_of_eq hroots.index.symm
  refine ⟨hroots.outgrows.live _ hnew hroots.used, hroots.top, fun x => ?_, hlisted ▸ Tree.nodup_places, ?_⟩
  · rw [hwalked, hforest.mem_descendants_iff]
  · rw [hwalked]
    exact hforest.pairwise_walk _ _

theorem bare_of_buildFragment (h : buildFragment registry base n = (.ok c, v)) (x : WidgetId)
    (hx : base.Bare x) : v.Bare x := by
  have hbuilt : Moves Building.Bares (buildNode registry 0 n) := bares_conveys.buildNode closed_true 0 n trivial
  have hstep := hbuilt { tree := base } x hx
  unfold buildFragment at h
  cases hr : (buildNode registry 0 n).run { tree := base } with
  | mk outcome t =>
    have hrun : buildNode registry 0 n { tree := base } = (outcome, t) := hr
    rw [hrun] at hstep
    rw [hr] at h
    cases outcome with
    | ok root =>
      cases h
      exact hstep
    | error e => cases h

variable (hb : base.Sane)

include hb

theorem apart_buildContent (n : Node) :
    Meets (fun s : Workspace => s.tree = base) (buildContent n)
      (fun fragment t => fragment.Apart base t.tree) (fun t => base.Regains t.tree) := by
  intro s hs
  have hmeets := meets_buildContent hb n s hs
  subst hs
  rw [run_buildContent] at hmeets ⊢
  cases hr : buildFragment s.registry s.tree n with
  | mk outcome v =>
    rw [hr] at hmeets
    cases outcome with
    | error e => exact hmeets
    | ok c =>
      have hnew : c.New s.tree v := hmeets
      exact ⟨hnew, spans_of_buildFragment hb hr, fun x hx =>
        bare_of_buildFragment hr x (Tree.bare_of_unused (hnew.widgets x hx))⟩

theorem apart_compilePage (document : Node) :
    Meets (fun s : Workspace => s.tree = base) (compilePage document)
      (fun page t => page.Holds base (Fragment.Apart base) t.tree) (fun t => base.Regains t.tree) :=
  holds_compilePage hb (apart_buildContent hb) document

theorem apart_compileFragment (n : Node) :
    Meets (fun s : Workspace => s.tree = base) (compileFragment n)
      (fun fragment t => fragment.Apart base t.tree) (fun t => base.Regains t.tree) := by
  refine holds_compileFragment hb (apart_buildContent hb) n fun fragment rules t h => ?_
  exact ⟨⟨h.new.sprouts, h.new.root, h.new.used, h.new.widgets⟩, h.spans, h.bare⟩

end Markup

end Hypermedia
