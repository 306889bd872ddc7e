import Hypermedia.Proofs.Markup.Growth
import Hypermedia.Proofs.Tree.Extension

/-! What compiling leaves in a tree: nothing at the old places has changed, of the new widgets only the
root of the fragment is without a parent, and where it fails none is left. -/
namespace Hypermedia

namespace Tree

/-- `t` extends `base` by widgets that are no layers, and of which only `tops` may be adrift. -/
structure Sprouts (base t : Tree) (tops : List WidgetId) : Prop where
  grown : base.Extends t
  root : t.root = base.root
  pinned : ∀ x ∈ t.pinned, ¬ base.Unused x
  adrift : ∀ x, base.Unused x → t.Adrift x → x ∈ tops

variable {base t : Tree} {tops : List WidgetId} {x : WidgetId}

theorem Sprouts.adrift_old (h : base.Sprouts t tops) (hx : ¬ base.Unused x) (hadrift : t.Adrift x) :
    base.Adrift x where
  live := by
    rw [contains, ← h.grown.get?_eq x hx]
    exact hadrift.live
  top := (h.grown.parent?_eq hx).symm.trans hadrift.top
  not_root := h.root ▸ hadrift.not_root
  not_pinned hpin := by
    rw [← h.grown.pinned] at hpin
    exact hadrift.not_pinned (List.mem_of_mem_filter hpin)

theorem Sprouts.sane (h : base.Sprouts t tops) (hb : base.Sane) : t.Sane where
  forest := h.grown.forest
  pins := h.grown.pins
  root r hr hunused := hb.root r (h.root ▸ hr) (hunused.of_size_le h.grown.size_le)

theorem Sprouts.refl (h : base.Forest) (hp : base.Pins) : base.Sprouts base [] where
  grown := .refl h hp
  root := rfl
  pinned x hx := not_unused_of_contains (hp.contains x hx)
  adrift _ hx hadrift := absurd hx (not_unused_of_contains hadrift.live)

end Tree

namespace Markup

open Effect (Meets)

variable {base : Tree} {tops : List WidgetId} {parent child : WidgetId}

/-- What is built so far on top of a tree, `tops` of it without a parent. -/
structure Building.Fresh (base : Tree) (tops : List WidgetId) (s : Building) : Prop where
  sprouts : base.Sprouts s.tree tops
  unused : ∀ x ∈ s.widgets, base.Unused x
  listed : ∀ x, base.Unused x → s.tree.contains x = true → x ∈ s.widgets

/-- What is left of a failure to build. -/
def Building.Left (base : Tree) (s : Building) : Prop :=
  ∃ tops, s.Fresh base tops

theorem Building.Fresh.left {s : Building} (h : s.Fresh base tops) : s.Left base :=
  ⟨tops, h⟩

namespace Build

variable {P : Building → Prop}

theorem meets_lift {ε α : Type} (into : ε → Error) (r : Except ε α)
    (h : ∀ s, P s → s.Left base) :
    Meets P (lift into r) (fun a s => P s ∧ r = .ok a) (Building.Left base) := by
  cases r with
  | ok a => exact Effect.meets_pure fun s hs => ⟨hs, rfl⟩
  | error e => exact Effect.meets_throw _ h

theorem fresh_with {s : Building} (hs : s.Fresh base tops) {w : Widget} (hw : w.IsUnlinked) :
    (s.with w).Fresh base ((s.tree.construct w).1 :: tops) ∧ base.Unused (s.tree.construct w).1 := by
  have hnew : base.Unused (s.tree.construct w).1 := hs.sprouts.grown.size_le
  refine ⟨⟨⟨hs.sprouts.grown.construct hw, hs.sprouts.root, hs.sprouts.pinned, fun x hx hadrift => ?_⟩,
    ?_, fun x hx hlive => ?_⟩, hnew⟩
  · rcases Tree.adrift_of_construct hw hadrift with hold | rfl
    · exact List.mem_cons_of_mem _ (hs.sprouts.adrift x hx hold)
    · exact List.mem_cons_self
  · exact List.forall_mem_append.mpr ⟨hs.unused, List.forall_mem_singleton.mpr hnew⟩
  · by_cases hid : x.index = s.tree.slots.size
    · exact List.mem_append_right _ (List.mem_singleton.mpr (WidgetId.ext hid))
    · have hold : s.tree.contains x = true := by
        change (s.tree.construct w).2.contains x = true at hlive
        rwa [Tree.contains, Tree.get?_construct, if_neg hid] at hlive
      exact List.mem_append_left _ (hs.listed x hx hold)

theorem fresh_modifyWidget {s : Building} {id : WidgetId} {f : Widget → Widget}
    (hs : s.Fresh base tops) (hid : base.Unused id)
    (hf : ∀ w, s.tree.get? id = some w → (f w).SameLinks w) :
    { s with tree := s.tree.modify id f }.Fresh base tops where
  sprouts := ⟨hs.sprouts.grown.modify hid hf, hs.sprouts.root, hs.sprouts.pinned, fun x hx hadrift =>
    hs.sprouts.adrift x hx ((Tree.adrift_modify_iff hf).mp hadrift)⟩
  unused := hs.unused
  listed x hx hlive := hs.listed x hx (Tree.contains_modify ▸ hlive)

theorem meets_query (id : WidgetId) : Meets P (query id) (fun _ => P) (Building.Left base) :=
  fun _ hs => hs

theorem meets_addRules (n : Node) (scope : String) :
    Meets (Building.Fresh base tops) (addRules n scope) (fun _ => Building.Fresh base tops)
      (Building.Left base) := by
  refine Effect.meets_bind (meets_lift _ _ fun s hs => hs.left) fun rules => ?_
  exact Effect.meets_modify fun s hs => ⟨hs.1.sprouts, hs.1.unused, hs.1.listed⟩

/-- A child that its parent takes is no longer without one. -/
theorem meets_adopt (hb : base.Forest) (hparent : base.Unused parent) (hchild : base.Unused child) :
    Meets (Building.Fresh base (child :: tops)) (adopt parent child)
      (fun _ => Building.Fresh base tops) (Building.Left base) := by
  intro s hs
  have hforest := hs.sprouts.grown.forest
  have hgrown : base.Extends (s.tree.append parent child).2 :=
    hs.sprouts.grown.insert hb hparent hchild
  have hroot : (s.tree.append parent child).2.root = base.root :=
    Tree.root_insert.trans hs.sprouts.root
  have hpinned : ∀ x ∈ (s.tree.append parent child).2.pinned, ¬ base.Unused x := fun x hx =>
    hs.sprouts.pinned x (hforest.mem_pinned_of_insert hx)
  have hlisted : ∀ x, base.Unused x → (s.tree.append parent child).2.contains x = true →
      x ∈ s.widgets := fun x hx hlive => hs.listed x hx (Tree.contains_insert ▸ hlive)
  have hadrift : ∀ x, (s.tree.append parent child).2.Adrift x →
      s.tree.Adrift x ∧ (s.tree.Admits parent child → x ≠ child) := fun x hx =>
    hforest.adrift_of_insert hx
  have hok := @Tree.Forest.insert_ok_iff s.tree parent child (s.tree.children parent).length hforest
  rw [adopt, Effect.run_get_bind]
  dsimp only
  rw [Effect.run_set_bind]
  unfold Tree.append at hgrown hroot hpinned hlisted hadrift ⊢
  cases hr : s.tree.insert parent (s.tree.children parent).length child with
  | mk outcome tree =>
    rw [hr] at hgrown hroot hpinned hlisted hadrift hok
    cases outcome with
    | error e =>
      -- what has failed to find a place stays on top, to be removed with the rest
      exact ⟨child :: tops, ⟨hgrown, hroot, hpinned, fun x hx h => hs.sprouts.adrift x hx (hadrift x h).1⟩,
        hs.unused, hlisted⟩
    | ok =>
      refine ⟨⟨hgrown, hroot, hpinned, fun x hx h => ?_⟩, hs.unused, hlisted⟩
      have hne := (hadrift x h).2 (hok.mp rfl)
      exact (List.mem_cons.mp (hs.sprouts.adrift x hx (hadrift x h).1)).resolve_left hne

end Build

theorem meets_startWidget (kind : Widget.Kind) (n : Node) :
    Meets (Building.Fresh base tops) (startWidget kind n)
      (fun started s => s.Fresh base (started.1 :: tops) ∧ base.Unused started.1)
      (Building.Left base) := by
  intro s hs
  rw [startWidget_eq]
  cases hc : n.attributes.foldlM configure ⟨{ kind }, []⟩ with
  | ok c =>
    have hlinks : c.widget.SameLinks { kind } := (sameBonds_configureAll hc).1
    exact Build.fresh_with hs (w := { c.widget with content := widgetContent n }) ⟨hlinks.1, hlinks.2.1⟩
  | error e => exact (Build.fresh_with hs (w := { kind }) ⟨rfl, rfl⟩).1.left

mutual

theorem meets_buildNode (hb : base.Forest) (registry : Registry) (expansions : Nat) (n : Node)
    (tops : List WidgetId) :
    Meets (Building.Fresh base tops) (buildNode registry expansions n)
      (fun id s => s.Fresh base (id :: tops) ∧ base.Unused id) (Building.Left base) := by
  cases n with
  | mk tag attributes text children tail =>
    rw [buildNode]
    dsimp only
    split
    · split
      · exact meets_buildNode hb registry (expansions + 1) _ tops
      · exact Effect.meets_throw _ fun s hs => hs.left
    · split
      · exact Effect.meets_throw _ fun s hs => hs.left
      · next kind _ =>
        refine Effect.meets_bind (meets_startWidget kind _) fun started => ?_
        refine Effect.meets_of_and fun hid => ?_
        refine Effect.meets_bind
          (meets_buildChildren hb registry expansions started.1 hid _ children _) fun _ => ?_
        have hdone : Meets (Building.Fresh base (started.1 :: tops)) (pure started.1 : Build WidgetId)
            (fun id s => s.Fresh base (id :: tops) ∧ base.Unused id) (Building.Left base) :=
          Effect.meets_pure fun s hs => ⟨hs, hid⟩
        split
        · refine Effect.meets_bind (Effect.meets_modify fun s hs => ?_) fun _ => hdone
          exact Build.fresh_modifyWidget hs hid fun w _ => ⟨rfl, rfl, rfl⟩
        · exact hdone
termination_by (maxExpansions - expansions, sizeOf n)

/-- Every child that is built finds its place in its parent. -/
theorem meets_buildChildren (hb : base.Forest) (registry : Registry) (expansions : Nat)
    (parent : WidgetId) (hparent : base.Unused parent) (isContainer : Bool) (children : List Node)
    (tops : List WidgetId) :
    Meets (Building.Fresh base tops)
      (buildChildren registry expansions parent isContainer children)
      (fun _ => Building.Fresh base tops) (Building.Left base) := by
  cases children with
  | nil =>
    rw [buildChildren]
    exact Effect.meets_pure fun s hs => hs
  | cons child rest =>
    have hrest := meets_buildChildren hb registry expansions parent hparent isContainer rest tops
    rw [buildChildren]
    refine Effect.meets_bind (Build.meets_query parent) fun scope => ?_
    split
    · exact Effect.meets_bind (Build.meets_addRules child scope) fun _ => hrest
    split
    · exact hrest
    split
    · exact Effect.meets_bind (Q := fun _ => Building.Fresh base tops)
        (Effect.meets_throw _ fun s hs => hs.left) fun _ => hrest
    · refine Effect.meets_bind (meets_buildNode hb registry expansions child tops) fun id => ?_
      refine Effect.meets_of_and fun hid => ?_
      exact Effect.meets_bind (Build.meets_adopt hb hparent hid) fun _ => hrest
termination_by (maxExpansions - expansions, sizeOf children)

end

end Markup

/-- Nothing is left of what was added to `base`. -/
structure Tree.Regains (base t : Tree) : Prop where
  sprouts : base.Sprouts t []
  gone : ∀ x, base.Unused x → t.contains x = false

theorem Tree.Regains.refl {base : Tree} (h : base.Forest) (hp : base.Pins) : base.Regains base where
  sprouts := .refl h hp
  gone _ hx := Bool.eq_false_iff.mpr fun hlive => not_unused_of_contains hlive hx

namespace Markup

open Effect (Meets)

variable {base : Tree}

/-- A fragment added to `base`, of which only the root has no parent. -/
structure Fragment.New (base : Tree) (fragment : Fragment) (t : Tree) : Prop where
  sprouts : base.Sprouts t [fragment.root]
  root : base.Unused fragment.root
  used : ¬ t.Unused fragment.root
  widgets : ∀ x ∈ fragment.widgets, base.Unused x

/-- A content that is new, or none and the tree as it was. -/
def Page.New (base : Tree) (page : Page) (t : Tree) : Prop :=
  match page.content with
  | some fragment => fragment.New base t
  | none => t = base

variable (hb : base.Sane)

include hb

theorem Page.New.sprouts {page : Page} {t : Tree} (h : page.New base t) :
    base.Sprouts t (page.content.map Fragment.root).toList ∧
      ∀ r, page.content.map Fragment.root = some r → base.Unused r ∧ ¬ t.Unused r := by
  unfold Page.New at h
  split at h
  · next fragment hcontent =>
    rw [hcontent]
    exact ⟨h.sprouts, fun r hr => Option.some.inj hr ▸ ⟨h.root, h.used⟩⟩
  · next hcontent =>
    rw [hcontent, h]
    exact ⟨.refl hb.forest hb.pins, nofun⟩

theorem regains_same {s : Workspace} (hs : s.tree = base) : base.Regains s.tree := by
  rw [hs]
  exact .refl hb.forest hb.pins

theorem regains_removeAll {s : Building} (hs : s.Left base) :
    base.Regains (s.tree.removeAll s.widgets) := by
  obtain ⟨tops, hs⟩ := hs
  have hgone : ∀ x, base.Unused x → (s.tree.removeAll s.widgets).contains x = false := by
    intro x hx
    cases hlive : s.tree.contains x with
    | true => exact Tree.not_contains_removeAll hs.sprouts.grown.forest (hs.listed x hx hlive) .refl
    | false =>
      refine Bool.eq_false_iff.mpr fun hafter => ?_
      have hbefore := (hs.sprouts.grown.forest.contains_removeAll_iff.mp hafter).1
      rw [hlive] at hbefore
      cases hbefore
  refine ⟨⟨hs.sprouts.grown.removeAll hb.forest hs.unused, hb.root_removeAll hs.sprouts.root hs.unused,
    fun x hx => ?_, fun x hx hadrift => ?_⟩, hgone⟩
  · exact hs.sprouts.pinned x (Tree.mem_pinned_of_removeAll hx).1
  · cases (hgone x hx).symm.trans hadrift.live

theorem meets_buildContent (n : Node) :
    Meets (fun s : Workspace => s.tree = base) (buildContent n)
      (fun fragment t => fragment.New base t.tree) (fun t => base.Regains t.tree) := by
  rintro ⟨registry, tree⟩ htree
  obtain rfl : base = tree := htree.symm
  rw [run_buildContent, buildFragment]
  have hfresh : Building.Fresh base [] { tree := base } := by
    refine ⟨.refl hb.forest hb.pins, ?_, fun x hx hlive => ?_⟩
    · exact fun x hx => absurd hx List.not_mem_nil
    · exact absurd hx (Tree.not_unused_of_contains hlive)
  have hbuilt := meets_buildNode hb.forest registry 0 n [] { tree := base } hfresh
  cases hr : (buildNode registry 0 n).run { tree := base } with
  | mk outcome s =>
    have hrun : buildNode registry 0 n { tree := base } = (outcome, s) := hr
    rw [hrun] at hbuilt
    cases outcome with
    | ok root =>
      have hmade : Building.Makes { tree := base } root s := makes_buildNode registry 0 n _ _ _ hrun
      exact ⟨hbuilt.1.sprouts, hbuilt.2, Nat.not_le_of_lt hmade.2, hbuilt.1.unused⟩
    | error e => exact regains_removeAll hb hbuilt

theorem meets_declare (p : Page) (child : Node) :
    Meets (fun s : Workspace => s.tree = base ∧ p.content = none) (declare p child)
      (fun p s => s.tree = base ∧ p.content = none) (fun t => base.Regains t.tree) := by
  have hkeep : Meets (fun s : Workspace => s.tree = base ∧ p.content = none) (pure p : Compile Page)
      (fun p s => s.tree = base ∧ p.content = none) (fun t => base.Regains t.tree) :=
    Effect.meets_pure fun s hs => hs
  unfold declare
  split
  · refine Effect.meets_bind (fun s hs => ?_) fun _ => hkeep
    rw [declareLibrary, Effect.run_get_bind]
    dsimp only
    rw [Effect.run_set_bind]
    cases (s.registry.registerLibrary child).1 with
    | ok => exact hs
    | error e => exact regains_same hb hs.1
  split
  · refine Effect.meets_bind (fun s hs => ?_) fun _ => hkeep
    unfold declareComponent
    cases Component.ofNode child none with
    | ok c => exact hs
    | error e => exact regains_same hb hs.1
  split
  · split
    · exact Effect.meets_pure fun s hs => hs
    · exact Effect.meets_throw _ fun s hs => regains_same hb hs.1
  split
  · exact Effect.meets_pure fun s hs => hs
  · exact hkeep

/-- A content of which `Q` holds, or none and the tree as it was. -/
def Page.Holds (base : Tree) (Q : Fragment → Tree → Prop) (page : Page) (t : Tree) : Prop :=
  match page.content with
  | some fragment => Q fragment t
  | none => t = base

section content

variable {Q : Fragment → Tree → Prop}
  (hcontent : ∀ n, Meets (fun s : Workspace => s.tree = base) (buildContent n)
    (fun fragment t => Q fragment t.tree) (fun t => base.Regains t.tree))

include hcontent

/-- What holds of all content that is built holds of that of a page. -/
theorem holds_compileElement (page : Node) :
    Meets (fun s : Workspace => s.tree = base) (compileElement page)
      (fun page t => page.Holds base Q t.tree) (fun t => base.Regains t.tree) := by
  have hdeclared := Effect.meets_foldlM (fun p child => meets_declare hb p child) page.children
    { properties := page.attributes, title := page.attribute? "title" }
  refine Effect.meets_bind (fun s hs => hdeclared s ⟨hs, rfl⟩) fun declared => ?_
  split
  · refine Effect.meets_pure fun s hs => ?_
    rw [Page.Holds, hs.2]
    exact hs.1
  · refine Effect.meets_bind (fun s hs => hcontent _ s hs.1) fun fragment => ?_
    exact Effect.meets_pure fun s hs => hs

theorem holds_compilePage (document : Node) :
    Meets (fun s : Workspace => s.tree = base) (compilePage document)
      (fun page t => page.Holds base Q t.tree) (fun t => base.Regains t.tree) := by
  unfold compilePage
  split
  · exact Effect.meets_throw _ fun _ => regains_same hb
  · dsimp only
    split
    · exact Effect.meets_throw _ fun _ => regains_same hb
    · exact holds_compileElement hb hcontent _

theorem holds_compileFragment (n : Node)
    (hrules : ∀ (fragment : Fragment) rules t, Q fragment t → Q { fragment with rules } t) :
    Meets (fun s : Workspace => s.tree = base) (compileFragment n)
      (fun fragment t => Q fragment t.tree) (fun t => base.Regains t.tree) := by
  unfold compileFragment
  split
  · exact hcontent n
  · refine Effect.meets_bind (holds_compilePage hb hcontent n) fun page => ?_
    split
    · next hnone =>
      refine Effect.meets_throw _ fun s hs => ?_
      rw [Page.Holds, hnone] at hs
      exact regains_same hb hs
    · next fragment hsome =>
      refine Effect.meets_pure fun s hs => ?_
      rw [Page.Holds, hsome] at hs
      exact hrules _ _ _ hs

end content

theorem meets_compilePage (document : Node) :
    Meets (fun s : Workspace => s.tree = base) (compilePage document)
      (fun page t => page.New base t.tree) (fun t => base.Regains t.tree) :=
  holds_compilePage hb (meets_buildContent hb) document

theorem meets_compileFragment (n : Node) :
    Meets (fun s : Workspace => s.tree = base) (compileFragment n)
      (fun fragment t => fragment.New base t.tree) (fun t => base.Regains t.tree) :=
  holds_compileFragment hb (meets_buildContent hb) n fun _ _ _ h => ⟨h.sprouts, h.root, h.used, h.widgets⟩

end Markup

end Hypermedia
