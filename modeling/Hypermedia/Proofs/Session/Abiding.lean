import Hypermedia.Proofs.Session.Stale
import Hypermedia.Proofs.Tree.Scoped

/-! Steps that give no widget a scope: all that a session does but binding the scripts of what it has
placed, and none of it takes a scope out of the one it was made in. -/
namespace Hypermedia

namespace Markup

open Effect (Moves)

/-- No widget of the tree under construction is given a scope. -/
def Building.Sheds (s t : Building) : Prop :=
  s.tree.Sheds t.tree

instance : IsPreorder Building Building.Sheds where
  refl s := .refl s.tree
  trans _ _ _ := .trans

/-- No widget of the tree of a workspace is given a scope. -/
def Workspace.Sheds (s t : Workspace) : Prop :=
  s.tree.Sheds t.tree

instance : IsPreorder Workspace Workspace.Sheds where
  refl s := .refl s.tree
  trans _ _ _ := .trans

theorem sheds_carries : Building.Carries Building.Sheds where
  construct _ _ hw := by
    obtain ⟨_, hw⟩ := hw
    exact Tree.sheds_construct hw
  script _ _ _ := Tree.sheds_modify fun _ _ => ⟨⟨rfl, rfl, rfl⟩, rfl⟩
  append s parent child := s.tree.sheds_append parent child
  rules s _ := .refl s.tree

theorem sheds_buildFragment (registry : Registry) (tree : Tree) (n : Node) :
    tree.Sheds (buildFragment registry tree n).2 := by
  have hbuilt := sheds_carries.buildNode registry 0 n { tree }
  unfold buildFragment
  change tree.Sheds ((buildNode registry 0 n).run { tree }).2.tree at hbuilt
  split
  · next hrun =>
    rw [hrun] at hbuilt
    exact hbuilt
  · next hrun =>
    rw [hrun] at hbuilt
    exact hbuilt.trans (Tree.sheds_removeAll _ _)

theorem compiling_sheds : Workspace.Carries Workspace.Sheds where
  content n s := by
    rw [run_buildContent]
    exact sheds_buildFragment s.registry s.tree n
  registry s _ := .refl s.tree

end Markup

namespace Session

open Effect (Moves)
open Hypermedia.Action (Ask)

variable {σ : Type} {s t u : Session σ} (transport : Transport σ)

/-- `t` can come after `s` with no widget given a scope, and each scope is still inside the one it was made
in. -/
structure Abides (s t : Session σ) : Prop where
  tree : s.tree.Sheds t.tree
  scopes : s.world.scopes.Extends t.world.scopes

theorem Abides.refl (s : Session σ) : s.Abides s :=
  ⟨.refl _, .refl _⟩

theorem Abides.trans (h : s.Abides t) (k : t.Abides u) : s.Abides u :=
  ⟨h.tree.trans k.tree, h.scopes.trans k.scopes⟩

instance : IsPreorder (Session σ) Abides where
  refl := .refl
  trans _ _ _ := .trans

/-- A step that leaves both the world and the tree alone. -/
theorem abides_of_eq (htree : t.tree = s.tree) (hworld : t.world = s.world) : s.Abides t :=
  ⟨htree ▸ .refl _, hworld ▸ .refl _⟩

section scripts

theorem abides_placeWidgets {r : Except SelectionError Unit × Tree} {ids : List WidgetId}
    (h : s.tree.Sheds r.2) : s.Abides (s.placeWidgets r ids).2 := by
  obtain ⟨outcome, tree⟩ := r
  cases outcome <;> exact ⟨h, .refl _⟩

theorem abides_perform (service : Script.Service) : s.Abides (perform service s).2 := by
  cases service with
  | readField id name => exact .refl s
  | writeField id name offer =>
    rw [perform]
    split
    · next htree =>
      obtain ⟨f, rfl, hf⟩ := Script.Field.write_eq_modify htree
      exact ⟨Tree.sheds_modify hf, .refl _⟩
    · exact .refl s
  | find selector =>
    rw [perform]
    split <;> exact .refl s
  | alert message => exact abides_of_eq rfl rfl
  | style id property value =>
    rw [perform]
    split
    · exact abides_of_eq rfl rfl
    · exact .refl s
  | schedule callback milliseconds scope => exact abides_of_eq rfl rfl
  | act actions caller =>
    rw [perform]
    split
    · exact .refl s
    · split <;> exact abides_of_eq rfl rfl
  | build b =>
    have hbuilt := s.tree.sheds_build b
    rw [perform, buildWidget]
    split
    · exact .refl s
    · split
      · next hr =>
        rw [hr] at hbuilt
        exact ⟨hbuilt, .refl _⟩
      · next hr =>
        rw [hr] at hbuilt
        exact ⟨hbuilt, .refl _⟩
  | pin id => exact abides_placeWidgets (s.tree.sheds_pin id)
  | dismiss id => exact ⟨s.tree.sheds_dismiss id, .refl _⟩
  | append parent child => exact abides_placeWidgets (s.tree.sheds_append parent child)

/-- Of all that scripts do to a session only giving scopes to new widgets is left out. -/
theorem abides_carries : Carries (Abides (σ := σ)) (fun _ => True) (fun _ => True) where
  perform _ _ _ := abides_perform _
  world _ _ hworld := ⟨.refl _, hworld.extends⟩
  rules _ _ := abides_of_eq rfl rfl
  bind _ _ _ _ _ _ := ⟨Tree.sheds_modify fun _ _ => ⟨⟨rfl, rfl, rfl⟩, rfl⟩, .refl _⟩

end scripts

section pages

theorem Fetches.abides (h : s.Fetches t) : s.Abides t := by
  obtain ⟨network, rfl⟩ := h
  exact abides_of_eq rfl rfl

theorem abides_compiled {α : Type} {c : Markup.Compile α} (hc : Moves Markup.Workspace.Sheds c) :
    Moves Abides (compiled c : Act σ α) := by
  refine Effect.moves_get_bind fun s => ?_
  have hsheds : s.tree.Sheds (c.run { registry := s.registry, tree := s.tree }).2.tree :=
    hc { registry := s.registry, tree := s.tree }
  exact Effect.moves_set_bind ⟨hsheds, .refl _⟩ (moves_lift _ _)

theorem sheds_dropLoose (tree : Tree) (ids : List WidgetId) : tree.Sheds (dropLoose tree ids) := by
  obtain ⟨dropped, -, heq⟩ := dropLoose_eq tree ids
  rw [heq]
  exact tree.sheds_removeAll dropped

theorem abides_stage (root : Option WidgetId) : s.Abides (s.stage root) := by
  have hbare : s.tree.Sheds { s.tree with root := none } :=
    Tree.Leads.sheds (.single (.dropRoot s.tree)) rfl
  exact ⟨hbare.trans (Tree.sheds_setRoot _ root), s.world.scopes.extends_add none⟩

theorem abides_cancelInFlight : s.Abides s.cancelInFlight :=
  ⟨s.tree.sheds_removeAll _, .refl _⟩

theorem abides_report (e : Error) : s.Abides (s.report e) :=
  along_report (fun _ _ => abides_of_eq rfl rfl) (fun _ => abides_cancelInFlight)
    (fun _ => abides_of_eq rfl rfl) s e

theorem abides_startAll (lists : List (List Action.Instruction × WidgetId)) :
    s.Abides (lists.foldl (fun s list => s.startActions list.1 list.2) s) := by
  have hstart (s : Session σ) (list : List Action.Instruction × WidgetId) :
      s.Abides (s.startActions list.1 list.2) := abides_of_eq rfl rfl
  exact Effect.along_foldl hstart s lists

theorem abides_commit (o : Outgoing) (url : Url) (page : Markup.Page) :
    s.Abides (s.commit o url page) := by
  unfold commit
  dsimp only
  refine abides_cancelInFlight.trans (Abides.trans ?_ (abides_startAll _))
  refine ⟨?_, .refl _⟩
  exact ((Tree.sheds_removeAll _ _).trans (Tree.sheds_removeAll _ _)).trans (sheds_dropLoose _ _)

theorem abides_rollback (o : Outgoing) : s.Abides (s.rollback o) := by
  refine ⟨?_, .refl _⟩
  have hback := (s.tree.sheds_setRoot none).trans (Tree.sheds_setRoot _ o.root)
  exact (hback.trans (Tree.sheds_removeAll _ _)).trans (sheds_dropLoose _ _)

end pages

section answers

theorem abides_awaitPlace (fragment : Markup.Fragment) :
    Moves Abides (awaitPlace fragment : Act σ WidgetId) := by
  refine Effect.moves_bind (moves_addRules abides_carries.rules _) fun _ => ?_
  exact Effect.moves_bind (Effect.moves_modify fun s => abides_of_eq rfl rfl) fun _ =>
    Effect.moves_pure _

theorem abides_loadFragment (r : Network.Response) : Moves Abides (loadFragment transport r) := by
  refine Effect.moves_bind (moves_lift _ _) fun node => ?_
  refine Effect.moves_get_bind fun s => ?_
  have hinlined := (fetches_inlined transport ((Url.parse r.url).toOption.getD s.url) node).mono
    fun _ _ h => h.abides
  refine Effect.moves_bind_at (hinlined s) fun n => ?_
  exact Effect.moves_bind (abides_compiled (Markup.compiling_sheds.compileFragment n))
    abides_awaitPlace

theorem abides_releaseFragments (roots : List WidgetId) : s.Abides (s.releaseFragments roots) :=
  along_releaseFragments (fun s root _ => ⟨s.tree.sheds_removeAll [root], .refl _⟩) s roots

end answers

end Session

end Hypermedia
