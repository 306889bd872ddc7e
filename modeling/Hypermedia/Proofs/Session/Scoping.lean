import Hypermedia.Proofs.Session.Reticent
import Hypermedia.Proofs.Session.Surroundings

/-! Giving scopes: widgets that are open and have got none get one each, and keep it. -/
namespace Hypermedia.Session

open Effect (Moves)
open Script (Confined World)

variable {σ : Type} {s t u : Session σ} {x y : WidgetId} {i : ScopeId} {ids : List WidgetId}

/-- Open widgets stay open, and the scopes that widgets have got stay theirs. -/
structure Retains (s t : Session σ) : Prop where
  size_le : s.tree.slots.size ≤ t.tree.slots.size
  opened : ∀ x, s.Open x → t.Open x
  owners : s.world.scopes.owners <+: t.world.scopes.owners

theorem Retains.refl (s : Session σ) : s.Retains s :=
  ⟨Nat.le_refl _, fun _ hx => hx, List.prefix_rfl⟩

theorem Retains.trans (h : s.Retains t) (k : t.Retains u) : s.Retains u :=
  ⟨Nat.le_trans h.size_le k.size_le, fun x hx => k.opened x (h.opened x hx), h.owners.trans k.owners⟩

theorem Heeds.retains (h : s.Heeds t) : s.Retains t :=
  ⟨h.size_le, h.opened, h.owners ▸ List.prefix_rfl⟩

/-- Widgets that may get scopes: they are open and have got none. -/
structure Fresh (s : Session σ) (ids : List WidgetId) : Prop where
  nodup : ids.Nodup
  opened : ∀ x ∈ ids, s.Open x
  unowned : ∀ x ∈ ids, x ∉ s.world.scopes.owners

theorem owners_scopedWorld (s : Session σ) (x : WidgetId) :
    (s.scopedWorld x).scopes.owners = s.world.scopes.owners ++ [x] :=
  (Script.Scopes.owners_define _ _ _ _).trans (s.world.scopes.owners_mark _ x)

theorem owner?_scopedWorld (s : Session σ) (x : WidgetId) (i : ScopeId) :
    (s.scopedWorld x).scopes.owner? i =
      if i = ⟨s.world.scopes.all.size⟩ then some x else s.world.scopes.owner? i :=
  (Script.Scopes.owner?_modify _ _ fun _ => Script.Scopes.widget_bind _ _ _).trans
    (s.world.scopes.owner?_mark _ x)

theorem confined_scopedWorld {P : WidgetId → Prop} (hw : Confined P s.world) (hx : P x) :
    Confined P (s.scopedWorld x) := by
  have hadded := Script.Scopes.confined_add hw.scopes (some (s.scopeAmong (s.tree.ancestors x)))
  have hmarked := World.confined_withScopes hw (Script.Scopes.confined_modify hadded
    (g := fun sc => { sc with widget := some x }) (fun _ hsc => ⟨hsc.1, hsc.2⟩) ⟨s.world.scopes.all.size⟩)
  obtain ⟨hhandle, hworld⟩ := confined_addHandle hmarked hx
  exact World.confined_withScopes hworld (Script.Scopes.confined_define hworld.scopes _ "self" hhandle).2

/-- A widget that may get a scope gets one. -/
theorem reticent_addScope (hs : s.Reticent) (hx : s.Open x) (hnew : x ∉ s.world.scopes.owners) :
    (addScope x s).2.Reticent ∧ s.Retains (addScope x s).2 ∧
      (addScope x s).2.world.scopes.owners = s.world.scopes.owners ++ [x] := by
  have howners := owners_scopedWorld s x
  have hprefix : s.world.scopes.owners <+: (s.scopedWorld x).scopes.owners := howners ▸ List.prefix_append _ _
  have hscoped : Reticent { s with world := s.scopedWorld x } := by
    refine ⟨hs.toSecluded.congr rfl rfl rfl, confined_scopedWorld hs.world hx, ?_, ?_⟩
    · rw [howners]
      exact List.nodup_append.mpr ⟨hs.nodup_owners, List.nodup_singleton x, fun a ha b hb hab =>
        hnew (List.mem_singleton.mp hb ▸ hab ▸ ha)⟩
    · rw [howners]
      exact List.forall_mem_append.mpr ⟨hs.owners, List.forall_mem_singleton.mpr hx⟩
  rw [run_addScope]
  split
  · have hmodified : Respects (· = x) { s with world := s.scopedWorld x } { s with
        world := s.scopedWorld x
        tree := s.tree.modify x fun w => { w with scope := some ⟨s.world.scopes.all.size⟩ } } :=
      respects_tree (Nat.le_of_eq Tree.size_modify.symm) fun ht hK =>
        ht.encloses.modify (not_withheld hK rfl) fun w _ => ⟨rfl, rfl, rfl⟩
    have hafter := hmodified hscoped fun y hy => hy ▸ hx
    exact ⟨hafter.reticent, ⟨hafter.size_le, hafter.opened, hafter.owners ▸ hprefix⟩, hafter.owners.trans howners⟩
  · exact ⟨hscoped, ⟨Nat.le_refl _, fun _ hy => hy, hprefix⟩, howners⟩

theorem reticent_giveScopes (hs : s.Reticent) (hf : s.Fresh ids) :
    (giveScopes ids s).Reticent ∧ s.Retains (giveScopes ids s) := by
  induction ids generalizing s with
  | nil => exact ⟨hs, .refl s⟩
  | cons x ids ih =>
    obtain ⟨hx, hnodup⟩ := List.nodup_cons.mp hf.nodup
    obtain ⟨hopen, hopens⟩ := List.forall_mem_cons.mp hf.opened
    obtain ⟨hnew, hnews⟩ := List.forall_mem_cons.mp hf.unowned
    obtain ⟨hscoped, hfirst, howners⟩ := reticent_addScope hs hopen hnew
    rw [giveScopes, forM_addScope_cons]
    cases hr : addScope x s with
    | mk result t =>
      rw [hr] at hscoped hfirst howners
      cases result with
      | error e => exact ⟨hscoped, hfirst⟩
      | ok =>
        have hrest : t.Fresh ids := by
          refine ⟨hnodup, fun y hy => hfirst.opened y (hopens y hy), fun y hy hmem => ?_⟩
          rw [howners] at hmem
          rcases List.mem_append.mp hmem with hold | hxy
          · exact hnews y hy hold
          · exact hx (List.mem_singleton.mp hxy ▸ hy)
        obtain ⟨hafter, hretains⟩ := ih hscoped hrest
        exact ⟨hafter, hfirst.trans hretains⟩

/-- All of `ids` have got a scope, and no others. -/
structure Gave (s : Session σ) (ids : List WidgetId) (t : Session σ) : Prop where
  owners : t.world.scopes.owners = s.world.scopes.owners ++ ids
  owner? : ∀ i : ScopeId, i.index < s.world.scopes.all.size → t.world.scopes.owner? i = s.world.scopes.owner? i
  scope? : ∀ x, x ∉ ids → t.tree.scope? x = s.tree.scope? x
  given : ∀ x ∈ ids, ∃ i, t.tree.scope? x = some i ∧ t.world.scopes.owner? i = some x

/-- Widgets that are there get their scopes one after another. -/
theorem giveScopes_of_live (hlive : ∀ x ∈ ids, s.tree.contains x = true) (hnodup : ids.Nodup) :
    (ids.forM addScope : Act σ PUnit) s = (.ok ⟨⟩, giveScopes ids s) ∧ s.Gave ids (giveScopes ids s) := by
  induction ids generalizing s with
  | nil => exact ⟨rfl, (List.append_nil _).symm, fun _ _ => rfl, fun _ _ => rfl, nofun⟩
  | cons x ids ih =>
    obtain ⟨hx, hnodup⟩ := List.nodup_cons.mp hnodup
    obtain ⟨hfirst, hrest⟩ := List.forall_mem_cons.mp hlive
    obtain ⟨w, hget⟩ := Tree.contains_iff.mp hfirst
    let next : Session σ := { s with
      world := s.scopedWorld x
      tree := s.tree.modify x fun w => { w with scope := some ⟨s.world.scopes.all.size⟩ } }
    have hnext : addScope x s = (.ok (), next) := by rw [run_addScope, Tree.widget_eq_ok.mpr hget]
    have hcontains : ∀ y, next.tree.contains y = s.tree.contains y := fun y => Tree.contains_modify
    have hscope : ∀ y, next.tree.scope? y =
        if y = x then some ⟨s.world.scopes.all.size⟩ else s.tree.scope? y := fun y => by
      by_cases hyx : y = x
      · simp [next, Tree.scope?, Tree.get?_modify, hyx, hget]
      · simp [next, Tree.scope?, Tree.get?_modify, hyx]
    have howner : ∀ i, next.world.scopes.owner? i =
        if i = ⟨s.world.scopes.all.size⟩ then some x else s.world.scopes.owner? i := owner?_scopedWorld s x
    have hlt : s.world.scopes.all.size < next.world.scopes.all.size := (extends_scopedWorld s x).2.1
    obtain ⟨hrun, hgave⟩ := ih (s := next) (fun y hy => (hcontains y).trans (hrest y hy)) hnodup
    have hgive : giveScopes (x :: ids) s = giveScopes ids next := by
      rw [giveScopes, forM_addScope_cons, hnext, giveScopes]
    rw [forM_addScope_cons, hnext, hgive]
    refine ⟨hrun, ?_, fun i hi => ?_, fun y hy => ?_, ?_⟩
    · rw [hgave.owners, owners_scopedWorld, List.append_assoc, List.singleton_append]
    · rw [hgave.owner? i (Nat.lt_trans hi hlt), howner, if_neg]
      rintro rfl
      exact Nat.lt_irrefl _ hi
    · obtain ⟨hne, hout⟩ := List.ne_and_not_mem_of_not_mem_cons hy
      rw [hgave.scope? y hout, hscope, if_neg hne]
    · refine List.forall_mem_cons.mpr ⟨⟨⟨s.world.scopes.all.size⟩, ?_, ?_⟩, hgave.given⟩
      · rw [hgave.scope? x hx, hscope, if_pos rfl]
      · rw [hgave.owner? ⟨s.world.scopes.all.size⟩ hlt, howner, if_pos rfl]

end Hypermedia.Session
