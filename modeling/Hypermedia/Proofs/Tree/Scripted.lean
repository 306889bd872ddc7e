import Hypermedia.Proofs.Tree.Extension
import Hypermedia.Script.Service

/-! Widgets that scripts build and write: one built is new and takes in its children, and where it
cannot none is left; one written keeps its links and its scope. -/
namespace Hypermedia

namespace Widget.Blueprint

variable {b : Widget.Blueprint} {t u : Tree} {id x : WidgetId}

theorem sameBonds_bindAll (handlers : List (String × Binding)) (w : Widget) :
    (handlers.foldl (fun w h => w.bind h.1 h.2) w).SameBonds w := by
  induction handlers generalizing w with
  | nil => exact .refl w
  | cons h handlers ih => exact (ih _).trans ⟨⟨rfl, rfl, rfl⟩, rfl⟩

theorem sameBonds_setAll (attributes : List (String × Attribute)) (w : Widget) :
    (attributes.foldl (fun w a => w.setAttribute a.1 (some a.2)) w).SameBonds w := by
  induction attributes generalizing w with
  | nil => exact .refl w
  | cons a attributes ih => exact (ih _).trans (sameBonds_setAttribute _ _)

theorem sameBonds_widget (b : Widget.Blueprint) : b.widget.SameBonds { kind := b.kind } :=
  (sameBonds_bindAll b.handlers _).trans (sameBonds_setAll b.attributes _)

theorem isUnlinked_widget (b : Widget.Blueprint) : b.widget.IsUnlinked :=
  ⟨b.sameBonds_widget.1.1, b.sameBonds_widget.1.2.1⟩

theorem leads_build (b : Widget.Blueprint) (t : Tree) : Tree.Leads t (b.build t).2 := by
  have happend := Tree.leads_appendAll (t.construct b.widget).2 (t.construct b.widget).1 b.children
  have hbuilt := (Relation.ReflTransGen.single (.construct t b.isUnlinked_widget)).trans happend
  unfold build
  dsimp only
  split
  · next hr =>
    rw [hr] at hbuilt
    exact hbuilt
  · next hr =>
    rw [hr] at hbuilt
    exact hbuilt.tail (.remove _ _)

theorem new_of_build (h : b.build t = (.ok id, u)) : t.Unused id ∧ ¬ u.Unused id := by
  have hsize := (Tree.leads_appendAll (t.construct b.widget).2 (t.construct b.widget).1
    b.children).later.size_le
  rw [Tree.size_construct] at hsize
  unfold build at h
  dsimp only at h
  split at h
  · next hr =>
    rw [hr] at hsize
    cases h
    exact ⟨Nat.le_refl _, Nat.not_le_of_lt hsize⟩
  · cases h

theorem root_of_root_build {r : WidgetId} (hr : (b.build t).2.root = some r) : t.root = some r := by
  have happend := @Tree.root_appendAll (t.construct b.widget).2 (t.construct b.widget).1 b.children
  unfold build at hr
  dsimp only at hr
  split at hr
  · next u hu =>
    rw [hu] at happend
    exact happend.symm.trans hr
  · next e u hu =>
    rw [hu] at happend
    exact happend.symm.trans (Tree.root_of_root_remove hr)

/-- Only the new widget is set adrift, and its children are taken in. -/
theorem adrift_of_build (h : t.Forest) (hx : (b.build t).2.Adrift x) :
    t.Adrift x ∧ (∀ id, (b.build t).1 = .ok id → x ∉ b.children) ∨
      t.Unused x ∧ (b.build t).1 = .ok x := by
  have hu : (t.construct b.widget).2.Forest := h.construct b.isUnlinked_widget.1 b.isUnlinked_widget.2
  have happend := @Tree.Forest.adrift_of_appendAll _ x (t.construct b.widget).1 b.children hu
  have hconstruct := fun hx => @Tree.adrift_of_construct t x b.widget b.isUnlinked_widget hx
  have hleads := (Tree.leads_appendAll (t.construct b.widget).2 (t.construct b.widget).1
    b.children).forest hu
  unfold build at hx ⊢
  dsimp only at hx ⊢
  cases hr : (t.construct b.widget).2.appendAll (t.construct b.widget).1 b.children with
  | mk outcome u =>
    rw [hr] at hx happend hleads
    cases outcome with
    | ok =>
      obtain ⟨hmade, htaken⟩ := happend hx
      rcases hconstruct hmade with hold | rfl
      · exact .inl ⟨hold, fun _ _ => htaken rfl⟩
      · exact .inr ⟨Nat.le_refl _, rfl⟩
    | error e =>
      have hne : x ≠ (t.construct b.widget).1 := by
        rintro rfl
        exact (hleads.contains_remove_iff.mp hx.live).2 .refl
      obtain ⟨hmade, -⟩ := happend (hleads.adrift_of_remove hx)
      exact .inl ⟨(hconstruct hmade).resolve_right hne, fun _ => nofun⟩

theorem extends_build {base : Tree} (hb : base.Forest) (he : base.Extends t)
    (hchildren : ∀ c ∈ b.children, base.Unused c) : base.Extends (b.build t).2 := by
  have hnew : base.Unused (t.construct b.widget).1 := he.size_le
  have happend := (he.construct b.isUnlinked_widget).appendAll hb hnew hchildren
  unfold build
  dsimp only
  split
  · next hr =>
    rw [hr] at happend
    exact happend
  · next hr =>
    rw [hr] at happend
    exact happend.remove hb hnew

end Widget.Blueprint

namespace Script.Field

variable {w v : Widget} {t u : Tree} {id : WidgetId} {name : String} {offer : Offer}

/-- A field that is written is no link, no scope and no binding. -/
theorem writeTo_eq (h : writeTo w name offer = .ok v) :
    ∃ eid groups content attributes, v = { w with eid, groups, content, attributes } := by
  have hattribute (name : String) (value : Option Widget.Attribute) :
      ∃ eid groups content attributes, w.setAttribute name value = { w with eid, groups, content, attributes } := by
    cases value <;> exact ⟨_, _, _, _, rfl⟩
  unfold writeTo at h
  split at h
  · cases h
    exact ⟨_, _, _, _, rfl⟩
  split at h
  · cases h
    exact ⟨_, _, _, _, rfl⟩
  split at h
  · cases hwords : offer.words with
    | error e =>
      rw [hwords] at h
      cases h
    | ok words =>
      rw [hwords] at h
      cases h
      exact ⟨_, _, _, _, rfl⟩
  split at h
  · cases h
  split at h
  · cases h
  split at h
  · cases h
    exact hattribute _ _
  split at h
  · cases h
    exact hattribute _ _
  · cases h

theorem eq_modify_of_write (h : write t id name offer = .ok u) :
    ∃ w v, t.get? id = some w ∧ writeTo w name offer = .ok v ∧ u = t.modify id fun _ => v := by
  unfold write at h
  split at h
  · cases h
  · next w hw =>
    cases hv : writeTo w name offer with
    | error e =>
      rw [hv] at h
      cases h
    | ok v =>
      rw [hv] at h
      cases h
      exact ⟨w, v, Tree.widget_eq_ok.mp hw, hv, rfl⟩

/-- A field that is written is a change of its widget that keeps its links and its scope. -/
theorem write_eq_modify (h : write t id name offer = .ok u) :
    ∃ f, u = t.modify id f ∧ ∀ w, t.get? id = some w → (f w).SameBonds w := by
  obtain ⟨w, v, hw, hv, rfl⟩ := eq_modify_of_write h
  refine ⟨fun _ => v, rfl, fun w' hw' => ?_⟩
  obtain rfl : w' = w := Option.some.inj (hw'.symm.trans hw)
  obtain ⟨_, _, _, _, rfl⟩ := writeTo_eq hv
  exact ⟨⟨rfl, rfl, rfl⟩, rfl⟩

end Script.Field

end Hypermedia
