import Hypermedia.Proofs.Tree.Failure
import Hypermedia.Proofs.Tree.Scoped

/-! Enclosed parts of a tree: no link leads into them or out of them, and no layer is among them. What is
done to widgets outside leaves them as they were. -/
namespace Hypermedia

namespace Tree

open Relation (ReflTransGen)

variable {inside : WidgetId → Prop} {t u v : Tree} {id x a p c target new : WidgetId}
  {cs ids : List WidgetId} {i offset : Nat} {edit : Edit}

/-- Links run inside a part of a tree or outside of it, all of it is there, and no layer is in it. -/
structure Encloses (inside : WidgetId → Prop) (t : Tree) : Prop where
  forest : t.Forest
  live : ∀ x, inside x → t.contains x = true
  linked : ∀ c p, t.parent? c = some p → (inside c ↔ inside p)
  root : ∀ r, t.root = some r → ¬ inside r
  pinned : ∀ x ∈ t.pinned, ¬ inside x

/-- A step after which a part that was enclosed is so again, with all its widgets as they were. -/
structure Shields (inside : WidgetId → Prop) (t u : Tree) : Prop where
  encloses : u.Encloses inside
  get?_eq : ∀ x, inside x → u.get? x = t.get? x

theorem Shields.trans (h : Shields inside t u) (k : Shields inside u v) : Shields inside t v :=
  ⟨k.encloses, fun x hx => (k.get?_eq x hx).trans (h.get?_eq x hx)⟩

/-- A widget that is put somewhere has left where it was. -/
theorem Forest.get?_insert_of_ne (h : t.Forest) (ha : t.Admits p c) (hxp : x ≠ p) (hxc : x ≠ c) :
    (t.insert p i c).2.get? x = (t.detach c).get? x := by
  rw [h.get?_insert ha, h.get?_detach]
  simp only [if_neg hxp, if_neg hxc]

namespace Encloses

variable (h : t.Encloses inside)

include h

theorem refl : Shields inside t t :=
  ⟨h, fun _ _ => rfl⟩

theorem within (hw : t.Within x a) : inside x ↔ inside a := by
  induction hw using ReflTransGen.head_induction_on with
  | refl => exact Iff.rfl
  | head hxy _ ih => exact (h.linked _ _ hxy).trans ih

theorem not_layer (hx : x ∈ t.layers) : ¬ inside x :=
  (mem_layers_iff.mp hx).elim (h.root x) (h.pinned x)

/-- Where the widgets of the part are as before, so are the links into it and out of it. -/
theorem shields (hforest : u.Forest) (hget : ∀ x, inside x → u.get? x = t.get? x)
    (hroot : ∀ r, u.root = some r → ¬ inside r) (hpinned : ∀ x ∈ u.pinned, ¬ inside x) :
    Shields inside t u := by
  refine ⟨⟨hforest, fun x hx => ?_, fun c p hp => ⟨fun hc => ?_, fun hin => ?_⟩, hroot, hpinned⟩, hget⟩
  · rw [contains, hget x hx]
    exact h.live x hx
  · rw [parent?, hget c hc] at hp
    exact (h.linked c p hp).mp hc
  · have hmem := (hforest.mem_children_iff p c).mpr hp
    rw [children, hget p hin] at hmem
    exact (h.linked c p ((h.forest.mem_children_iff p c).mp hmem)).mpr hin

/-- A widget outside leaves its parent: those inside do not notice. -/
theorem get?_detach (hid : ¬ inside id) (hx : inside x) : (t.detach id).get? x = t.get? x := by
  have hne : x ≠ id := fun heq => hid (heq ▸ hx)
  rw [h.forest.get?_detach]
  cases hw : t.get? x with
  | none => rfl
  | some w =>
    have hout : id ∉ w.children := by
      intro hmem
      have hlink : t.parent? id = some x :=
        (h.forest.mem_children_iff x id).mp (by simpa [Tree.children, hw] using hmem)
      exact hid ((h.linked id x hlink).mpr hx)
    rw [Option.map_some, if_neg hne, Widget.withoutChild_self hout, Widget.withParent_self]

theorem detach (hid : ¬ inside id) : Shields inside t (t.detach id) := by
  refine h.shields (h.forest.detach id) (fun _ hx => h.get?_detach hid hx) ?_ ?_
  · rw [root_detach]
    exact h.root
  · rw [pinned_detach]
    exact h.pinned

theorem remove (hid : ¬ inside id) : Shields inside t (t.remove id) := by
  refine h.shields (h.forest.remove id) (fun x hx => ?_) (fun r hr => h.root r (root_of_root_remove hr)) ?_
  · have hout : ¬ t.Within x id := fun hw => hid ((h.within hw).mp hx)
    rw [h.forest.get?_remove_of_not_within hout, h.get?_detach hid hx]
  · rw [pinned_remove]
    exact fun x hx => h.pinned x (List.mem_of_mem_filter hx)

theorem removeAll (hids : ∀ id ∈ ids, ¬ inside id) : Shields inside t (t.removeAll ids) := by
  induction ids generalizing t with
  | nil => exact h.refl
  | cons id ids ih =>
    obtain ⟨hid, hids⟩ := List.forall_mem_cons.mp hids
    have hfirst := h.remove hid
    exact hfirst.trans (ih hfirst.encloses hids)

theorem insert (hp : ¬ inside p) (hc : ¬ inside c) : Shields inside t (t.insert p i c).2 := by
  by_cases ha : t.Admits p c
  case neg =>
    obtain ⟨e, hr⟩ := h.forest.insert_of_not_admits (i := i) ha
    rw [hr]
    exact h.refl
  refine h.shields (h.forest.insert p i c) (fun x hx => ?_) ?_ fun x hx => h.pinned x (h.forest.mem_pinned_of_insert hx)
  · rw [h.forest.get?_insert_of_ne ha (fun heq => hp (heq ▸ hx)) (fun heq => hc (heq ▸ hx)), h.get?_detach hc hx]
  · rw [root_insert]
    exact h.root

theorem appendAll (hp : ¬ inside p) (hcs : ∀ c ∈ cs, ¬ inside c) : Shields inside t (t.appendAll p cs).2 := by
  induction cs generalizing t with
  | nil => exact h.refl
  | cons c cs ih =>
    obtain ⟨hc, hcs⟩ := List.forall_mem_cons.mp hcs
    have hfirst : Shields inside t (t.append p c).2 := h.insert hp hc
    rw [Tree.appendAll]
    split
    · next u hu =>
      rw [hu] at hfirst
      exact hfirst.trans (ih hfirst.encloses hcs)
    · next e u hu =>
      rw [hu] at hfirst
      exact hfirst

/-- The layers of a tree may change as long as none of them is in the part. -/
theorem withLayers {root : Option WidgetId} {pinned : List WidgetId} (hroot : ∀ r, root = some r → ¬ inside r)
    (hpinned : ∀ x ∈ pinned, ¬ inside x) : Shields inside t { t with root, pinned } :=
  h.shields (h.forest.congr fun _ => rfl) (fun _ _ => rfl) hroot hpinned

theorem unpin (id : WidgetId) : Shields inside t (t.unpin id) :=
  h.withLayers h.root fun x hx => h.pinned x (List.mem_of_mem_filter hx)

theorem pin (hid : ¬ inside id) : Shields inside t (t.pin id).2 := by
  have hleft := h.detach hid
  obtain heq | heq | ⟨-, -, -, heq⟩ := t.pin_outcomes id <;> rw [heq]
  · exact h.refl
  · exact hleft
  · exact hleft.trans (hleft.encloses.withLayers hleft.encloses.root
      (List.forall_mem_append.mpr ⟨hleft.encloses.pinned, List.forall_mem_singleton.mpr hid⟩))

theorem dismiss (hid : ¬ inside id) : Shields inside t (t.dismiss id).2 := by
  unfold Tree.dismiss
  split
  · next holder hfind =>
    have hw := h.forest.mem_lineage_iff.mp (List.mem_of_find?_eq_some hfind)
    exact h.remove fun hin => hid ((h.within hw).mpr hin)
  · exact h.refl

theorem construct {w : Widget} (hw : w.IsUnlinked) : Shields inside t (t.construct w).2 := by
  refine h.shields (h.forest.construct hw.1 hw.2) (fun x hx => ?_) h.root h.pinned
  obtain ⟨v, hv⟩ := contains_iff.mp (h.live x hx)
  rw [get?_construct, if_neg (Nat.ne_of_lt (index_lt_of_get? hv))]

theorem modify {f : Widget → Widget} (hid : ¬ inside id)
    (hf : ∀ w, t.get? id = some w → (f w).SameLinks w) : Shields inside t (t.modify id f) := by
  refine h.shields (h.forest.modify hf) (fun x hx => ?_) h.root h.pinned
  have hne : x ≠ id := fun heq => hid (heq ▸ hx)
  rw [get?_modify, if_neg hne]

theorem removeRootUnless (root : Option WidgetId) : Shields inside t (t.removeRootUnless root) := by
  obtain ⟨-, heq⟩ | ⟨old, hroot, -, heq⟩ := t.removeRootUnless_outcomes root <;> rw [heq]
  · exact h.refl
  · have hbare : Shields inside t { t with root := none } := h.withLayers nofun h.pinned
    exact hbare.trans (hbare.encloses.remove (h.root old hroot))

theorem setRoot {root : Option WidgetId} (hroot : ∀ r, root = some r → ¬ inside r) :
    Shields inside t (t.setRoot root) := by
  have hset {u : Tree} (hu : Shields inside t u) : Shields inside t { u.removeRootUnless root with root } := by
    have hremoved := hu.trans (hu.encloses.removeRootUnless root)
    exact hremoved.trans (hremoved.encloses.withLayers hroot hremoved.encloses.pinned)
  cases root with
  | none => exact hset h.refl
  | some new =>
    have hleft := h.detach (hroot new rfl)
    exact hset (hleft.trans (hleft.encloses.unpin new))

/-- The children that a widget outside loses are outside. -/
theorem removeDropped (hp : ¬ inside p) (cs : List WidgetId) :
    Shields inside t (t.removeAll (t.dropped p cs)) :=
  h.removeAll fun c hc hin =>
    hp ((h.linked c p ((h.forest.mem_children_iff p c).mp (mem_dropped_iff.mp hc).1)).mp hin)

theorem setChildren (hp : ¬ inside p) (hcs : ∀ c ∈ cs, ¬ inside c) :
    Shields inside t (t.setChildren p cs).2 := by
  cases hholder : t.isHolder p with
  | false =>
    obtain ⟨e, heq⟩ := setChildren_of_not_isHolder cs hholder
    rw [heq]
    exact h.refl
  | true =>
    have hremoved := h.removeDropped hp cs
    rw [setChildren_of_isHolder hholder]
    exact hremoved.trans (hremoved.encloses.appendAll hp hcs)

theorem placeBeside (hid : ¬ inside id) (htarget : ¬ inside target) :
    Shields inside t (t.placeBeside id target offset).2 := by
  by_cases hf : t.Fits target id
  · obtain ⟨p, hp⟩ := Option.isSome_iff_exists.mp hf.1
    obtain ⟨i, heq⟩ := @Forest.placeBeside_of_fits t p target id offset h.forest hf hp
    have hleft := h.detach hid
    rw [heq]
    exact hleft.trans (hleft.encloses.insert (fun hin => htarget ((h.linked target p hp).mpr hin)) hid)
  · obtain ⟨e, heq⟩ := @Forest.placeBeside_of_not_fits t target id offset h.forest hf
    rw [heq]
    exact h.refl

theorem replace (htarget : ¬ inside target) (hnew : ¬ inside new) :
    Shields inside t (t.replace target new).2 := by
  by_cases hne : target = new
  · subst hne
    rw [replace_self]
    exact h.refl
  by_cases hroot : t.root = some target
  · rw [replace_root hne hroot]
    exact h.setRoot fun r hr => Option.some.inj hr ▸ hnew
  by_cases hf : t.Fits target new
  · obtain ⟨p, hp⟩ := Option.isSome_iff_exists.mp hf.1
    obtain ⟨i, heq⟩ := h.forest.replace_of_fits hroot hf hp
    have hleft := h.detach hnew
    have hgone := hleft.trans (hleft.encloses.remove htarget)
    rw [heq]
    exact hgone.trans (hgone.encloses.insert (fun hin => htarget ((h.linked target p hp).mpr hin)) hnew)
  · obtain ⟨e, heq⟩ := h.forest.replace_of_not_fits hne hroot hf
    rw [heq]
    exact h.refl

theorem place (hid : ¬ inside id) (htarget : ¬ inside target) :
    Shields inside t (t.place id target edit).2 := by
  cases edit with
  | replace => exact h.replace htarget hid
  | replaceChildren => exact h.setChildren htarget (List.forall_mem_singleton.mpr hid)
  | before => exact h.placeBeside hid htarget
  | after => exact h.placeBeside hid htarget
  | prepend => exact h.insert htarget hid
  | append => exact h.insert htarget hid

theorem build (b : Widget.Blueprint) (hchildren : ∀ c ∈ b.children, ¬ inside c) :
    Shields inside t (b.build t).2 := by
  have hnew : ¬ inside (t.construct b.widget).1 := fun hin =>
    not_unused_of_contains (h.live _ hin) (Nat.le_refl _)
  have hmade := h.construct b.isUnlinked_widget
  have happend := hmade.trans (hmade.encloses.appendAll hnew hchildren)
  unfold Widget.Blueprint.build
  dsimp only
  split
  · next hr =>
    rw [hr] at happend
    exact happend
  · next hr =>
    rw [hr] at happend
    exact happend.trans (happend.encloses.remove hnew)

end Encloses

end Tree

end Hypermedia
