import Hypermedia.Proofs.Tree.Enclosed
import Hypermedia.Proofs.Tree.Failure

/-! Parts of a tree that stand by themselves: how they are listed, and what is left of one when a widget of
it has been placed elsewhere. -/
namespace Hypermedia.Tree

open Relation (TransGen ReflTransGen)

variable {t u v : Tree} {x y a b p c root part target : WidgetId} {ids : List WidgetId} {i : Nat}
  {edit : Edit}

section order

theorem Forest.not_below_of_siblings (h : t.Forest) (hab : a ≠ b) (ha : t.parent? a = some p)
    (hb : t.parent? b = some p) : ¬ t.Within a b := by
  intro hw
  obtain ⟨q, hq, hqb⟩ := below_iff.mp ((within_iff.mp hw).resolve_left hab)
  obtain rfl : p = q := Option.some.inj (ha.symm.trans hq)
  exact h.acyclic b (TransGen.head' hb hqb)

/-- A walk comes to no widget after one below it. -/
theorem Forest.pairwise_walk (h : t.Forest) (n : Nat) : ∀ a, (t.walk n a).Pairwise fun x y => ¬ t.Below x y := by
  induction n with
  | zero => exact fun a => .nil
  | succ n ih =>
    intro a
    unfold walk
    split
    · next w hw =>
      have hparent : ∀ c ∈ w.children, t.parent? c = some a := fun c hc =>
        (h.mem_children_iff a c).mp (by simpa [children, hw] using hc)
      have hnodup : w.children.Nodup := by
        have hn := h.nodup_children a
        rwa [children, hw] at hn
      refine List.pairwise_cons.mpr ⟨fun y hy hbelow => ?_, ?_⟩
      · obtain ⟨c, hc, hy⟩ := List.mem_flatMap.mp hy
        have hya : t.Within y a := (h.within_of_mem_walk hy).tail (hparent c hc)
        exact h.not_within_of_below hbelow hya
      · refine List.pairwise_flatMap.mpr ⟨fun c _ => ih c, hnodup.imp_of_mem fun hb hc hbc x hx y hy hbelow => ?_⟩
        -- what is below both of two siblings would put one of them below the other
        have hxc := hbelow.within.trans (h.within_of_mem_walk hy)
        rcases within_or_within (h.within_of_mem_walk hx) hxc with hw | hw
        · exact h.not_below_of_siblings hbc (hparent _ hb) (hparent _ hc) hw
        · exact h.not_below_of_siblings hbc.symm (hparent _ hc) (hparent _ hb) hw
    · exact .nil

end order

/-- `ids` are the widgets of a part of the tree that stands by itself, parents first. -/
structure Spans (t : Tree) (root : WidgetId) (ids : List WidgetId) : Prop where
  live : t.contains root = true
  top : t.parent? root = none
  mem_iff : ∀ x, x ∈ ids ↔ t.contains x = true ∧ t.Within x root
  nodup : ids.Nodup
  ordered : ids.Pairwise fun x y => ¬ t.Below x y

namespace Spans

variable (hs : t.Spans root ids)

include hs

theorem root_mem : root ∈ ids :=
  (hs.mem_iff root).mpr ⟨hs.live, .refl⟩

/-- No link leads out of the part or into it. -/
theorem linked (h : t.Forest) (hp : t.parent? c = some p) : c ∈ ids ↔ p ∈ ids := by
  rw [hs.mem_iff, hs.mem_iff]
  constructor
  · rintro ⟨-, hw⟩
    refine ⟨h.contains_parent hp, ?_⟩
    rcases within_iff.mp hw with rfl | hb
    · cases hs.top.symm.trans hp
    · obtain ⟨q, hq, hw⟩ := below_iff.mp hb
      obtain rfl : p = q := Option.some.inj (hp.symm.trans hq)
      exact hw
  · exact fun hw => ⟨contains_of_parent? hp, hw.2.head hp⟩

/-- Where all its widgets are as they were, the part is too. -/
theorem shields {inside : WidgetId → Prop} (h : t.Forest) (hu : Shields inside t u)
    (hids : ∀ x ∈ ids, inside x) : u.Spans root ids := by
  have hparent : ∀ x ∈ ids, u.parent? x = t.parent? x := fun x hx => by
    rw [parent?, parent?, hu.get?_eq x (hids x hx)]
  have hcontains : ∀ x ∈ ids, u.contains x = t.contains x := fun x hx => by
    rw [contains, contains, hu.get?_eq x (hids x hx)]
  have hchildren : ∀ x ∈ ids, u.children x = t.children x := fun x hx => by
    rw [children, children, hu.get?_eq x (hids x hx)]
  have hdown : ∀ c p, u.parent? c = some p → p ∈ ids → t.parent? c = some p := fun c p hp hmem => by
    rw [← h.mem_children_iff, ← hchildren p hmem]
    exact (hu.encloses.forest.mem_children_iff p c).mpr hp
  have hup : ∀ x ∈ ids, ∀ a, u.Within x a → a ∈ ids ∧ t.Within x a := by
    intro x hx a hw
    induction hw with
    | refl => exact ⟨hx, .refl⟩
    | @tail b c _ hbc ih =>
      obtain ⟨hb, hw⟩ := ih
      have hold : t.parent? b = some c := (hparent b hb).symm.trans hbc
      exact ⟨(hs.linked h hold).mp hb, hw.tail hold⟩
  refine ⟨(hcontains root hs.root_mem).trans hs.live, (hparent root hs.root_mem).trans hs.top, fun x => ?_,
    hs.nodup, hs.ordered.imp_of_mem fun hx _ hnot hbelow => hnot ?_⟩
  · constructor
    · intro hx
      obtain ⟨hlive, hw⟩ := (hs.mem_iff x).mp hx
      refine ⟨(hcontains x hx).trans hlive, ?_⟩
      clear hlive
      induction hw using ReflTransGen.head_induction_on with
      | refl => exact .refl
      | @head x y hxy _ ih => exact (ih ((hs.linked h hxy).mp hx)).head ((hparent x hx).trans hxy)
    · rintro ⟨-, hw⟩
      induction hw using ReflTransGen.head_induction_on with
      | refl => exact hs.root_mem
      | @head x y hxy _ ih => exact (hs.linked h (hdown x y hxy ih)).mpr ih
  · obtain ⟨q, hq, hw⟩ := below_iff.mp hbelow
    have hold := (hparent _ hx).symm.trans hq
    exact below_iff.mpr ⟨q, hold, (hup q ((hs.linked h hold).mp hx) _ hw).2⟩

end Spans

/-- A part stays enclosed while links inside it are cut. -/
theorem Encloses.detach_inside {inside : WidgetId → Prop} (h : t.Encloses inside) (id : WidgetId) :
    (t.detach id).Encloses inside where
  forest := h.forest.detach id
  live x hx := contains_detach.trans (h.live x hx)
  linked c p hp := h.linked c p (h.forest.parent?_of_detach hp)
  root r hr := h.root r (root_detach ▸ hr)
  pinned x hx := h.pinned x (pinned_detach ▸ hx)

/-- `u` comes from `t` by a widget of a part being put elsewhere: the links in the part are those that were
there, but for that of the widget to its parent. -/
structure Regrafts (ids : List WidgetId) (part : WidgetId) (t u : Tree) : Prop where
  forest : u.Forest
  contains : ∀ x ∈ ids, u.contains x = t.contains x
  parent? : ∀ x ∈ ids, x ≠ part → u.parent? x = t.parent? x
  children : ∀ x ∈ ids, u.children x ⊆ t.children x
  away : ∀ p, u.parent? part = some p → p ∉ ids

section regrafts

variable (h : t.Forest)

include h

/-- It is enough to look at the widgets of the part. -/
theorem Regrafts.of_get? (hpart : part ∈ ids) (hu : u.Forest)
    (hget : ∀ x ∈ ids, u.get? x = (t.detach part).get? x) : Regrafts ids part t u where
  forest := hu
  contains x hx := by
    rw [Tree.contains, hget x hx]
    exact contains_detach
  parent? x hx hne := by
    rw [Tree.parent?, hget x hx]
    exact h.parent?_detach.trans (if_neg hne)
  children x hx := by
    rw [Tree.children, hget x hx]
    change (t.detach part).children x ⊆ _
    rw [h.children_detach]
    exact List.filter_subset_self _
  away p hp := by
    rw [Tree.parent?, hget part hpart] at hp
    cases h.parent?_detach_self.symm.trans hp

theorem Regrafts.insert (hpart : part ∈ ids) (hp : p ∉ ids) (hv : v.Forest) (ha : v.Admits p part)
    (hget : ∀ x ∈ ids, (v.detach part).get? x = (t.detach part).get? x) :
    Regrafts ids part t (v.insert p i part).2 := by
  have hleft := Regrafts.of_get? h hpart (hv.detach part) hget
  refine ⟨hv.insert p i part, fun x hx => ?_, fun x hx hne => ?_, fun x hx => ?_, fun q hq => ?_⟩
  · exact contains_insert.trans (contains_detach.symm.trans (hleft.contains x hx))
  · have hparent := hleft.parent? x hx hne
    rw [hv.parent?_detach, if_neg hne] at hparent
    rw [hv.parent?_insert ha, if_neg hne, hparent]
  · have hne : x ≠ p := fun heq => hp (heq ▸ hx)
    have hchildren := hleft.children x hx
    rw [hv.children_detach] at hchildren
    rwa [hv.children_insert ha, if_neg hne]
  · rw [hv.parent?_insert ha, if_pos rfl] at hq
    exact Option.some.inj hq ▸ hp

end regrafts

section place

theorem appendAll_singleton : t.appendAll p [c] = t.append p c := by
  rw [appendAll]
  split <;> simp_all [appendAll]

/-- An edit that fails drops children of its target at most, wherever the widget is that was to be placed. -/
theorem Encloses.place_error {inside : WidgetId → Prop} {e : SelectionError} (h : t.Encloses inside)
    (htarget : ¬ inside target) (he : (t.place part target edit).1 = .error e) :
    Shields inside t (t.place part target edit).2 := by
  have hsame {u : Tree} (hu : u = t) : Shields inside t u := hu ▸ h.refl
  cases edit with
  | replace => exact hsame (h.forest.replace_error he)
  | before => exact hsame (h.forest.placeBeside_error he)
  | after => exact hsame (h.forest.placeBeside_error he)
  | prepend => exact hsame (h.forest.insert_error he)
  | append => exact hsame (h.forest.insert_error he)
  | replaceChildren =>
    change (t.setChildren target [part]).1 = _ at he
    change Shields inside t (t.setChildren target [part]).2
    cases hholder : t.isHolder target with
    | false =>
      obtain ⟨_, heq⟩ := setChildren_of_not_isHolder [part] hholder
      rw [heq]
      exact h.refl
    | true =>
      have hdropped := h.removeDropped htarget [part]
      rw [setChildren_of_isHolder hholder, appendAll_singleton] at he ⊢
      rw [append, hdropped.encloses.forest.insert_error he]
      exact hdropped

variable (h : t.Encloses (· ∈ ids)) (hpart : part ∈ ids) (htarget : target ∉ ids)

include h

/-- What shields a part does so too when a widget of it leaves its parent. -/
theorem Shields.get?_detach (hu : Shields (· ∈ ids) t u) (hx : x ∈ ids) :
    (u.detach part).get? x = (t.detach part).get? x := by
  rw [hu.encloses.forest.get?_detach, h.forest.get?_detach, hu.get?_eq x hx]

theorem Encloses.regrafts_detached (hu : Shields (· ∈ ids) (t.detach part) u) (hx : x ∈ ids) :
    (u.detach part).get? x = (t.detach part).get? x := by
  have htop : (t.detach part).detach part = t.detach part := by
    rw [Tree.detach.eq_def (t.detach part), h.forest.parent?_detach_self]
  rw [Shields.get?_detach (h.detach_inside part) hu hx, htop]

include hpart htarget

theorem Encloses.regrafts_insert {i : Nat} (hok : (t.insert target i part).1 = .ok ()) :
    Regrafts ids part t (t.insert target i part).2 :=
  .insert h.forest hpart htarget h.forest (h.forest.insert_ok_iff.mp hok) fun _ _ => rfl

theorem Encloses.regrafts_beside {offset : Nat} (hok : (t.placeBeside part target offset).1 = .ok ()) :
    Regrafts ids part t (t.placeBeside part target offset).2 := by
  have hf := h.forest
  by_cases hfits : t.Fits target part
  case neg =>
    obtain ⟨e, heq⟩ := @Forest.placeBeside_of_not_fits t target part offset hf hfits
    rw [heq] at hok
    cases hok
  obtain ⟨p, hp⟩ := Option.isSome_iff_exists.mp hfits.1
  obtain ⟨i, heq⟩ := @Forest.placeBeside_of_fits t p target part offset hf hfits hp
  rw [heq]
  exact .insert hf hpart (fun hin => htarget ((h.linked target p hp).mpr hin)) (hf.detach part)
    (hf.admits_detach hfits hp) fun x hx => h.regrafts_detached (h.detach_inside part).refl hx

theorem Encloses.regrafts_setChildren (hok : (t.setChildren target [part]).1 = .ok ()) :
    Regrafts ids part t (t.setChildren target [part]).2 := by
  cases hholder : t.isHolder target with
  | false =>
    obtain ⟨e, heq⟩ := setChildren_of_not_isHolder [part] hholder
    rw [heq] at hok
    cases hok
  | true =>
    have hdropped := h.removeDropped htarget [part]
    have hv := hdropped.encloses.forest
    rw [setChildren_of_isHolder hholder, appendAll_singleton] at hok ⊢
    exact .insert h.forest hpart htarget hv (hv.insert_ok_iff.mp hok) fun x hx =>
      Shields.get?_detach h hdropped hx

theorem Encloses.regrafts_replace (hok : (t.replace target part).1 = .ok ()) :
    Regrafts ids part t (t.replace target part).2 := by
  have hf := h.forest
  have hne : target ≠ part := fun heq => htarget (heq ▸ hpart)
  by_cases hroot : t.root = some target
  · have hfreed := (h.detach_inside part).unpin part
    have hbare := hfreed.trans (hfreed.encloses.removeRootUnless (some part))
    rw [replace_root hne hroot]
    exact .of_get? hf hpart ((leads_setRoot t (some part)).forest hf) hbare.get?_eq
  by_cases hfits : t.Fits target part
  case neg =>
    obtain ⟨e, heq⟩ := hf.replace_of_not_fits hne hroot hfits
    rw [heq] at hok
    cases hok
  obtain ⟨p, hp⟩ := Option.isSome_iff_exists.mp hfits.1
  obtain ⟨i, heq⟩ := hf.replace_of_fits hroot hfits hp
  have hgone := (h.detach_inside part).remove htarget
  rw [heq]
  exact .insert hf hpart (fun hin => htarget ((h.linked target p hp).mpr hin)) hgone.encloses.forest
    (hf.admits_remove hfits hp) fun x hx => h.regrafts_detached hgone hx

/-- A widget of a part that has been put elsewhere has taken all below it along. -/
theorem Encloses.regrafts_place (hok : (t.place part target edit).1 = .ok ()) :
    Regrafts ids part t (t.place part target edit).2 := by
  cases edit with
  | before => exact h.regrafts_beside hpart htarget hok
  | after => exact h.regrafts_beside hpart htarget hok
  | prepend => exact h.regrafts_insert hpart htarget hok
  | append => exact h.regrafts_insert hpart htarget hok
  | replaceChildren => exact h.regrafts_setChildren hpart htarget hok
  | replace => exact h.regrafts_replace hpart htarget hok

end place

/-- The tree without what is left of a part when `part` of it has been put elsewhere. -/
def withoutRest (t : Tree) (root part : WidgetId) : Tree :=
  if root = part then t else t.remove root

theorem size_withoutRest : (t.withoutRest root part).slots.size = t.slots.size := by
  unfold withoutRest
  split
  · rfl
  · exact size_remove

section rest

variable (h : t.Forest) (hs : t.Spans root ids) (hu : Regrafts ids part t u)

include h hs hu

/-- Nothing outside comes to be below a widget of the part. -/
theorem Regrafts.not_mem_of_within (hx : x ∉ ids) (hw : u.Within x a) : a ∉ ids := by
  induction hw with
  | refl => exact hx
  | @tail b c _ hbc ih =>
    intro hc
    have hmem := hu.children c hc ((hu.forest.mem_children_iff c b).mpr hbc)
    exact ih ((hs.linked h ((h.mem_children_iff c b).mp hmem)).mpr hc)

/-- A link between widgets of the part was there before. -/
theorem Regrafts.within_of (hx : x ∈ ids) (ha : a ∈ ids) (hw : u.Within x a) : t.Within x a := by
  induction hw using ReflTransGen.head_induction_on with
  | refl => exact .refl
  | @head x y hxy hya ih =>
    have hy : y ∈ ids := by
      by_contra hout
      exact hu.not_mem_of_within h hs hout hya ha
    have hne : x ≠ part := by
      rintro rfl
      exact hu.away y hxy hy
    exact (ih hy).head ((hu.parent? x hx hne).symm.trans hxy)

theorem Regrafts.below_of (hx : x ∈ ids) (ha : a ∈ ids) (hb : u.Below x a) : t.Below x a := by
  have hw := hu.within_of h hs hx ha hb.within
  refine (within_iff.mp hw).resolve_left ?_
  rintro rfl
  exact hu.forest.acyclic x hb

/-- What is left below the root of the part is what is not below the widget that has gone. -/
theorem Regrafts.within_root_iff (hpart : part ∈ ids) (hne : root ≠ part) :
    u.Within x root ↔ x ∈ ids ∧ ¬ t.Within x part := by
  constructor
  · intro hw
    induction hw using ReflTransGen.head_induction_on with
    | refl => exact ⟨hs.root_mem, fun hw => hne (eq_of_within hs.top hw)⟩
    | @head x y hxy hya ih =>
      obtain ⟨hy, hnot⟩ := ih
      have hx : x ∈ ids := by
        by_contra hout
        exact hu.not_mem_of_within h hs hout (.single hxy) hy
      have hxpart : x ≠ part := by
        rintro rfl
        exact hu.away y hxy hy
      have hold : t.parent? x = some y := (hu.parent? x hx hxpart).symm.trans hxy
      refine ⟨hx, fun hw => hnot ?_⟩
      obtain ⟨q, hq, hw⟩ := below_iff.mp ((within_iff.mp hw).resolve_left hxpart)
      obtain rfl : y = q := Option.some.inj (hold.symm.trans hq)
      exact hw
  · rintro ⟨hx, hnot⟩
    have hw := ((hs.mem_iff x).mp hx).2
    induction hw using ReflTransGen.head_induction_on with
    | refl => exact .refl
    | @head x y hxy _ ih =>
      have hxpart : x ≠ part := by
        rintro rfl
        exact hnot .refl
      have hy := (hs.linked h hxy).mp hx
      exact (ih hy fun hw => hnot (hw.head hxy)).head ((hu.parent? x hx hxpart).trans hxy)

/-- Of the part just what is below the widget that has been put elsewhere stays. -/
theorem Regrafts.contains_withoutRest_iff (hpart : part ∈ ids) :
    (u.withoutRest root part).contains x = true ↔
      u.contains x = true ∧ (x ∈ ids → t.Within x part) := by
  unfold withoutRest
  split
  · next heq =>
    subst heq
    exact ⟨fun hx => ⟨hx, fun hmem => ((hs.mem_iff x).mp hmem).2⟩, fun hx => hx.1⟩
  · next hne =>
    rw [hu.forest.contains_remove_iff, hu.within_root_iff h hs hpart hne]
    tauto

theorem Regrafts.below_of_withoutRest (hx : x ∈ ids) (ha : a ∈ ids)
    (hb : (u.withoutRest root part).Below x a) : t.Below x a := by
  unfold withoutRest at hb
  split at hb
  · exact hu.below_of h hs hx ha hb
  · exact hu.below_of h hs hx ha (TransGen.mono (fun c p => hu.forest.parent?_of_remove) _ _ hb)

/-- Its widgets are all there, parents first. -/
theorem Regrafts.kept (hpart : part ∈ ids) :
    let kept := ids.filter (t.descendants part).contains
    (∀ x ∈ kept, (u.withoutRest root part).contains x = true) ∧
      kept.Pairwise fun x y => ¬ (u.withoutRest root part).Below x y := by
  intro kept
  have hmem : ∀ x ∈ kept, x ∈ ids ∧ t.contains x = true ∧ t.Within x part := by
    intro x hx
    obtain ⟨hids, hdown⟩ := List.mem_filter.mp hx
    exact ⟨hids, h.mem_descendants_iff.mp (List.contains_iff_mem.mp hdown)⟩
  refine ⟨fun x hx => ?_, (hs.ordered.sublist List.filter_sublist).imp_of_mem fun hx hy hnot hb => ?_⟩
  · obtain ⟨hids, hlive, hw⟩ := hmem x hx
    exact (hu.contains_withoutRest_iff h hs hpart).mpr ⟨(hu.contains x hids).trans hlive, fun _ => hw⟩
  · exact hnot (hu.below_of_withoutRest h hs (hmem _ hx).1 (hmem _ hy).1 hb)

end rest

end Hypermedia.Tree
