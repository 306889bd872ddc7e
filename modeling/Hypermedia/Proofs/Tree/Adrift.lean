import Hypermedia.Proofs.Tree.Layers

/-! Widgets adrift: those without a parent that are no layer. Only making a widget and leaving the
document without its root set one adrift; what puts a widget in a place takes it in. -/
namespace Hypermedia.Tree

open Relation (ReflTransGen)

variable {t u : Tree} {id x a p c target new : WidgetId} {cs ids : List WidgetId} {i : Nat}

/-- A live widget that has no parent and is neither the root nor pinned. -/
structure Adrift (t : Tree) (x : WidgetId) : Prop where
  live : t.contains x = true
  top : t.parent? x = none
  not_root : t.root ≠ some x
  not_pinned : x ∉ t.pinned

/-- Above every live widget there is one without a parent. -/
theorem Forest.exists_top (h : t.Forest) (hx : t.contains x = true) :
    ∃ a, t.Within x a ∧ t.contains a = true ∧ t.parent? a = none := by
  have hlen := h.length_chain_lt hx t.slots.size
  generalize t.slots.size = n at hlen
  induction n generalizing x with
  | zero => cases hlen
  | succ n ih =>
    cases hp : t.parent? x with
    | none => exact ⟨x, .refl, hx, hp⟩
    | some p =>
      rw [hp, chain, List.length_cons] at hlen
      obtain ⟨a, hpa, ha⟩ := ih (h.contains_parent hp) (Nat.lt_of_succ_lt_succ hlen)
      exact ⟨a, hpa.head hp, ha⟩

section removal

theorem Forest.adrift_of_remove (h : t.Forest) (hx : (t.remove id).Adrift x) : t.Adrift x := by
  obtain ⟨hlive, hout⟩ := h.contains_remove_iff.mp hx.live
  have hne : x ≠ id := fun he => hout (he ▸ .refl)
  refine ⟨hlive, ?_, fun hroot => ?_, fun hpin => hx.not_pinned ?_⟩
  · rw [← h.parent?_remove hout]
    exact hx.top
  · have hkept : t.root ≠ some id := fun he => hne (Option.some.inj (hroot.symm.trans he))
    refine hx.not_root ?_
    rw [root_remove, if_neg hkept, hroot]
  · rw [pinned_remove, List.mem_filter]
    exact ⟨hpin, by simpa using hne⟩

theorem Forest.adrift_of_removeAll (h : t.Forest) (hx : (t.removeAll ids).Adrift x) : t.Adrift x := by
  induction ids generalizing t with
  | nil => exact hx
  | cons id ids ih => exact h.adrift_of_remove (ih (h.remove id) hx)

theorem not_contains_removeAll (h : t.Forest) (hid : id ∈ ids) (hx : t.Within x id) :
    (t.removeAll ids).contains x = false := by
  rw [← Bool.not_eq_true, h.contains_removeAll_iff]
  exact fun hlive => hlive.2 id hid hx

theorem Forest.adrift_of_dismiss (h : t.Forest) (hx : (t.dismiss id).2.Adrift x) : t.Adrift x := by
  unfold dismiss at hx
  split at hx
  · exact h.adrift_of_remove hx
  · exact hx

end removal

section placing

/-- A widget that leaves its parent is the only one that this can set adrift. -/
theorem Forest.adrift_of_detach (h : t.Forest) (hx : (t.detach id).Adrift x) (hne : x ≠ id) :
    t.Adrift x := by
  refine ⟨contains_detach ▸ hx.live, ?_, root_detach ▸ hx.not_root, pinned_detach ▸ hx.not_pinned⟩
  have htop := hx.top
  rwa [h.parent?_detach, if_neg hne] at htop

theorem Forest.adrift_of_insert (h : t.Forest) (hx : (t.insert p i c).2.Adrift x) :
    t.Adrift x ∧ (t.Admits p c → x ≠ c) := by
  by_cases ha : t.Admits p c
  case neg =>
    obtain ⟨e, he⟩ := h.insert_of_not_admits (i := i) ha
    rw [he] at hx
    exact ⟨hx, fun hadmits => absurd hadmits ha⟩
  have htop := hx.top
  rw [h.parent?_insert ha] at htop
  have hne : x ≠ c := by
    rintro rfl
    simp at htop
  rw [if_neg hne] at htop
  refine ⟨⟨contains_insert ▸ hx.live, htop, root_insert ▸ hx.not_root, fun hpin => ?_⟩, fun _ => hne⟩
  refine hx.not_pinned ?_
  rw [h.pinned_insert ha, List.mem_filter]
  exact ⟨hpin, by simpa using hne⟩

theorem Forest.adrift_of_appendAll (h : t.Forest) (hx : (t.appendAll p cs).2.Adrift x) :
    t.Adrift x ∧ ((t.appendAll p cs).1 = .ok () → x ∉ cs) := by
  induction cs generalizing t with
  | nil => exact ⟨hx, fun _ => List.not_mem_nil⟩
  | cons c cs ih =>
    have hu : (t.append p c).2.Forest := h.insert p _ c
    rw [appendAll] at hx ⊢
    cases hr : t.append p c with
    | mk outcome u =>
      rw [hr] at hx hu
      cases outcome with
      | error e =>
        dsimp only at hx ⊢
        have hinsert : (t.append p c).2.Adrift x := by rwa [hr]
        exact ⟨(h.adrift_of_insert hinsert).1, fun hok => by cases hok⟩
      | ok =>
        dsimp only at hx ⊢
        obtain ⟨hfirst, hrest⟩ := ih hu hx
        have hinsert : (t.append p c).2.Adrift x := by rwa [hr]
        obtain ⟨hbefore, hne⟩ := h.adrift_of_insert hinsert
        have hadmits : t.Admits p c := h.insert_ok_iff.mp (congrArg Prod.fst hr)
        refine ⟨hbefore, fun hok hmem => ?_⟩
        rcases List.mem_cons.mp hmem with rfl | hmem
        · exact hne hadmits rfl
        · exact hrest hok hmem

theorem Forest.adrift_of_setChildren (h : t.Forest) (hx : (t.setChildren p cs).2.Adrift x) :
    t.Adrift x ∧ ((t.setChildren p cs).1 = .ok () → x ∉ cs) := by
  cases hp : t.isHolder p with
  | false =>
    obtain ⟨e, he⟩ := setChildren_of_not_isHolder cs hp
    rw [he] at hx ⊢
    exact ⟨hx, nofun⟩
  | true =>
    rw [setChildren_of_isHolder hp] at hx ⊢
    obtain ⟨hbefore, hne⟩ := (h.removeAll _).adrift_of_appendAll hx
    exact ⟨h.adrift_of_removeAll hbefore, hne⟩

/-- A widget that is pinned is taken in. -/
theorem Forest.adrift_of_pin (h : t.Forest) (hx : (t.pin id).2.Adrift x) :
    t.Adrift x ∧ ((t.pin id).1 = .ok () → x ≠ id) := by
  unfold pin at hx ⊢
  split at hx
  · exact ⟨hx, nofun⟩
  · have hne : x ≠ id := by
      rintro rfl
      dsimp only at hx
      split at hx
      · next hlayer =>
        rcases Bool.or_eq_true_iff.mp hlayer with hpin | hroot
        · exact hx.not_pinned (List.contains_iff_mem.mp hpin)
        · exact hx.not_root (by simpa using hroot)
      · exact hx.not_pinned (List.mem_append_right _ (List.mem_singleton.mpr rfl))
    have hdetached : (t.detach id).Adrift x := by
      dsimp only at hx
      split at hx
      · exact hx
      · exact ⟨hx.live, hx.top, hx.not_root, fun hpin => hx.not_pinned (List.mem_append_left _ hpin)⟩
    exact ⟨h.adrift_of_detach hdetached hne, fun _ => hne⟩

theorem Forest.adrift_of_removeRootUnless (h : t.Forest) {root : Option WidgetId}
    (hx : (t.removeRootUnless root).Adrift x) : t.Adrift x := by
  obtain ⟨-, heq⟩ | ⟨old, hold, -, heq⟩ := t.removeRootUnless_outcomes root <;> rw [heq] at hx
  · exact hx
  · have hu : ({ t with root := none } : Tree).Forest := h.congr fun _ => rfl
    have hbefore := hu.adrift_of_remove hx
    refine ⟨hbefore.live, hbefore.top, fun hroot => ?_, hbefore.not_pinned⟩
    have hout := (hu.contains_remove_iff.mp hx.live).2
    rw [hold] at hroot
    cases hroot
    exact hout .refl

theorem root_of_root_removeRootUnless {root : Option WidgetId} {r : WidgetId}
    (hr : (t.removeRootUnless root).root = some r) : root = some r := by
  obtain ⟨hkept, heq⟩ | ⟨old, -, -, heq⟩ := t.removeRootUnless_outcomes root <;> rw [heq] at hr
  · exact hkept r hr
  · rw [root_remove] at hr
    split at hr <;> cases hr

/-- A new root is taken in, and the old one is removed. -/
theorem Forest.adrift_of_setRoot (h : t.Forest) {root : Option WidgetId}
    (hx : (t.setRoot root).Adrift x) : t.Adrift x ∧ root ≠ some x := by
  have hne : root ≠ some x := hx.not_root
  refine ⟨?_, hne⟩
  have hremoved {u : Tree} (hu : u.Forest) (hxu : ({ u.removeRootUnless root with root } : Tree).Adrift x) :
      u.Adrift x :=
    hu.adrift_of_removeRootUnless
      ⟨hxu.live, hxu.top, fun hr => hne (root_of_root_removeRootUnless hr), hxu.not_pinned⟩
  unfold setRoot at hx
  cases root with
  | none => exact hremoved h hx
  | some new =>
    have hxnew : x ≠ new := fun he => hne (congrArg some he.symm)
    have hu : ((t.detach new).unpin new).Forest := (h.detach new).congr fun _ => rfl
    have hbefore := hremoved hu hx
    refine h.adrift_of_detach ⟨hbefore.live, hbefore.top, hbefore.not_root, fun hpin => ?_⟩ hxnew
    refine hbefore.not_pinned ?_
    rw [pinned_unpin, List.mem_filter]
    exact ⟨hpin, by simpa using hxnew⟩

theorem Forest.adrift_of_replace (h : t.Forest) (hx : (t.replace target new).2.Adrift x) :
    t.Adrift x ∧ (target ≠ new → (t.replace target new).1 = .ok () → x ≠ new) := by
  by_cases hne : target = new
  · subst hne
    rw [replace_self] at hx
    exact ⟨hx, fun hne => absurd rfl hne⟩
  by_cases hroot : t.root = some target
  · rw [replace_root hne hroot] at hx
    obtain ⟨hbefore, hxnew⟩ : t.Adrift x ∧ some new ≠ some x := h.adrift_of_setRoot hx
    exact ⟨hbefore, fun _ _ he => hxnew (congrArg some he.symm)⟩
  by_cases hf : t.Fits target new
  · obtain ⟨p, hp⟩ := Option.isSome_iff_exists.mp hf.1
    obtain ⟨i, hi⟩ := h.replace_of_fits hroot hf hp
    rw [hi] at hx
    have hd := h.detach new
    obtain ⟨hremoved, hxnew⟩ := (hd.remove target).adrift_of_insert hx
    have hxnew := hxnew (h.admits_remove hf hp)
    exact ⟨h.adrift_of_detach (hd.adrift_of_remove hremoved) hxnew, fun _ _ => hxnew⟩
  · obtain ⟨e, he⟩ := h.replace_of_not_fits hne hroot hf
    rw [he] at hx ⊢
    exact ⟨hx, fun _ => nofun⟩

theorem Forest.adrift_of_placeBeside (h : t.Forest) {offset : Nat}
    (hx : (t.placeBeside new target offset).2.Adrift x) :
    t.Adrift x ∧ ((t.placeBeside new target offset).1 = .ok () → x ≠ new) := by
  by_cases hf : t.Fits target new
  · obtain ⟨p, hp⟩ := Option.isSome_iff_exists.mp hf.1
    obtain ⟨i, hi⟩ := @Forest.placeBeside_of_fits t p target new offset h hf hp
    rw [hi] at hx
    obtain ⟨hdetached, hxnew⟩ := (h.detach new).adrift_of_insert hx
    have hxnew := hxnew (h.admits_detach hf hp)
    exact ⟨h.adrift_of_detach hdetached hxnew, fun _ => hxnew⟩
  · obtain ⟨e, he⟩ := @Forest.placeBeside_of_not_fits t target new offset h hf
    rw [he] at hx ⊢
    exact ⟨hx, nofun⟩

/-- A widget that is placed, other than at itself, is taken in. -/
theorem Forest.adrift_of_place (h : t.Forest) {edit : Edit} (hx : (t.place id target edit).2.Adrift x) :
    t.Adrift x ∧ (target ≠ id → (t.place id target edit).1 = .ok () → x ≠ id) := by
  cases edit with
  | replace => exact h.adrift_of_replace hx
  | replaceChildren =>
    have hset : (t.setChildren target [id]).2.Adrift x := hx
    obtain ⟨hbefore, hne⟩ := h.adrift_of_setChildren hset
    exact ⟨hbefore, fun _ hok he => hne hok (List.mem_singleton.mpr he)⟩
  | before =>
    obtain ⟨hbefore, hne⟩ := h.adrift_of_placeBeside hx
    exact ⟨hbefore, fun _ => hne⟩
  | after =>
    obtain ⟨hbefore, hne⟩ := h.adrift_of_placeBeside hx
    exact ⟨hbefore, fun _ => hne⟩
  | prepend =>
    obtain ⟨hbefore, hne⟩ := h.adrift_of_insert hx
    exact ⟨hbefore, fun _ hok => hne (h.insert_ok_iff.mp hok)⟩
  | append =>
    obtain ⟨hbefore, hne⟩ := h.adrift_of_insert hx
    exact ⟨hbefore, fun _ hok => hne (h.insert_ok_iff.mp hok)⟩

end placing

section making

theorem adrift_of_construct {w : Widget} (hw : w.IsUnlinked) (hx : (t.construct w).2.Adrift x) :
    t.Adrift x ∨ x = (t.construct w).1 := by
  by_cases hnew : x.index = t.slots.size
  · exact .inr (WidgetId.ext hnew)
  · have hlive := hx.live
    have htop := hx.top
    rw [contains, get?_construct, if_neg hnew] at hlive
    rw [parent?_construct hw.1] at htop
    exact .inl ⟨hlive, htop, hx.not_root, hx.not_pinned⟩

end making

end Hypermedia.Tree
