import Hypermedia.Proofs.Tree.Adrift

/-! Trees that extend others: steps on widgets at new places leave those at the old places as they
were, and no link crosses between old and new. -/
namespace Hypermedia

namespace Widget

variable {u v w : Widget}

/-- Whether a widget has the links and the kind of another. -/
def SameLinks (v w : Widget) : Prop :=
  v.parent = w.parent ∧ v.children = w.children ∧ v.kind = w.kind

theorem SameLinks.refl (w : Widget) : w.SameLinks w := ⟨rfl, rfl, rfl⟩

theorem SameLinks.trans (h : u.SameLinks v) (k : v.SameLinks w) : u.SameLinks w :=
  ⟨h.1.trans k.1, h.2.1.trans k.2.1, h.2.2.trans k.2.2⟩

/-- Whether a widget has the scope of another too. -/
def SameBonds (v w : Widget) : Prop :=
  v.SameLinks w ∧ v.scope = w.scope

theorem SameBonds.refl (w : Widget) : w.SameBonds w := ⟨.refl w, rfl⟩

theorem SameBonds.trans (h : u.SameBonds v) (k : v.SameBonds w) : u.SameBonds w :=
  ⟨h.1.trans k.1, h.2.trans k.2⟩

theorem sameBonds_setAttribute (name : String) (value : Option Attribute) :
    (w.setAttribute name value).SameBonds w := by
  cases value <;> exact ⟨⟨rfl, rfl, rfl⟩, rfl⟩

end Widget

namespace Tree

open Relation (ReflTransGen)

variable {base t u : Tree} {id x a p c : WidgetId} {cs ids : List WidgetId} {i : Nat}
  {f : Widget → Widget}

section modify

variable (hf : ∀ w, t.get? id = some w → (f w).SameLinks w)

include hf

/-- A change of a widget that keeps its links keeps all links. -/
theorem links_modify (x : WidgetId) :
    (t.modify id f).parent? x = t.parent? x ∧ (t.modify id f).children x = t.children x ∧
      (t.modify id f).isHolder x = t.isHolder x := by
  by_cases hx : x = id
  · subst hx
    simp only [parent?, children, isHolder, get?_modify]
    cases hw : t.get? x with
    | none => simp
    | some w =>
      obtain ⟨hparent, hchildren, hkind⟩ := hf w hw
      simp [hparent, hchildren, Widget.isContainer, hkind]
  · simp [parent?, children, isHolder, get?_modify, hx]

theorem Forest.modify (h : t.Forest) : (t.modify id f).Forest := by
  have hlinks := links_modify hf
  have hl : (t.modify id f).IsChild = t.IsChild := by
    funext c p
    rw [IsChild, IsChild, (hlinks c).1]
  refine ⟨fun p c => ?_, fun p => ?_, ?_, fun p hp => ?_⟩
  · rw [(hlinks p).2.1, (hlinks c).1]
    exact h.mem_children_iff p c
  · rw [(hlinks p).2.1]
    exact h.nodup_children p
  · rw [Below, hl]
    exact h.acyclic
  · rw [(hlinks p).2.1] at hp
    rw [(hlinks p).2.2]
    exact h.holder p hp

theorem Pins.modify (h : t.Pins) : (t.modify id f).Pins where
  contains x hx := contains_modify.trans (h.contains x hx)
  top x hx := (links_modify hf x).1.trans (h.top x hx)
  nodup := h.nodup
  not_root := h.not_root

/-- It sets nothing adrift. -/
theorem adrift_modify_iff : (t.modify id f).Adrift x ↔ t.Adrift x := by
  have hparent := (links_modify hf x).1
  constructor
  · exact fun hx => ⟨contains_modify ▸ hx.live, hparent ▸ hx.top, hx.not_root, hx.not_pinned⟩
  · exact fun hx => ⟨contains_modify.trans hx.live, hparent.trans hx.top, hx.not_root, hx.not_pinned⟩

end modify

/-- A place that the tree does not have yet. -/
def Unused (t : Tree) (x : WidgetId) : Prop :=
  t.slots.size ≤ x.index

instance : Decidable (t.Unused x) :=
  inferInstanceAs (Decidable (t.slots.size ≤ x.index))

theorem not_unused_of_contains (h : t.contains x = true) : ¬ t.Unused x := by
  obtain ⟨w, hw⟩ := contains_iff.mp h
  exact Nat.not_le_of_lt (index_lt_of_get? hw)

section sane

/-- A tree whose links and pins are in order and whose root has had a place. -/
structure Sane (t : Tree) : Prop where
  forest : t.Forest
  pins : t.Pins
  root : ∀ r, t.root = some r → ¬ t.Unused r

theorem Unused.of_size_le (hsize : t.slots.size ≤ u.slots.size) (hx : u.Unused x) : t.Unused x :=
  Nat.le_trans hsize hx

theorem Sane.leads (h : t.Sane) (hs : Leads t u)
    (hroot : ∀ r, u.root = some r → t.root = some r ∨ ¬ t.Unused r) : u.Sane where
  forest := hs.forest h.forest
  pins := hs.pins h.forest h.pins
  root r hr hunused := by
    have hold : t.Unused r := hunused.of_size_le hs.later.size_le
    exact (hroot r hr).elim (fun hr => h.root r hr hold) fun hused => hused hold

theorem Sane.modify (h : t.Sane) (hf : ∀ w, t.get? id = some w → (f w).SameLinks w) :
    (t.modify id f).Sane where
  forest := h.forest.modify hf
  pins := h.pins.modify hf
  root r hr hunused := h.root r hr (hunused.of_size_le (Nat.le_of_eq size_modify.symm))

theorem sane_empty : ({} : Tree).Sane :=
  ⟨forest_empty, pins_empty, by simp⟩

theorem root_of_root_remove {r : WidgetId} (hr : (t.remove id).root = some r) : t.root = some r := by
  rw [root_remove] at hr
  split at hr
  · cases hr
  · exact hr

theorem root_of_root_removeAll {r : WidgetId} (hr : (t.removeAll ids).root = some r) :
    t.root = some r := by
  induction ids generalizing t with
  | nil => exact hr
  | cons id ids ih => exact root_of_root_remove (ih hr)

@[simp] theorem root_pin : (t.pin id).2.root = t.root := by
  obtain heq | heq | ⟨-, -, -, heq⟩ := t.pin_outcomes id <;> rw [heq]
  · exact root_detach
  · exact root_detach

theorem root_of_root_dismiss {r : WidgetId} (hr : (t.dismiss id).2.root = some r) :
    t.root = some r := by
  unfold dismiss at hr
  split at hr
  · exact root_of_root_remove hr
  · exact hr

@[simp] theorem root_appendAll : (t.appendAll p cs).2.root = t.root := by
  induction cs generalizing t with
  | nil => rfl
  | cons c cs ih =>
    have hfirst : (t.append p c).2.root = t.root := root_insert
    rw [appendAll]
    split
    · next u hu =>
      rw [hu] at hfirst
      exact ih.trans hfirst
    · next e u hu =>
      rw [hu] at hfirst
      exact hfirst

theorem root_of_root_setChildren {r : WidgetId} (hr : (t.setChildren p cs).2.root = some r) :
    t.root = some r := by
  unfold setChildren at hr
  split at hr
  · exact hr
  · split at hr
    · exact hr
    · rw [root_appendAll] at hr
      exact root_of_root_removeAll hr

theorem root_of_root_replace {r target new : WidgetId} (hr : (t.replace target new).2.root = some r) :
    t.root = some r ∨ r = new := by
  unfold replace at hr
  split at hr
  · exact .inl hr
  · split at hr
    · exact .inr (Option.some.inj hr).symm
    · split at hr
      · exact .inl hr
      · dsimp only at hr
        split at hr
        · exact .inl (root_detach ▸ hr)
        · rw [root_insert] at hr
          exact .inl (root_detach ▸ root_of_root_remove hr)

theorem root_of_root_placeBeside {r target : WidgetId} {offset : Nat}
    (hr : (t.placeBeside id target offset).2.root = some r) : t.root = some r := by
  unfold placeBeside at hr
  split at hr
  · exact hr
  · dsimp only at hr
    split at hr
    · exact root_detach ▸ hr
    · rw [root_insert, root_detach] at hr
      exact hr

/-- Only a replacement brings another root, and that is what is placed. -/
theorem root_of_root_place {r : WidgetId} {edit : Edit} (hr : (t.place id a edit).2.root = some r) :
    t.root = some r ∨ r = id := by
  cases edit with
  | replace => exact root_of_root_replace hr
  | replaceChildren => exact .inl (root_of_root_setChildren hr)
  | before => exact .inl (root_of_root_placeBeside hr)
  | after => exact .inl (root_of_root_placeBeside hr)
  | prepend => exact .inl (root_insert.symm.trans hr)
  | append => exact .inl (root_insert.symm.trans hr)

end sane

/-- `t` has the widgets of `base` as they were, pinned or not, and maybe more at new places. -/
structure Extends (base t : Tree) : Prop where
  forest : t.Forest
  pins : t.Pins
  size_le : base.slots.size ≤ t.slots.size
  get?_eq : ∀ x, ¬ base.Unused x → t.get? x = base.get? x
  pinned : t.pinned.filter (fun x => x.index < base.slots.size) = base.pinned

theorem Extends.refl (h : base.Forest) (hp : base.Pins) : base.Extends base := by
  refine ⟨h, hp, Nat.le_refl _, fun _ _ => rfl, List.filter_eq_self.mpr fun x hx => ?_⟩
  exact decide_eq_true (Nat.lt_of_not_le (not_unused_of_contains (hp.contains x hx)))

/-- A step that touches nothing at the old places. -/
theorem Extends.step (he : base.Extends t) (hs : Leads t u) (hsize : t.slots.size ≤ u.slots.size)
    (hget : ∀ x, ¬ base.Unused x → u.get? x = t.get? x)
    (hpinned : u.pinned.filter (fun x => x.index < base.slots.size) =
      t.pinned.filter (fun x => x.index < base.slots.size)) : base.Extends u where
  forest := hs.forest he.forest
  pins := hs.pins he.forest he.pins
  size_le := Nat.le_trans he.size_le hsize
  get?_eq x hx := (hget x hx).trans (he.get?_eq x hx)
  pinned := hpinned.trans he.pinned

section old

variable (hb : base.Forest) (he : base.Extends t)

include he in
theorem Extends.parent?_eq (hx : ¬ base.Unused x) : t.parent? x = base.parent? x := by
  rw [parent?, parent?, he.get?_eq x hx]

include he in
theorem Extends.children_eq (hx : ¬ base.Unused x) : t.children x = base.children x := by
  rw [children, children, he.get?_eq x hx]

include hb he

omit hb in
theorem Extends.mem_pinned (hpin : x ∈ t.pinned) (hold : ¬ base.Unused x) : x ∈ base.pinned :=
  he.pinned ▸ List.mem_filter.mpr ⟨hpin, decide_eq_true (Nat.lt_of_not_le hold)⟩

/-- A link leads from an old widget to an old one or from a new one to a new one. -/
theorem Extends.unused_iff_of_parent? (hp : t.parent? c = some p) :
    base.Unused c ↔ base.Unused p := by
  constructor
  · intro hc
    by_contra hold
    have hmem := (he.forest.mem_children_iff p c).mpr hp
    rw [he.children_eq hold] at hmem
    exact not_unused_of_contains (hb.contains_child hmem) hc
  · intro hnew
    by_contra hold
    rw [he.parent?_eq hold] at hp
    exact not_unused_of_contains (hb.contains_parent hp) hnew

theorem Extends.unused_iff_of_within (hw : t.Within x a) : base.Unused x ↔ base.Unused a := by
  induction hw using ReflTransGen.head_induction_on with
  | refl => exact Iff.rfl
  | head hxy _ ih => exact (he.unused_iff_of_parent? hb hxy).trans ih

/-- A widget at a new place leaves its parent: old ones do not notice. -/
theorem Extends.get?_detach (hid : base.Unused id) (hx : ¬ base.Unused x) :
    (t.detach id).get? x = t.get? x := by
  have hne : x ≠ id := fun heq => hx (heq ▸ hid)
  rw [he.forest.get?_detach]
  cases hw : t.get? x with
  | none => rfl
  | some w =>
    have hout : id ∉ w.children := by
      intro hmem
      have hlink : t.parent? id = some x :=
        (he.forest.mem_children_iff x id).mp (by simpa [children, hw] using hmem)
      exact hx ((he.unused_iff_of_parent? hb hlink).mp hid)
    rw [Option.map_some, if_neg hne, Widget.withoutChild_self hout, Widget.withParent_self]

end old

theorem filter_old_filter_ne (hid : base.Unused id) (l : List WidgetId) :
    (l.filter (· != id)).filter (fun x => x.index < base.slots.size) =
      l.filter (fun x => x.index < base.slots.size) := by
  rw [List.filter_filter]
  refine List.filter_congr fun x _ => ?_
  by_cases hx : x = id
  · subst hx
    simpa [Unused] using hid
  · simp [hx]

section steps

variable (hb : base.Forest) (he : base.Extends t)

include hb he

theorem Extends.detach (hid : base.Unused id) : base.Extends (t.detach id) :=
  he.step (.single (.detach t id)) (Nat.le_of_eq size_detach.symm)
    (fun _ hx => he.get?_detach hb hid hx) (by rw [pinned_detach])

theorem Extends.remove (hid : base.Unused id) : base.Extends (t.remove id) := by
  refine he.step (.single (.remove t id)) (Nat.le_of_eq size_remove.symm) (fun x hx => ?_) ?_
  · have hout : ¬ t.Within x id := fun hw => hx ((he.unused_iff_of_within hb hw).mpr hid)
    rw [he.forest.get?_remove_of_not_within hout, he.get?_detach hb hid hx]
  · rw [pinned_remove, filter_old_filter_ne hid]

theorem Extends.removeAll (hids : ∀ id ∈ ids, base.Unused id) : base.Extends (t.removeAll ids) := by
  induction ids generalizing t with
  | nil => exact he
  | cons id ids ih =>
    obtain ⟨hid, hids⟩ := List.forall_mem_cons.mp hids
    exact ih (he.remove hb hid) hids

theorem Extends.insert (hp : base.Unused p) (hc : base.Unused c) :
    base.Extends (t.insert p i c).2 := by
  by_cases ha : t.Admits p c
  case neg =>
    obtain ⟨e, hr⟩ := he.forest.insert_of_not_admits (i := i) ha
    rw [hr]
    exact he
  refine he.step (.single (.insert t p i c)) (Nat.le_of_eq size_insert.symm) (fun x hx => ?_) ?_
  · have hdetach := he.get?_detach hb hc hx
    have hxp : x ≠ p := fun heq => hx (heq ▸ hp)
    have hxc : x ≠ c := fun heq => hx (heq ▸ hc)
    rw [he.forest.get?_detach] at hdetach
    rw [he.forest.get?_insert ha]
    simpa only [if_neg hxp, if_neg hxc] using hdetach
  · rw [he.forest.pinned_insert ha, filter_old_filter_ne hc]

theorem Extends.appendAll (hp : base.Unused p) (hcs : ∀ c ∈ cs, base.Unused c) :
    base.Extends (t.appendAll p cs).2 := by
  induction cs generalizing t with
  | nil => exact he
  | cons c cs ih =>
    obtain ⟨hc, hcs⟩ := List.forall_mem_cons.mp hcs
    have hfirst : base.Extends (t.append p c).2 := he.insert hb hp hc
    rw [Tree.appendAll]
    split
    · next u hu =>
      rw [hu] at hfirst
      exact ih hfirst hcs
    · next e u hu =>
      rw [hu] at hfirst
      exact hfirst

theorem Extends.pin (hid : base.Unused id) : base.Extends (t.pin id).2 := by
  have hd := he.detach hb hid
  refine he.step (he.forest.leads_pin id) ?_ (fun x hx => ?_) ?_
  · exact (he.forest.leads_pin id).later.size_le
  · have hget := he.get?_detach hb hid hx
    obtain heq | heq | ⟨-, -, -, heq⟩ := t.pin_outcomes id <;> rw [heq]
    · exact hget
    · exact hget
  · obtain heq | heq | ⟨-, -, -, heq⟩ := t.pin_outcomes id <;> rw [heq]
    · rw [pinned_detach]
    · have hout : ¬ id.index < base.slots.size := Nat.not_lt_of_le hid
      rw [List.filter_append, pinned_detach, List.filter_cons_of_neg (by simpa using hout),
        List.filter_nil, List.append_nil]

theorem Extends.dismiss (hid : base.Unused id) : base.Extends (t.dismiss id).2 := by
  unfold Tree.dismiss
  split
  · next holder hfind =>
    have hw := he.forest.mem_lineage_iff.mp (List.mem_of_find?_eq_some hfind)
    exact he.remove hb ((he.unused_iff_of_within hb hw).mp hid)
  · exact he

omit hb in
theorem Extends.construct {w : Widget} (hw : w.IsUnlinked) : base.Extends (t.construct w).2 := by
  refine he.step (.single (.construct t hw)) (by simp) (fun x hx => ?_) rfl
  have hlt : x.index < t.slots.size := Nat.lt_of_lt_of_le (Nat.lt_of_not_le hx) he.size_le
  rw [get?_construct, if_neg (Nat.ne_of_lt hlt)]

omit hb in
theorem Extends.modify (hid : base.Unused id) (hf : ∀ w, t.get? id = some w → (f w).SameLinks w) :
    base.Extends (t.modify id f) where
  forest := he.forest.modify hf
  pins := he.pins.modify hf
  size_le := Nat.le_trans he.size_le (Nat.le_of_eq size_modify.symm)
  get?_eq x hx := by
    have hne : x ≠ id := fun heq => hx (heq ▸ hid)
    rw [get?_modify, if_neg hne]
    exact he.get?_eq x hx
  pinned := he.pinned

end steps

section roots

theorem Extends.withRoot (he : base.Extends t) {root : Option WidgetId}
    (hroot : ∀ x ∈ t.pinned, root ≠ some x) : base.Extends { t with root } where
  forest := he.forest.congr fun _ => rfl
  pins := ⟨he.pins.contains, he.pins.top, he.pins.nodup, hroot⟩
  size_le := he.size_le
  get?_eq := he.get?_eq
  pinned := he.pinned

theorem Extends.unpin (he : base.Extends t) (hid : base.Unused id) : base.Extends (t.unpin id) where
  forest := he.forest.congr fun _ => rfl
  pins := he.pins.sublist (fun _ _ h => h) (fun _ _ h => h) List.filter_sublist fun _ _ h => h
  size_le := he.size_le
  get?_eq := he.get?_eq
  pinned := by rw [pinned_unpin, filter_old_filter_ne hid, he.pinned]

/-- A new root, or none, in place of a new one. -/
theorem Extends.setRoot (hb : base.Forest) (he : base.Extends t)
    (hold : ∀ r, t.root = some r → base.Unused r) {root : Option WidgetId}
    (hnew : ∀ r, root = some r → base.Unused r) : base.Extends (t.setRoot root) := by
  have hpins := (leads_setRoot t root).pins he.forest he.pins
  have hremoved {u : Tree} (hu : base.Extends u) (hr : u.root = t.root) :
      base.Extends (u.removeRootUnless root) := by
    obtain ⟨-, heq⟩ | ⟨old, hroot, -, heq⟩ := u.removeRootUnless_outcomes root <;> rw [heq]
    · exact hu
    · have hbare : base.Extends { u with root := none } := hu.withRoot fun _ _ => nofun
      exact hbare.remove hb (hold old (hr.symm.trans hroot))
  cases root with
  | none => exact (hremoved he rfl).withRoot fun _ _ => nofun
  | some new =>
    have hdetached := (he.detach hb (hnew new rfl)).unpin (hnew new rfl)
    exact (hremoved hdetached root_detach).withRoot hpins.not_root

/-- A widget without a place becomes the root of a tree that has none, and nothing else changes. -/
theorem setRoot_of_top (htop : t.parent? x = none) (hpin : x ∉ t.pinned) (hroot : t.root = none) :
    t.setRoot (some x) = { t with root := some x } := by
  simp only [Tree.setRoot, detach, htop, Tree.unpin, filter_ne_eq_self hpin, removeRootUnless, hroot]

theorem Forest.mem_pinned_of_insert (h : t.Forest) (hx : x ∈ (t.insert p i c).2.pinned) : x ∈ t.pinned := by
  by_cases ha : t.Admits p c
  · rw [h.pinned_insert ha] at hx
    exact List.mem_of_mem_filter hx
  · obtain ⟨e, he⟩ := h.insert_of_not_admits (i := i) ha
    rwa [he] at hx

/-- Where new widgets are removed, the old root stays. -/
theorem Sane.root_removeAll (h : base.Sane) (hroot : t.root = base.root)
    (hids : ∀ id ∈ ids, base.Unused id) : (t.removeAll ids).root = base.root := by
  refine (Tree.root_removeAll fun id hid hr => ?_).trans hroot
  exact h.root id (hroot.symm.trans hr) (hids id hid)

theorem mem_pinned_of_removeAll (hx : x ∈ (t.removeAll ids).pinned) : x ∈ t.pinned ∧ x ∉ ids := by
  induction ids generalizing t with
  | nil => exact ⟨hx, List.not_mem_nil⟩
  | cons id ids ih =>
    obtain ⟨hremoved, hout⟩ := ih hx
    rw [pinned_remove, List.mem_filter] at hremoved
    exact ⟨hremoved.1, List.not_mem_cons_of_ne_of_not_mem (bne_iff_ne.mp hremoved.2) hout⟩

/-- Where no pin is at a new place, the pins are those of the tree that is extended. -/
theorem Extends.pinned_eq (he : base.Extends t) (hold : ∀ x ∈ t.pinned, ¬ base.Unused x) :
    t.pinned = base.pinned := by
  rw [← he.pinned]
  exact (List.filter_eq_self.mpr fun x hx => decide_eq_true (Nat.lt_of_not_le (hold x hx))).symm

end roots

end Tree

end Hypermedia
