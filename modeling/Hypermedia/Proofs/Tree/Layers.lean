import Hypermedia.Proofs.Tree.Beside
import Hypermedia.Proofs.Tree.Children
import Hypermedia.Proofs.Tree.Run

/-! The layers of a tree: the document root and the pinned widgets. Pins are kept by every operation,
the root by all but those that put a missing widget in its place or the root under another widget. -/
namespace Hypermedia.Tree

open Relation (ReflTransGen)

variable {t u : Tree} {id x a b p c target new : WidgetId} {cs : List WidgetId}

section pins

/-- Pinned widgets are there, have no parent, are pinned once, and the root is not one of them. -/
structure Pins (t : Tree) : Prop where
  contains : ∀ id ∈ t.pinned, t.contains id = true
  top : ∀ id ∈ t.pinned, t.parent? id = none
  nodup : t.pinned.Nodup
  not_root : ∀ id ∈ t.pinned, t.root ≠ some id

theorem pins_empty : ({} : Tree).Pins := by
  constructor <;> simp

/-- Where links stay and the root comes to no pinned widget, fewer pins are pins. -/
theorem Pins.sublist (h : t.Pins) (hc : ∀ x ∈ u.pinned, t.contains x = true → u.contains x = true)
    (hp : ∀ x ∈ u.pinned, t.parent? x = none → u.parent? x = none)
    (hs : u.pinned.Sublist t.pinned) (hr : ∀ x ∈ u.pinned, t.root ≠ some x → u.root ≠ some x) :
    u.Pins where
  contains x hx := hc x hx (h.contains x (hs.subset hx))
  top x hx := hp x hx (h.top x (hs.subset hx))
  nodup := h.nodup.sublist hs
  not_root x hx := hr x hx (h.not_root x (hs.subset hx))

/-- A widget without a parent is within nothing but itself. -/
theorem eq_of_within (hp : t.parent? x = none) (hw : t.Within x a) : x = a := by
  rcases within_iff.mp hw with rfl | hb
  · rfl
  · obtain ⟨q, hq, -⟩ := below_iff.mp hb
    simp [hp] at hq

theorem Forest.parent?_remove_eq_none (h : t.Forest) (hp : t.parent? x = none) :
    (t.remove id).parent? x = none := by
  cases hq : (t.remove id).parent? x with
  | none => rfl
  | some q =>
    have := h.parent?_of_remove hq
    simp [hp] at this

theorem Forest.contains_remove_of_top (h : t.Forest) (hp : t.parent? x = none) (hne : x ≠ id)
    (hx : t.contains x = true) : (t.remove id).contains x = true :=
  h.contains_remove_iff.mpr ⟨hx, fun hw => hne (eq_of_within hp hw)⟩

theorem Pins.remove (h : t.Forest) (hp : t.Pins) (id : WidgetId) : (t.remove id).Pins := by
  have hmem : ∀ x ∈ (t.remove id).pinned, x ∈ t.pinned ∧ x ≠ id := by
    simp [pinned_remove]
  refine hp.sublist ?_ ?_ ?_ ?_
  · intro x hx
    obtain ⟨hx, hne⟩ := hmem x hx
    exact h.contains_remove_of_top (hp.top x hx) hne
  · exact fun x _ => h.parent?_remove_eq_none
  · rw [pinned_remove]
    exact List.filter_sublist
  · intro x _ hr
    rw [root_remove]
    split
    · simp
    · exact hr

theorem Pins.insert (h : t.Forest) (hp : t.Pins) (p : WidgetId) (i : Nat) (c : WidgetId) :
    (t.insert p i c).2.Pins := by
  by_cases ha : t.Admits p c
  case neg =>
    obtain ⟨e, he⟩ := h.insert_of_not_admits (i := i) ha
    rw [he]
    exact hp
  refine hp.sublist ?_ ?_ ?_ ?_
  · intro x _ hx
    rw [contains_insert, hx]
  · intro x hx htop
    have hne : x ≠ c := by
      rw [h.pinned_insert ha, List.mem_filter] at hx
      simpa using hx.2
    rw [h.parent?_insert ha, if_neg hne, htop]
  · rw [h.pinned_insert ha]
    exact List.filter_sublist
  · intro x _ hr
    rwa [root_insert]

theorem Step.pins (hs : Step t u) (h : t.Forest) (hp : t.Pins) : u.Pins := by
  cases hs with
  | @construct w unlinked =>
    refine hp.sublist ?_ ?_ (List.Sublist.refl _) fun x _ hr => hr
    · intro x _ hx
      obtain ⟨v, hv⟩ := contains_iff.mp hx
      rw [contains, get?_construct, if_neg (Nat.ne_of_lt (index_lt_of_get? hv))]
      exact hx
    · intro x _ hx
      rw [parent?_construct unlinked.1, hx]
  | detach id =>
    refine hp.sublist ?_ ?_ ?_ ?_
    · intro x _ hx
      rw [contains_detach, hx]
    · intro x _ hx
      rw [h.parent?_detach, hx, ite_self]
    · rw [pinned_detach]
    · intro x _ hr
      rwa [root_detach]
  | remove id => exact hp.remove h id
  | insert p i c => exact hp.insert h p i c
  | unpin id =>
    refine hp.sublist (fun x _ hx => hx) (fun x _ hx => hx) ?_ fun x _ hr => hr
    rw [pinned_unpin]
    exact List.filter_sublist
  | unpinAll => constructor <;> simp
  | @pin id live top fresh other =>
    refine ⟨?_, ?_, ?_, ?_⟩
    · exact List.forall_mem_append.mpr ⟨hp.contains, List.forall_mem_singleton.mpr live⟩
    · exact List.forall_mem_append.mpr ⟨hp.top, List.forall_mem_singleton.mpr top⟩
    · have hne : ∀ x ∈ t.pinned, x ≠ id := fun x hx he => fresh (he ▸ hx)
      simpa [List.nodup_append] using ⟨hp.nodup, hne⟩
    · exact List.forall_mem_append.mpr ⟨hp.not_root, List.forall_mem_singleton.mpr other⟩
  | dropRoot => exact hp.sublist (fun x _ hx => hx) (fun x _ hx => hx) (List.Sublist.refl _) (by simp)
  | @raise id free =>
    refine ⟨hp.contains, hp.top, hp.nodup, fun x hx he => ?_⟩
    exact free (Option.some.inj he ▸ hx)

theorem Leads.pins (hs : Leads t u) (h : t.Forest) (hp : t.Pins) : u.Pins := by
  induction hs with
  | refl => exact hp
  | tail hl hs ih => exact hs.pins (Leads.forest hl h) ih

end pins

section root

/-- The root, if there is one, is a widget that has no parent. -/
def Rooted (t : Tree) : Prop :=
  ∀ r, t.root = some r → t.contains r = true ∧ t.parent? r = none

/-- Whether an operation of a tree leaves it with a root that is gone or has a parent. -/
def Displaces (t : Tree) : Operation → Prop
  | .append p c | .insert p _ c | .place c p .prepend | .place c p .append =>
    t.root = some c ∧ t.Admits p c
  | .replace target new | .place new target .replace =>
    target ≠ new ∧ t.root = some target ∧ t.contains new = false ∨
      t.root = some new ∧ t.Fits target new
  | .setChildren p cs => t.isHolder p = true ∧ ∃ r, t.root = some r ∧ r ∈ t.adopted p cs
  | .place c p .replaceChildren => t.isHolder p = true ∧ t.root = some c ∧ c ∈ t.adopted p [c]
  | .place new target .before | .place new target .after => t.root = some new ∧ t.Fits target new
  | .setRoot (some new) => t.contains new = false
  | .setRoot none | .construct _ _ | .detach _ | .remove _ | .takeRoot | .pin _ | .dismiss _
  | .clearPinned => False

theorem rooted_empty : ({} : Tree).Rooted := by
  simp [Rooted]

theorem rooted_of_root_eq_none (h : t.root = none) : t.Rooted := by
  simp [Rooted, h]

theorem Rooted.congr (h : t.Rooted) (hr : u.root = t.root)
    (hc : ∀ x, t.contains x = true → u.contains x = true)
    (hp : ∀ x, t.parent? x = none → u.parent? x = none) : u.Rooted := by
  intro r hroot
  obtain ⟨hcr, hpr⟩ := h r (hr ▸ hroot)
  exact ⟨hc r hcr, hp r hpr⟩

theorem Rooted.detach (h : t.Forest) (hr : t.Rooted) (id : WidgetId) : (t.detach id).Rooted := by
  refine hr.congr root_detach (fun x hx => ?_) (fun x hx => ?_)
  · rw [contains_detach, hx]
  · rw [h.parent?_detach, hx, ite_self]

theorem Rooted.remove (h : t.Forest) (hr : t.Rooted) (id : WidgetId) : (t.remove id).Rooted := by
  intro r hroot
  rw [root_remove] at hroot
  split at hroot
  · simp at hroot
  · next hne =>
    obtain ⟨hc, hp⟩ := hr r hroot
    have hid : r ≠ id := fun he => hne (he ▸ hroot)
    exact ⟨h.contains_remove_of_top hp hid hc, h.parent?_remove_eq_none hp⟩

theorem Rooted.removeAll (h : t.Forest) (hr : t.Rooted) (ids : List WidgetId) :
    (t.removeAll ids).Rooted := by
  induction ids generalizing t with
  | nil => exact hr
  | cons id ids ih => exact ih (h.remove id) (hr.remove h id)

/-- An insertion keeps the root a root unless it is what is inserted. -/
theorem Forest.rooted_insert_iff (h : t.Forest) (hr : t.Rooted) {i : Nat} (ha : t.Admits p c) :
    (t.insert p i c).2.Rooted ↔ t.root ≠ some c := by
  constructor
  · intro hu hroot
    have hp := (hu c (by rw [root_insert, hroot])).2
    simp [h.parent?_insert ha] at hp
  · intro hne r hroot
    rw [root_insert] at hroot
    have hrc : r ≠ c := fun he => hne (he ▸ hroot)
    rw [contains_insert, h.parent?_insert ha, if_neg hrc]
    exact hr r hroot

theorem Forest.rooted_insert (h : t.Forest) (hr : t.Rooted) (i : Nat) :
    (t.insert p i c).2.Rooted ↔ ¬ (t.root = some c ∧ t.Admits p c) := by
  by_cases ha : t.Admits p c
  · rw [h.rooted_insert_iff hr ha]
    simp [ha]
  · obtain ⟨e, he⟩ := h.insert_of_not_admits (i := i) ha
    simp [he, hr, ha]

theorem Forest.rooted_placeBeside (h : t.Forest) (hr : t.Rooted) (offset : Nat) :
    (t.placeBeside new target offset).2.Rooted ↔ ¬ (t.root = some new ∧ t.Fits target new) := by
  by_cases hf : t.Fits target new
  · obtain ⟨p, hp⟩ := Option.isSome_iff_exists.mp hf.1
    obtain ⟨i, hi⟩ := @Forest.placeBeside_of_fits t p target new offset h hf hp
    rw [hi, (h.detach new).rooted_insert_iff (hr.detach h new) (h.admits_detach hf hp), root_detach]
    simp [hf]
  · obtain ⟨e, he⟩ := @Forest.placeBeside_of_not_fits t target new offset h hf
    simp [he, hr, hf]

theorem contains_removeRootUnless (h : t.Forest) (hp : t.parent? new = none) :
    (t.removeRootUnless (some new)).contains new = t.contains new := by
  obtain ⟨-, heq⟩ | ⟨old, -, hne, heq⟩ := t.removeRootUnless_outcomes (some new) <;> rw [heq]
  have hu : ({ t with root := none } : Tree).Forest := h.congr fun _ => rfl
  have hw : ¬ ({ t with root := none } : Tree).Within new old := fun hw =>
    hne (congrArg some (eq_of_within hp hw))
  rw [Bool.eq_iff_iff, hu.contains_remove_iff]
  exact ⟨fun hx => hx.1, fun hx => ⟨hx, hw⟩⟩

theorem parent?_removeRootUnless (h : t.Forest) (hp : t.parent? new = none) :
    (t.removeRootUnless (some new)).parent? new = none := by
  obtain ⟨-, heq⟩ | ⟨old, -, -, heq⟩ := t.removeRootUnless_outcomes (some new) <;> rw [heq]
  · exact hp
  · have hu : ({ t with root := none } : Tree).Forest := h.congr fun _ => rfl
    exact hu.parent?_remove_eq_none hp

/-- The root set is a root unless the widget is missing. -/
theorem Forest.rooted_setRoot (h : t.Forest) :
    (t.setRoot (some new)).Rooted ↔ ¬ t.contains new = false := by
  have hd : ((t.detach new).unpin new).Forest := (h.detach new).congr fun _ => rfl
  have hp : ((t.detach new).unpin new).parent? new = none := h.parent?_detach_self
  have hc := contains_removeRootUnless hd hp
  rw [contains_unpin, contains_detach] at hc
  rw [Bool.not_eq_false, ← hc]
  constructor
  · exact fun hu => (hu new rfl).1
  · rintro hlive r hroot
    obtain rfl : new = r := Option.some.inj hroot
    exact ⟨hlive, parent?_removeRootUnless hd hp⟩

theorem Forest.rooted_replace (h : t.Forest) (hr : t.Rooted) :
    (t.replace target new).2.Rooted ↔
      ¬ (target ≠ new ∧ t.root = some target ∧ t.contains new = false ∨
        t.root = some new ∧ t.Fits target new) := by
  by_cases hne : target = new
  · subst hne
    rw [replace_self]
    simpa [hr] using fun _ hf => hf.ne rfl
  by_cases hroot : t.root = some target
  · rw [replace_root hne hroot, h.rooted_setRoot]
    simp [hroot, hne]
  by_cases hf : t.Fits target new
  · obtain ⟨p, hp⟩ := Option.isSome_iff_exists.mp hf.1
    obtain ⟨i, hi⟩ := h.replace_of_fits hroot hf hp
    have hd := h.detach new
    rw [hi, (hd.remove target).rooted_insert_iff ((hr.detach h new).remove hd target)
      (h.admits_remove hf hp), root_remove, root_detach, if_neg hroot]
    simp [hroot, hf]
  · obtain ⟨e, he⟩ := h.replace_of_not_fits hne hroot hf
    simp [he, hr, hroot, hf]

theorem Forest.rooted_setChildren (h : t.Forest) (hr : t.Rooted) :
    (t.setChildren p cs).2.Rooted ↔
      ¬ (t.isHolder p = true ∧ ∃ r, t.root = some r ∧ r ∈ t.adopted p cs) := by
  cases hp : t.isHolder p with
  | false =>
    obtain ⟨e, he⟩ := setChildren_of_not_isHolder cs hp
    simp [he, hr]
  | true =>
    have ha := h.appended_setChildren cs hp
    have hrem : (t.removeAll (t.dropped p cs)).root = t.root := by
      refine root_removeAll fun old hold hroot => ?_
      have hlink := h.parent?_of_mem_dropped hold
      simp [(hr old hroot).2] at hlink
    have hroot : (t.setChildren p cs).2.root = t.root := ha.root.trans hrem
    constructor
    · rintro hu ⟨-, r, hr, hmem⟩
      have := (hu r (hroot.trans hr)).2
      simp [ha.parent?, hmem] at this
    · intro hnot r hroot'
      have hold : t.root = some r := hroot.symm.trans hroot'
      have hmem : r ∉ t.adopted p cs := fun hmem => hnot ⟨rfl, r, hold, hmem⟩
      have hrest := hr.removeAll h (t.dropped p cs) r (hrem.trans hold)
      rw [ha.contains, ha.parent?, if_neg hmem]
      exact hrest

theorem Forest.rooted_dismiss (h : t.Forest) (hr : t.Rooted) (id : WidgetId) :
    (t.dismiss id).2.Rooted := by
  unfold dismiss
  split
  · exact hr.remove h _
  · exact hr

theorem Forest.rooted_pin (h : t.Forest) (hr : t.Rooted) (id : WidgetId) :
    (t.pin id).2.Rooted := by
  obtain heq | heq | ⟨-, -, -, heq⟩ := t.pin_outcomes id <;> rw [heq]
  · exact hr
  · exact hr.detach h id
  · exact (hr.detach h id).congr rfl (fun _ hx => hx) fun _ hx => hx

theorem Rooted.construct (hr : t.Rooted) {w : Widget} (hw : w.parent = none) :
    (t.construct w).2.Rooted := by
  refine hr.congr rfl (fun x hx => ?_) fun x hx => ?_
  · obtain ⟨v, hv⟩ := contains_iff.mp hx
    rw [contains, get?_construct, if_neg (Nat.ne_of_lt (index_lt_of_get? hv))]
    exact hx
  · rw [parent?_construct hw, hx]

/-- An operation keeps the root a root exactly if it does not displace it. -/
theorem Forest.rooted_after_iff (h : t.Forest) (hr : t.Rooted) (op : Operation) :
    (t.after op).Rooted ↔ ¬ t.Displaces op := by
  cases op with
  | construct w unlinked => exact iff_of_true (hr.construct unlinked.1) id
  | append p c => exact h.rooted_insert hr _
  | insert p i c => exact h.rooted_insert hr i
  | replace target new => exact h.rooted_replace hr
  | setChildren p cs => exact h.rooted_setChildren hr
  | place id target edit =>
    cases edit with
    | replace => exact h.rooted_replace hr
    | replaceChildren =>
      refine (h.rooted_setChildren hr).trans (not_congr (and_congr_right fun _ => ?_))
      constructor
      · rintro ⟨r, hroot, hmem⟩
        obtain rfl : r = id := List.mem_singleton.mp (List.takeWhile_subset _ hmem)
        exact ⟨hroot, hmem⟩
      · exact fun hid => ⟨id, hid⟩
    | before => exact h.rooted_placeBeside hr 0
    | after => exact h.rooted_placeBeside hr 1
    | prepend => exact h.rooted_insert hr 0
    | append => exact h.rooted_insert hr _
  | detach id => exact iff_of_true (hr.detach h id) not_false
  | remove id => exact iff_of_true (hr.remove h id) not_false
  | setRoot root =>
    cases root with
    | none => exact iff_of_true (rooted_of_root_eq_none rfl) not_false
    | some new => exact h.rooted_setRoot
  | takeRoot => exact iff_of_true (rooted_of_root_eq_none rfl) not_false
  | pin id => exact iff_of_true (h.rooted_pin hr id) not_false
  | dismiss id => exact iff_of_true (h.rooted_dismiss hr id) not_false
  | clearPinned =>
    have hu : ({ t with pinned := [] } : Tree).Forest := h.congr fun _ => rfl
    have hru : ({ t with pinned := [] } : Tree).Rooted :=
      hr.congr rfl (fun _ hx => hx) fun _ hx => hx
    exact iff_of_true (hru.removeAll hu t.pinned) not_false

/-- No operation of the run displaces the root. -/
def SparesRoot (t : Tree) : List Operation → Prop
  | [] => True
  | op :: ops => ¬ t.Displaces op ∧ (t.after op).SparesRoot ops

theorem Forest.rooted_prefixes_iff (h : t.Forest) (hr : t.Rooted) (ops : List Operation) :
    (∀ done, done <+: ops → (t.afterAll done).Rooted) ↔ t.SparesRoot ops := by
  induction ops generalizing t with
  | nil =>
    refine iff_of_true (fun done hd => ?_) trivial
    rw [List.prefix_nil.mp hd]
    exact hr
  | cons op ops ih =>
    have hop := h.rooted_after_iff hr op
    have hu : (t.after op).Forest := (h.leads_after op).forest h
    constructor
    · intro hall
      have hafter : (t.after op).Rooted := hall [op] (List.prefix_append [op] ops)
      refine ⟨hop.mp hafter, (ih hu hafter).mp fun done hd => ?_⟩
      exact hall (op :: done) (List.cons_prefix_cons.mpr ⟨rfl, hd⟩)
    · rintro ⟨hspare, hrest⟩ done hd
      cases done with
      | nil => exact hr
      | cons op' done =>
        obtain ⟨rfl, hdone⟩ := List.cons_prefix_cons.mp hd
        exact (ih hu (hop.mpr hspare)).mpr hrest done hdone

end root

section layers

theorem mem_layers_iff : x ∈ t.layers ↔ t.root = some x ∨ x ∈ t.pinned := by
  simp [layers]

theorem top_of_mem_layers (hp : t.Pins) (hr : t.Rooted) (hx : x ∈ t.layers) :
    t.contains x = true ∧ t.parent? x = none := by
  rcases mem_layers_iff.mp hx with hroot | hpin
  · exact hr x hroot
  · exact ⟨hp.contains x hpin, hp.top x hpin⟩

theorem Pins.nodup_layers (hp : t.Pins) : t.layers.Nodup := by
  unfold layers
  cases hroot : t.root with
  | none => simpa using hp.nodup
  | some r => simpa using ⟨fun hr => hp.not_root r hr hroot, hp.nodup⟩

/-- What is within two widgets is within one of them by way of the other. -/
theorem within_or_within (ha : t.Within x a) (hb : t.Within x b) : t.Within a b ∨ t.Within b a := by
  induction ha using ReflTransGen.head_induction_on with
  | refl => exact .inl hb
  | @head x y hxy hya ih =>
    rcases within_iff.mp hb with rfl | hb
    · exact .inr (hya.head hxy)
    · obtain ⟨z, hz, hzb⟩ := below_iff.mp hb
      obtain rfl : y = z := Option.some.inj (hxy.symm.trans hz)
      exact ih hzb

theorem eq_of_mem_layers (hp : t.Pins) (hr : t.Rooted) (ha : a ∈ t.layers) (hb : b ∈ t.layers)
    (hxa : t.Within x a) (hxb : t.Within x b) : a = b := by
  rcases within_or_within hxa hxb with hab | hba
  · exact eq_of_within (top_of_mem_layers hp hr ha).2 hab
  · exact (eq_of_within (top_of_mem_layers hp hr hb).2 hba).symm

theorem Forest.disjoint_layers (h : t.Forest) (hp : t.Pins) (hr : t.Rooted) :
    t.layers.Pairwise fun a b => (t.descendants a).Disjoint (t.descendants b) := by
  refine hp.nodup_layers.imp_of_mem fun ha hb hne x hxa hxb => hne ?_
  exact eq_of_mem_layers hp hr ha hb (h.mem_descendants_iff.mp hxa).2 (h.mem_descendants_iff.mp hxb).2

theorem Forest.isAttached_iff (h : t.Forest) :
    t.isAttached x = true ↔ ∃ l ∈ t.layers, t.Within x l := by
  simp [isAttached, mem_layers_iff, h.mem_lineage_iff, and_comm]

theorem Forest.isAttached_iff_existsUnique (h : t.Forest) (hp : t.Pins) (hr : t.Rooted) :
    t.isAttached x = true ↔ ∃! l, l ∈ t.layers ∧ x ∈ t.descendants l := by
  rw [h.isAttached_iff]
  constructor
  · rintro ⟨l, hl, hw⟩
    have hx : t.contains x = true := by
      rcases within_iff.mp hw with rfl | hb
      · exact (top_of_mem_layers hp hr hl).1
      · exact hb.contains
    refine ⟨l, ⟨hl, h.mem_descendants_iff.mpr ⟨hx, hw⟩⟩, ?_⟩
    rintro k ⟨hk, hxk⟩
    exact eq_of_mem_layers hp hr hk hl (h.mem_descendants_iff.mp hxk).2 hw
  · rintro ⟨l, ⟨hl, hx⟩, -⟩
    exact ⟨l, hl, (h.mem_descendants_iff.mp hx).2⟩

/-- After any run of operations the pinned widgets are layers; the root is one at all times exactly
if no operation displaced it; and then each widget on show is in one layer only. -/
theorem afterAll_layers (ops : List Operation) :
    let t := ({} : Tree).afterAll ops
    (t.pinned.Nodup ∧
      ∀ id ∈ t.pinned, t.contains id = true ∧ t.parent? id = none ∧ t.root ≠ some id) ∧
    ((∀ done, done <+: ops → (({} : Tree).afterAll done).Rooted) ↔ ({} : Tree).SparesRoot ops) ∧
    (t.Rooted →
      t.layers.Pairwise (fun a b => (t.descendants a).Disjoint (t.descendants b)) ∧
      ∀ x, t.isAttached x = true ↔ ∃! l, l ∈ t.layers ∧ x ∈ t.descendants l) := by
  intro t
  have h : t.Forest := forest_afterAll ops
  have hp : t.Pins := (forest_empty.leads_afterAll ops).pins forest_empty pins_empty
  refine ⟨⟨hp.nodup, fun id hid => ?_⟩, ?_, fun hr => ⟨?_, fun x => ?_⟩⟩
  · exact ⟨hp.contains id hid, hp.top id hid, hp.not_root id hid⟩
  · exact forest_empty.rooted_prefixes_iff rooted_empty ops
  · exact h.disjoint_layers hp hr
  · exact h.isAttached_iff_existsUnique hp hr

/-- A root replaced by a widget that is gone: the tree has a root that is not there. And a root that
is appended to another widget: it is the root and has a parent. -/
theorem root_not_top :
    let gone := ({} : Tree).afterAll [.construct { kind := .tower } ⟨rfl, rfl⟩, .setRoot (some ⟨0⟩),
      .construct { kind := .text } ⟨rfl, rfl⟩, .remove ⟨1⟩, .replace ⟨0⟩ ⟨1⟩]
    let moved := ({} : Tree).afterAll [.construct { kind := .tower } ⟨rfl, rfl⟩, .setRoot (some ⟨0⟩),
      .construct { kind := .tower } ⟨rfl, rfl⟩, .append ⟨1⟩ ⟨0⟩]
    (gone.root = some ⟨1⟩ ∧ gone.contains ⟨1⟩ = false) ∧
      (moved.root = some ⟨0⟩ ∧ moved.parent? ⟨0⟩ = some ⟨1⟩) := by
  decide

end layers

end Hypermedia.Tree
