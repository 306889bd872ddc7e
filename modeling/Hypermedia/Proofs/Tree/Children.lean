import Hypermedia.Proofs.Tree.Edits
import Mathlib.Data.List.Dedup
import Mathlib.Data.List.TakeWhile

/-! The children of a widget set anew: which widgets go, which come, and where it stops. -/
namespace Hypermedia.Tree

open Relation (TransGen ReflTransGen)

variable {t u v : Tree} {x p c d a : WidgetId} {ids cs : List WidgetId}

section removeAll

private theorem filter_ne_filter (l : List WidgetId) :
    (l.filter (· != c)).filter (· ∉ cs) = l.filter (· ∉ c :: cs) := by
  rw [List.filter_filter]
  congr 1
  funext x
  by_cases hx : x ∈ cs <;> by_cases hc : x = c <;> simp [hx, hc]

theorem Forest.contains_removeAll_iff (h : t.Forest) :
    (t.removeAll ids).contains x = true ↔
      t.contains x = true ∧ ∀ id ∈ ids, ¬ t.Within x id := by
  induction ids generalizing t with
  | nil => exact ⟨fun hx => ⟨hx, by simp⟩, fun hx => hx.1⟩
  | cons id ids ih =>
    have hr := ih (h.remove id)
    rw [h.contains_remove_iff] at hr
    rw [show t.removeAll (id :: ids) = (t.remove id).removeAll ids from rfl, hr, List.forall_mem_cons]
    constructor
    · rintro ⟨⟨hx, hid⟩, hids⟩
      exact ⟨hx, hid, fun j hj hw => hids j hj ((h.within_remove hid).mpr hw)⟩
    · rintro ⟨hx, hid, hids⟩
      exact ⟨⟨hx, hid⟩, fun j hj hw => hids j hj ((h.within_remove hid).mp hw)⟩

/-- What holds of a widget clear of one removal and of the rest holds after all of them. -/
private theorem Forest.clear_remove (h : t.Forest) {id : WidgetId}
    (hx : ∀ j ∈ id :: ids, ¬ t.Within x j) :
    ¬ t.Within x id ∧ ∀ j ∈ ids, ¬ (t.remove id).Within x j := by
  obtain ⟨hid, hids⟩ := List.forall_mem_cons.mp hx
  exact ⟨hid, fun j hj hw => hids j hj ((h.within_remove hid).mp hw)⟩

theorem Forest.within_removeAll (h : t.Forest) (hx : ∀ id ∈ ids, ¬ t.Within x id) :
    (t.removeAll ids).Within x a ↔ t.Within x a := by
  induction ids generalizing t with
  | nil => rfl
  | cons id ids ih =>
    obtain ⟨hid, hids⟩ := h.clear_remove hx
    exact (ih (h.remove id) hids).trans (h.within_remove hid)

theorem Forest.isHolder_removeAll (h : t.Forest) (hx : ∀ id ∈ ids, ¬ t.Within x id) :
    (t.removeAll ids).isHolder x = t.isHolder x := by
  induction ids generalizing t with
  | nil => rfl
  | cons id ids ih =>
    obtain ⟨hid, hids⟩ := h.clear_remove hx
    exact (ih (h.remove id) hids).trans (h.isHolder_remove hid)

theorem root_removeAll (hr : ∀ id ∈ ids, t.root ≠ some id) : (t.removeAll ids).root = t.root := by
  induction ids generalizing t with
  | nil => rfl
  | cons id ids ih =>
    obtain ⟨hid, hids⟩ := List.forall_mem_cons.mp hr
    have hroot : (t.remove id).root = t.root := by rw [root_remove, if_neg hid]
    exact (ih (by rwa [hroot])).trans hroot

theorem pinned_removeAll : (t.removeAll ids).pinned = t.pinned.filter (· ∉ ids) := by
  induction ids generalizing t with
  | nil => simp [removeAll]
  | cons id ids ih =>
    rw [show t.removeAll (id :: ids) = (t.remove id).removeAll ids from rfl, ih, pinned_remove,
      filter_ne_filter]

/-- A widget clear of all removals loses the children that are removed and nothing else. -/
theorem Forest.get?_removeAll (h : t.Forest) (hx : ∀ id ∈ ids, ¬ t.Within x id) :
    (t.removeAll ids).get? x =
      (t.get? x).map fun v => { v with children := v.children.filter (· ∉ ids) } := by
  induction ids generalizing t with
  | nil => simp [Tree.removeAll]
  | cons id ids ih =>
    obtain ⟨hid, hids⟩ := h.clear_remove hx
    have hne : x ≠ id := fun he => hid (he ▸ ReflTransGen.refl)
    rw [show t.removeAll (id :: ids) = (t.remove id).removeAll ids from rfl, ih (h.remove id) hids,
      h.get?_remove_of_not_within hid, h.get?_detach, Option.map_map]
    simp only [if_neg hne]
    congr 1
    funext v
    exact congrArg (fun cs => { v with children := cs }) (filter_ne_filter v.children)

theorem Forest.parent?_removeAll (h : t.Forest) (hx : ∀ id ∈ ids, ¬ t.Within x id) :
    (t.removeAll ids).parent? x = t.parent? x := by
  rw [parent?, parent?, h.get?_removeAll hx]
  cases t.get? x <;> rfl

theorem Forest.children_removeAll (h : t.Forest) (hx : ∀ id ∈ ids, ¬ t.Within x id) :
    (t.removeAll ids).children x = (t.children x).filter (· ∉ ids) := by
  rw [children, children, h.get?_removeAll hx]
  cases t.get? x <;> rfl

end removeAll

section appendAll

/-- Nothing moves above the widget that takes a child. -/
theorem Forest.within_insert (h : t.Forest) {i : Nat} (ha : t.Admits p c) :
    (t.insert p i c).2.Within p a ↔ t.Within p a := by
  constructor
  · intro hw
    rcases within_iff.mp hw with rfl | hb
    · exact ReflTransGen.refl
    · rcases h.below_insert ha hb with hb | ⟨hpc, -⟩
      · exact hb.within
      · exact absurd hpc ha.2.2
  · intro hw
    suffices hup : ∀ x, t.Within p x → t.Within x a → (t.insert p i c).2.Within x a from
      hup p ReflTransGen.refl hw
    intro x hpx hxa
    induction hxa using ReflTransGen.head_induction_on with
    | refl => exact ReflTransGen.refl
    | @head x y hxy _ ih =>
      have hne : x ≠ c := fun he => ha.2.2 (he ▸ hpx)
      refine ReflTransGen.head ?_ (ih (hpx.tail hxy))
      rw [IsChild, h.parent?_insert ha, if_neg hne]
      exact hxy

theorem Forest.admits_insert (h : t.Forest) {i : Nat} (ha : t.Admits p c) :
    (t.insert p i c).2.Admits p d ↔ t.Admits p d := by
  rw [Admits, Admits, h.isHolder_insert ha, contains_insert, h.within_insert ha]

/-- `u` has the widgets of `t`, but for their links. -/
def Relinks (t u : Tree) : Prop :=
  ∀ x, u.get? x = (t.get? x).map fun w =>
    { w with parent := u.parent? x, children := u.children x }

theorem Forest.relinks_insert (h : t.Forest) {i : Nat} (ha : t.Admits p c) :
    Relinks t (t.insert p i c).2 := by
  intro x
  have hg := h.get?_insert (i := i) (x := x) ha
  cases hx : t.get? x with
  | none => simpa [hx] using hg
  | some w =>
    rw [hx, Option.map_some] at hg
    simp only [parent?, children, hg, Option.map_some, Option.bind_some]
    split_ifs <;> rfl

theorem Forest.relinks_detach (h : t.Forest) : Relinks t (t.detach c) := by
  intro x
  have hg := @Forest.get?_detach t c x h
  cases hx : t.get? x with
  | none => simpa [hx] using hg
  | some w =>
    rw [hx, Option.map_some] at hg
    simp only [parent?, children, hg, Option.map_some, Option.bind_some]
    rfl

theorem Relinks.trans (h : Relinks t u) (k : Relinks u v) : Relinks t v := by
  intro x
  rw [k x, h x]
  cases t.get? x <;> rfl

/-- `u` is `t` with `cs` moved to the end of the children of `p`. -/
structure Appended (t : Tree) (p : WidgetId) (cs : List WidgetId) (u : Tree) : Prop where
  size : u.slots.size = t.slots.size
  root : u.root = t.root
  pinned : u.pinned = t.pinned.filter (· ∉ cs)
  contains : ∀ x, u.contains x = t.contains x
  parent? : ∀ x, u.parent? x = if x ∈ cs then some p else t.parent? x
  children : ∀ x, u.children x =
    (t.children x).filter (· ∉ cs) ++ if x = p then cs.dedup else []
  relinks : Relinks t u

theorem Appended.nil (t : Tree) (p : WidgetId) : Appended t p [] t where
  size := rfl
  root := rfl
  pinned := by simp
  contains _ := rfl
  parent? _ := by simp
  children _ := by simp
  relinks x := by
    cases hx : t.get? x with
    | none => rfl
    | some w => simp [Tree.parent?, Tree.children, hx]

theorem Forest.appended_append (h : t.Forest) (ha : t.Admits p c)
    (hu : Appended (t.append p c).2 p cs u) : Appended t p (c :: cs) u where
  size := hu.size.trans size_insert
  root := hu.root.trans root_insert
  pinned := by
    rw [hu.pinned, append, h.pinned_insert ha]
    exact filter_ne_filter _
  contains x := (hu.contains x).trans contains_insert
  parent? x := by
    rw [hu.parent?, append, h.parent?_insert ha]
    by_cases hx : x ∈ cs <;> by_cases hc : x = c <;> simp [hx, hc]
  children x := by
    have hlen : ((t.children p).filter (· != c)).length ≤ (t.children p).length :=
      List.length_filter_le _ _
    rw [hu.children, append, h.children_insert ha]
    by_cases hx : x = p
    · subst hx
      rw [if_pos rfl, if_pos rfl, if_pos rfl, List.take_of_length_le hlen,
        List.drop_eq_nil_of_le hlen, List.filter_append, filter_ne_filter, List.append_assoc]
      by_cases hc : c ∈ cs
      · simp [hc]
      · simp [hc]
    · rw [if_neg hx, if_neg hx, if_neg hx, filter_ne_filter]
  relinks := (h.relinks_insert ha).trans hu.relinks

theorem Forest.append_of_admits (h : t.Forest) (ha : t.Admits p c) :
    t.append p c = (.ok (), (t.append p c).2) :=
  Prod.ext (h.insert_ok_iff.mpr ha) rfl

theorem append_of_missing (hp : t.isHolder p = true) (hc : t.contains c = false) :
    t.append p c = (.error (.detached c.index), t) := by
  obtain ⟨v, hv⟩ := contains_iff.mp (contains_of_isHolder hp)
  have hholder : v.isContainer = true := by simpa [isHolder, hv] using hp
  have hnone : t.get? c = none := by simpa [contains] using hc
  simp [append, insert, checkInsert, widget, hv, hholder, hnone, bind, Except.bind]

theorem Forest.appended_appendAll (h : t.Forest) (hcs : ∀ c ∈ cs, t.Admits p c) :
    Appended t p cs (t.appendAll p cs).2 := by
  induction cs generalizing t with
  | nil => exact Appended.nil t p
  | cons c cs ih =>
    obtain ⟨hc, hcs⟩ := List.forall_mem_cons.mp hcs
    have hrest : Appended (t.append p c).2 p cs ((t.append p c).2.appendAll p cs).2 :=
      ih (h.insert p _ c) fun d hd => (h.admits_insert hc).mpr (hcs d hd)
    rw [appendAll, h.append_of_admits hc]
    exact h.appended_append hc hrest

/-- Appending stops before the first widget that the parent may not take. -/
theorem Forest.appendAll_takeWhile (h : t.Forest) {admits : WidgetId → Bool}
    (hf : ∀ c, admits c = true ↔ t.Admits p c) :
    (t.appendAll p cs).2 = (t.appendAll p (cs.takeWhile admits)).2 ∧
      ((t.appendAll p cs).1 = .ok () ↔ ∀ c ∈ cs, admits c = true) := by
  induction cs generalizing t with
  | nil => simp [appendAll]
  | cons c cs ih =>
    cases hc : admits c with
    | true =>
      have hadm := (hf c).mp hc
      have hrest := ih (h.insert p (t.children p).length c) fun d =>
        (hf d).trans (h.admits_insert hadm).symm
      rw [List.takeWhile_cons_of_pos hc, appendAll, appendAll, h.append_of_admits hadm]
      simpa [hc, append] using hrest
    | false =>
      have hadm : ¬ t.Admits p c := fun ha => by simp [(hf c).mpr ha] at hc
      obtain ⟨e, he⟩ := h.insert_of_not_admits (i := (t.children p).length) hadm
      have he : t.append p c = (.error e, t) := he
      rw [List.takeWhile_cons_of_neg (by simp [hc]), appendAll, appendAll, he]
      simp [hc]

end appendAll

section setChildren

/-- Whether `p` can take `c` once its children other than `cs` are gone. -/
def adopts (t : Tree) (p : WidgetId) (cs : List WidgetId) (c : WidgetId) : Bool :=
  t.isHolder p && t.contains c && !(t.lineage p).contains c &&
    (t.dropped p cs).all fun old => !(t.lineage c).contains old

/-- The widgets that become children of `p` before the first that cannot. -/
def adopted (t : Tree) (p : WidgetId) (cs : List WidgetId) : List WidgetId :=
  cs.takeWhile (t.adopts p cs)

theorem mem_dropped_iff : x ∈ t.dropped p cs ↔ x ∈ t.children p ∧ x ∉ cs := by
  simp [dropped]

theorem Forest.parent?_of_mem_dropped (h : t.Forest) (hx : x ∈ t.dropped p cs) :
    t.parent? x = some p :=
  (h.mem_children_iff p x).mp (mem_dropped_iff.mp hx).1

theorem Forest.not_within_dropped (h : t.Forest) : ∀ old ∈ t.dropped p cs, ¬ t.Within p old :=
  fun old hold hw => h.acyclic old (TransGen.head' (h.parent?_of_mem_dropped hold) hw)

theorem Forest.adopts_iff (h : t.Forest) {c : WidgetId} :
    t.adopts p cs c = true ↔ (t.removeAll (t.dropped p cs)).Admits p c := by
  rw [Admits, h.isHolder_removeAll h.not_within_dropped, h.contains_removeAll_iff,
    h.within_removeAll h.not_within_dropped, adopts]
  simp [h.mem_lineage_iff, and_assoc, and_left_comm, and_comm]

theorem setChildren_of_isHolder (hp : t.isHolder p = true) :
    t.setChildren p cs = (t.removeAll (t.dropped p cs)).appendAll p cs := by
  obtain ⟨w, hw⟩ := contains_iff.mp (contains_of_isHolder hp)
  have hc : w.isContainer = true := by simpa [isHolder, hw] using hp
  simp [setChildren, widget_eq_ok.mpr hw, hc]

theorem setChildren_of_not_isHolder (cs : List WidgetId) (hp : t.isHolder p = false) :
    ∃ e, t.setChildren p cs = (.error e, t) := by
  unfold setChildren
  split
  · exact ⟨_, rfl⟩
  · next w hw =>
    have hc : w.isContainer = false := by simpa [isHolder, widget_eq_ok.mp hw] using hp
    simp [hc]

theorem Forest.appended_setChildren (h : t.Forest) (cs : List WidgetId) (hp : t.isHolder p = true) :
    Appended (t.removeAll (t.dropped p cs)) p (t.adopted p cs) (t.setChildren p cs).2 := by
  have hr := h.removeAll (t.dropped p cs)
  rw [setChildren_of_isHolder hp, (hr.appendAll_takeWhile fun c => h.adopts_iff).1]
  refine hr.appended_appendAll fun c hc => h.adopts_iff.mp ?_
  exact List.mem_takeWhile_imp hc

theorem Forest.setChildren_ok_iff (h : t.Forest) (hp : t.isHolder p = true) :
    (t.setChildren p cs).1 = .ok () ↔ ∀ c ∈ cs, t.adopts p cs c = true := by
  rw [setChildren_of_isHolder hp]
  exact ((h.removeAll _).appendAll_takeWhile fun c => h.adopts_iff).2

end setChildren

end Hypermedia.Tree
