import Hypermedia.Proofs.Tree.Forest

/-! The steps of a tree on its links: what each leaves, and that forests stay forests. -/
namespace Hypermedia.Tree

open Relation (TransGen ReflTransGen)

variable {t : Tree} {id x y p c a : WidgetId} {i : Nat}

theorem Forest.congr (h : t.Forest) {u : Tree} (hg : ∀ x, u.get? x = t.get? x) : u.Forest := by
  obtain ⟨hp, hc, -, hh⟩ := links_congr hg
  have hl : u.IsChild = t.IsChild := by
    funext c p
    rw [IsChild, IsChild, hp]
  refine ⟨?_, ?_, ?_, ?_⟩
  · rw [hp, hc]
    exact h.mem_children_iff
  · rw [hc]
    exact h.nodup_children
  · rw [Below, hl]
    exact h.acyclic
  · rw [hc, hh]
    exact h.holder

theorem Forest.construct (h : t.Forest) {w : Widget} (hp : w.parent = none)
    (hc : w.children = []) : (t.construct w).2.Forest := by
  have hl : (t.construct w).2.IsChild = t.IsChild := by
    funext c p
    rw [IsChild, IsChild, parent?_construct hp]
  refine ⟨?_, ?_, ?_, ?_⟩
  · intro p c
    rw [parent?_construct hp, children_construct hc, h.mem_children_iff]
  · intro p
    rw [children_construct hc]
    exact h.nodup_children p
  · rw [Below, hl]
    exact h.acyclic
  · intro p hp
    rw [children_construct hc] at hp
    obtain ⟨v, hv⟩ := contains_iff.mp (contains_of_isHolder (h.holder p hp))
    rw [isHolder, get?_construct, if_neg (Nat.ne_of_lt (index_lt_of_get? hv))]
    exact h.holder p hp

section detach

theorem Forest.get?_detach (h : t.Forest) :
    (t.detach id).get? x = (t.get? x).map fun w =>
      (w.withoutChild id).withParent (if x = id then none else w.parent) := by
  cases hw : t.get? x with
  | none =>
    have hc : (t.detach id).contains x = false := by
      rw [contains_detach]
      simp [contains, hw]
    simpa [contains] using hc
  | some w =>
    have hparent : w.parent = t.parent? x := by simp [parent?, hw]
    have hchild : t.parent? id ≠ some x → w.withoutChild id = w := by
      intro hx
      refine Widget.withoutChild_self fun hc => hx ?_
      exact (h.mem_children_iff x id).mp (by simpa [children, hw] using hc)
    cases hp : t.parent? id with
    | none =>
      have htop : (if x = id then none else w.parent) = w.parent := by
        split
        · next he => rw [hparent, he, hp]
        · rfl
      have hkeep := hchild (by simp [hp])
      rw [detach, hp]
      simp only [hw, Option.map_some, htop, hkeep, Widget.withParent_self]
    | some p =>
      have hne := h.ne_parent hp
      rw [detach, hp]
      simp only [get?_modify, hw]
      by_cases hxp : x = p
      · subst hxp
        simp only [if_neg hne, if_true, Option.map_some]
        rfl
      · have hkeep := hchild (by simpa [hp] using fun he : p = x => hxp he.symm)
        simp only [if_neg hxp, Option.map_some, hkeep]
        split_ifs <;> rfl

theorem Forest.parent?_detach (h : t.Forest) :
    (t.detach id).parent? x = if x = id then none else t.parent? x := by
  simp only [parent?, h.get?_detach]
  cases t.get? x <;> simp

theorem Forest.parent?_detach_self (h : t.Forest) : (t.detach id).parent? id = none := by
  rw [h.parent?_detach, if_pos rfl]

theorem Forest.children_detach (h : t.Forest) :
    (t.detach id).children x = (t.children x).filter (· != id) := by
  simp only [children, h.get?_detach]
  cases t.get? x <;> simp

theorem Forest.isHolder_detach (h : t.Forest) : (t.detach id).isHolder x = t.isHolder x := by
  simp only [isHolder, h.get?_detach]
  cases t.get? x <;> rfl

theorem Forest.parent?_of_detach (h : t.Forest) (hp : (t.detach id).parent? c = some p) :
    t.parent? c = some p := by
  rw [h.parent?_detach] at hp
  split at hp
  · simp at hp
  · exact hp

theorem Forest.detach (h : t.Forest) (id : WidgetId) : (t.detach id).Forest := by
  refine ⟨?_, ?_, ?_, ?_⟩
  · intro p c
    rw [h.children_detach, h.parent?_detach, List.mem_filter, h.mem_children_iff]
    by_cases hc : c = id <;> simp [hc]
  · intro p
    rw [h.children_detach]
    exact (h.nodup_children p).filter _
  · intro x hx
    exact h.acyclic x (TransGen.mono (fun c p => h.parent?_of_detach) _ _ hx)
  · intro p hp
    rw [h.isHolder_detach]
    refine h.holder p fun hnil => hp ?_
    simp [h.children_detach, hnil]

theorem Forest.within_detach (h : t.Forest) : (t.detach id).Within x id ↔ t.Within x id := by
  refine ⟨Within.mono fun c p => h.parent?_of_detach, fun hw => ?_⟩
  induction hw using ReflTransGen.head_induction_on with
  | refl => exact ReflTransGen.refl
  | @head x y hxy _ ih =>
    by_cases hx : x = id
    · subst hx
      exact ReflTransGen.refl
    · refine ReflTransGen.head ?_ ih
      rw [IsChild, h.parent?_detach, if_neg hx]
      exact hxy

end detach

section remove

theorem parent?_vacate {ids : List WidgetId} :
    (t.vacate ids).parent? x = if x ∈ ids then none else t.parent? x := by
  simp only [parent?, get?_vacate]
  split <;> rfl

theorem children_vacate {ids : List WidgetId} :
    (t.vacate ids).children x = if x ∈ ids then [] else t.children x := by
  simp only [children, get?_vacate]
  split <;> simp_all

/-- Slots may be emptied where no link crosses the border. -/
theorem Forest.vacate (h : t.Forest) {ids : List WidgetId}
    (hids : ∀ c p, t.parent? c = some p → (c ∈ ids ↔ p ∈ ids)) : (t.vacate ids).Forest := by
  refine ⟨?_, ?_, ?_, ?_⟩
  · intro p c
    rw [children_vacate, parent?_vacate]
    have hpc := h.mem_children_iff p c
    by_cases hp : p ∈ ids <;> by_cases hc : c ∈ ids
    · simp [hp, hc]
    · simpa [hp, hc] using fun hl => hc ((hids c p hl).mpr hp)
    · simpa [hp, hc] using fun hl => hp ((hids c p (hpc.mp hl)).mp hc)
    · simpa [hp, hc] using hpc
  · intro p
    rw [children_vacate]
    split
    · exact List.nodup_nil
    · exact h.nodup_children p
  · intro x hx
    refine h.acyclic x (TransGen.mono (fun c p hl => ?_) _ _ hx)
    rw [IsChild, parent?_vacate] at hl
    split at hl
    · simp at hl
    · exact hl
  · intro p hp
    rw [children_vacate] at hp
    split at hp
    · simp at hp
    · next hids =>
      have hg : (t.vacate ids).get? p = t.get? p := by rw [get?_vacate, if_neg hids]
      simpa [isHolder, hg] using h.holder p hp

/-- The tree of a detached widget without that widget and all below it. -/
def prune (t : Tree) (id : WidgetId) : Tree :=
  (t.detach id).vacate ((t.detach id).descendants id)

theorem Forest.prune (h : t.Forest) (id : WidgetId) : (t.prune id).Forest := by
  have hd := h.detach id
  refine hd.vacate fun c p hp => ?_
  rw [hd.mem_descendants_iff, hd.mem_descendants_iff]
  have hc : c ≠ id := by
    rintro rfl
    simp [h.parent?_detach_self] at hp
  have hw : (t.detach id).Within c id ↔ (t.detach id).Within p id := by
    rw [within_iff, below_iff]
    simp [hc, hp]
  simp [hw, contains_of_parent? hp, hd.contains_parent hp]

open Classical in
theorem Forest.get?_prune (h : t.Forest) :
    (t.prune id).get? x = if t.Within x id then none else (t.detach id).get? x := by
  have hd := h.detach id
  rw [Tree.prune, get?_vacate]
  by_cases hw : t.Within x id
  · rw [if_pos hw]
    split
    · rfl
    · next hx =>
      rw [hd.mem_descendants_iff, h.within_detach] at hx
      simpa [contains, hw] using hx
  · rw [if_neg hw, if_neg]
    rw [hd.mem_descendants_iff, h.within_detach]
    exact fun hx => hw hx.2

theorem get?_remove : (t.remove id).get? x = (t.prune id).get? x := by
  unfold remove
  simp only [get?_unpin]
  split <;> rfl

theorem root_remove : (t.remove id).root = if t.root = some id then none else t.root := by
  unfold remove
  simp only [root_vacate, root_detach, root_unpin]
  split <;> simp_all

theorem pinned_remove : (t.remove id).pinned = t.pinned.filter (· != id) := by
  unfold remove
  simp only [pinned_unpin]
  split <;> simp

@[simp] theorem size_remove : (t.remove id).slots.size = t.slots.size := by
  unfold remove
  simp only [size_unpin]
  split <;> simp

theorem Forest.remove (h : t.Forest) (id : WidgetId) : (t.remove id).Forest :=
  (h.prune id).congr fun _ => get?_remove

theorem Forest.get?_remove_of_within (h : t.Forest) (hw : t.Within x id) :
    (t.remove id).get? x = none := by
  rw [get?_remove, h.get?_prune, if_pos hw]

theorem Forest.get?_remove_of_not_within (h : t.Forest) (hw : ¬ t.Within x id) :
    (t.remove id).get? x = (t.detach id).get? x := by
  rw [get?_remove, h.get?_prune, if_neg hw]

/-- Removing a widget removes what is at it or below it and nothing else. -/
theorem Forest.contains_remove_iff (h : t.Forest) :
    (t.remove id).contains x = true ↔ t.contains x = true ∧ ¬ t.Within x id := by
  by_cases hw : t.Within x id
  · simp [contains, h.get?_remove_of_within hw, hw]
  · have hd : (t.detach id).contains x = t.contains x := contains_detach
    rw [← hd, contains, contains, h.get?_remove_of_not_within hw]
    simp [hw]

theorem Forest.parent?_remove (h : t.Forest) (hw : ¬ t.Within x id) :
    (t.remove id).parent? x = t.parent? x := by
  have hx : x ≠ id := fun he => hw (he ▸ ReflTransGen.refl)
  have hd := @Forest.parent?_detach t id x h
  rw [if_neg hx] at hd
  rw [← hd, parent?, parent?, h.get?_remove_of_not_within hw]

theorem Forest.parent?_of_remove (h : t.Forest) (hp : (t.remove id).parent? c = some p) :
    t.parent? c = some p := by
  have hw : ¬ t.Within c id := (h.contains_remove_iff.mp (contains_of_parent? hp)).2
  rw [h.parent?_remove hw] at hp
  exact hp

theorem Forest.children_remove (h : t.Forest) (hw : ¬ t.Within x id) :
    (t.remove id).children x = (t.children x).filter (· != id) := by
  rw [children, h.get?_remove_of_not_within hw]
  exact h.children_detach

theorem Forest.isHolder_remove (h : t.Forest) (hw : ¬ t.Within x id) :
    (t.remove id).isHolder x = t.isHolder x := by
  rw [← @Forest.isHolder_detach t id x h, isHolder, isHolder, h.get?_remove_of_not_within hw]

/-- A path that stays clear of what is removed is still there. -/
theorem Forest.within_remove (h : t.Forest) (hx : ¬ t.Within x id) :
    (t.remove id).Within x a ↔ t.Within x a := by
  refine ⟨Within.mono fun c p => h.parent?_of_remove, fun hw => ?_⟩
  induction hw using ReflTransGen.head_induction_on with
  | refl => exact ReflTransGen.refl
  | @head x y hxy _ ih =>
    have hy : ¬ t.Within y id := fun hy => hx (hy.head hxy)
    refine ReflTransGen.head ?_ (ih hy)
    rw [IsChild, h.parent?_remove hx]
    exact hxy

theorem Forest.removeAll (h : t.Forest) (ids : List WidgetId) : (t.removeAll ids).Forest := by
  induction ids generalizing t with
  | nil => exact h
  | cons id ids ih => exact ih (h.remove id)

@[simp] theorem size_removeAll {ids : List WidgetId} :
    (t.removeAll ids).slots.size = t.slots.size := by
  induction ids generalizing t with
  | nil => rfl
  | cons id ids ih => exact ih.trans size_remove

end remove

section insert

/-- Whether `p` may take `c`: `p` holds widgets, and `c` is there and not around `p`. -/
def Admits (t : Tree) (p c : WidgetId) : Prop :=
  t.isHolder p = true ∧ t.contains c = true ∧ ¬ t.Within p c

theorem Forest.checkInsert_eq_ok_iff (h : t.Forest) :
    t.checkInsert p c = .ok () ↔ t.Admits p c := by
  rw [Admits, ← h.mem_lineage_iff, isHolder, contains, checkInsert, widget, widget]
  cases t.get? p with
  | none => simp [bind, Except.bind]
  | some w =>
    cases t.get? c with
    | none => cases hw : w.isContainer <;> simp [bind, Except.bind, hw, throw, throwThe, MonadExceptOf.throw]
    | some v =>
      cases hw : w.isContainer <;> by_cases hl : c ∈ t.lineage p <;>
        simp [bind, Except.bind, hw, hl, throw, throwThe, MonadExceptOf.throw, pure, Except.pure]

theorem widget_of_contains (hx : t.contains x = true) : ∃ w, t.widget x = .ok w := by
  obtain ⟨w, hw⟩ := contains_iff.mp hx
  exact ⟨w, widget_eq_ok.mpr hw⟩

theorem link_of_contains (hp : t.contains p = true) (hc : t.contains c = true) :
    t.link p i c =
      (.ok (), (t.modify p (·.withChild i c)).modify c (·.withParent (some p))) := by
  obtain ⟨w, hw⟩ := widget_of_contains hp
  have hc' : (t.modify p (·.withChild i c)).contains c = true := by rw [contains_modify, hc]
  obtain ⟨v, hv⟩ := widget_of_contains hc'
  rw [link, hw]
  simp only [hv]

theorem get?_link (hp : t.contains p = true) (hc : t.contains c = true) :
    (t.link p i c).2.get? x = (t.get? x).map fun w =>
      (if x = p then w.withChild i c else w).withParent (if x = c then some p else w.parent) := by
  rw [link_of_contains hp hc, get?_modify, get?_modify]
  cases t.get? x with
  | none => simp
  | some w =>
    by_cases hxc : x = c
    · subst hxc
      by_cases hxp : x = p <;> simp [hxp]
    · by_cases hxp : x = p
      · simp only [if_pos hxp, if_neg hxc, Option.map_some]
        rfl
      · simp only [if_neg hxp, if_neg hxc, Option.map_some, Widget.withParent_self]

@[simp] theorem root_link : (t.link p i c).2.root = t.root := by
  unfold link
  split
  · rfl
  · dsimp only
    split <;> rfl

@[simp] theorem pinned_link : (t.link p i c).2.pinned = t.pinned := by
  unfold link
  split
  · rfl
  · dsimp only
    split <;> rfl

@[simp] theorem size_link : (t.link p i c).2.slots.size = t.slots.size := by
  unfold link
  split
  · rfl
  · dsimp only
    split <;> simp

@[simp] theorem contains_link : (t.link p i c).2.contains x = t.contains x := by
  unfold link
  split
  · rfl
  · dsimp only
    split <;> simp

/-- Only a check refuses an insertion, and then nothing has changed. -/
theorem Forest.insert_of_not_admits (h : t.Forest) (ha : ¬ t.Admits p c) :
    ∃ e, t.insert p i c = (.error e, t) := by
  cases hcheck : t.checkInsert p c with
  | error e => exact ⟨e, by rw [insert, hcheck]⟩
  | ok u => exact absurd (h.checkInsert_eq_ok_iff.mp hcheck) ha

theorem Forest.insert_of_admits (h : t.Forest) (ha : t.Admits p c) :
    t.insert p i c = ((t.detach c).unpin c).link p i c := by
  rw [insert, h.checkInsert_eq_ok_iff.mpr ha]

theorem Admits.contains_detach (ha : t.Admits p c) :
    ((t.detach c).unpin c).contains p = true ∧ ((t.detach c).unpin c).contains c = true := by
  rw [contains_unpin, contains_unpin, Tree.contains_detach, Tree.contains_detach]
  exact ⟨contains_of_isHolder ha.1, ha.2.1⟩

theorem Forest.insert_ok_iff (h : t.Forest) : (t.insert p i c).1 = .ok () ↔ t.Admits p c := by
  by_cases ha : t.Admits p c
  · rw [h.insert_of_admits ha, link_of_contains ha.contains_detach.1 ha.contains_detach.2]
    simp [ha]
  · obtain ⟨e, he⟩ := h.insert_of_not_admits (i := i) ha
    simp [he, ha]

theorem Forest.get?_insert (h : t.Forest) (ha : t.Admits p c) :
    (t.insert p i c).2.get? x = (t.get? x).map fun w =>
      (if x = p then (w.withoutChild c).withChild i c else w.withoutChild c).withParent
        (if x = c then some p else w.parent) := by
  rw [h.insert_of_admits ha, get?_link ha.contains_detach.1 ha.contains_detach.2, get?_unpin,
    h.get?_detach, Option.map_map]
  congr 1
  funext w
  simp only [Function.comp_apply]
  split_ifs <;> rfl

theorem Forest.parent?_insert (h : t.Forest) (ha : t.Admits p c) :
    (t.insert p i c).2.parent? x = if x = c then some p else t.parent? x := by
  rw [parent?, h.get?_insert ha, parent?]
  cases hx : t.get? x with
  | none =>
    have hne : x ≠ c := by
      rintro rfl
      simpa [contains, hx] using ha.2.1
    simp [hne]
  | some w => simp

theorem Forest.children_insert (h : t.Forest) (ha : t.Admits p c) :
    (t.insert p i c).2.children x =
      if x = p then
        ((t.children x).filter (· != c)).take i ++ c :: ((t.children x).filter (· != c)).drop i
      else (t.children x).filter (· != c) := by
  rw [children, h.get?_insert ha, children]
  cases hx : t.get? x with
  | none =>
    have hne : x ≠ p := by
      rintro rfl
      simpa [isHolder, hx] using ha.1
    simp [hne]
  | some w => by_cases hxp : x = p <;> simp [hxp]

@[simp] theorem root_insert : (t.insert p i c).2.root = t.root := by
  unfold insert
  split <;> simp

@[simp] theorem size_insert : (t.insert p i c).2.slots.size = t.slots.size := by
  unfold insert
  split <;> simp

@[simp] theorem contains_insert : (t.insert p i c).2.contains x = t.contains x := by
  unfold insert
  split
  · rfl
  · rw [contains_link, contains_unpin, contains_detach]

theorem Forest.pinned_insert (h : t.Forest) (ha : t.Admits p c) :
    (t.insert p i c).2.pinned = t.pinned.filter (· != c) := by
  rw [h.insert_of_admits ha, pinned_link, pinned_unpin, pinned_detach]

theorem Forest.isHolder_insert (h : t.Forest) (ha : t.Admits p c) :
    (t.insert p i c).2.isHolder x = t.isHolder x := by
  rw [isHolder, h.get?_insert ha, isHolder]
  cases t.get? x with
  | none => rfl
  | some w => by_cases hxp : x = p <;> simp [hxp]

private theorem mem_splice {d : WidgetId} {l : List WidgetId} (hd : d ≠ c) :
    d ∈ l.take i ++ c :: l.drop i ↔ d ∈ l := by
  calc d ∈ l.take i ++ c :: l.drop i
      ↔ d ∈ l.take i ++ l.drop i := by
        simp only [List.mem_append, List.mem_cons, hd, false_or]
    _ ↔ d ∈ l := by rw [List.take_append_drop]

/-- A path through the new link goes from below the child to above the parent. -/
theorem Forest.below_insert (h : t.Forest) (ha : t.Admits p c)
    (hb : (t.insert p i c).2.Below x y) : t.Below x y ∨ t.Within x c ∧ t.Within p y := by
  have hstep : ∀ {a b}, (t.insert p i c).2.IsChild a b → a = c ∧ b = p ∨ t.IsChild a b := by
    intro a b hab
    rw [IsChild, h.parent?_insert ha] at hab
    split at hab
    · next hac => exact .inl ⟨hac, (Option.some.inj hab).symm⟩
    · exact .inr hab
  induction hb with
  | single hxy =>
    rcases hstep hxy with ⟨rfl, rfl⟩ | hl
    · exact .inr ⟨ReflTransGen.refl, ReflTransGen.refl⟩
    · exact .inl (TransGen.single hl)
  | tail _ hyz ih =>
    rcases hstep hyz with ⟨rfl, rfl⟩ | hl
    · rcases ih with hb | ⟨-, hw⟩
      · exact .inr ⟨hb.within, ReflTransGen.refl⟩
      · exact absurd hw ha.2.2
    · rcases ih with hb | ⟨hx, hw⟩
      · exact .inl (hb.tail hl)
      · exact .inr ⟨hx, hw.tail hl⟩

theorem Forest.insert (h : t.Forest) (p : WidgetId) (i : Nat) (c : WidgetId) :
    (t.insert p i c).2.Forest := by
  by_cases ha : t.Admits p c
  case neg =>
    obtain ⟨e, he⟩ := h.insert_of_not_admits (i := i) ha
    rw [he]
    exact h
  refine ⟨?_, ?_, ?_, ?_⟩
  · intro q d
    have hq := h.mem_children_iff q d
    rw [h.children_insert ha, h.parent?_insert ha]
    by_cases hd : d = c
    · subst hd
      by_cases hqp : q = p
      · simp [hqp]
      · simp [hqp, Ne.symm hqp]
    · by_cases hqp : q = p
      · rw [if_pos hqp, if_neg hd, mem_splice hd, ← hq]
        simp [hd]
      · simp [hqp, hd, hq]
  · intro q
    have hq := (h.nodup_children q).filter (· != c)
    rw [h.children_insert ha]
    split
    · have hc : c ∉ (t.children q).filter (· != c) := by simp
      rw [List.nodup_middle, List.take_append_drop, List.nodup_cons]
      exact ⟨hc, hq⟩
    · exact hq
  · intro x hx
    rcases h.below_insert ha hx with hb | ⟨hxc, hpx⟩
    · exact h.acyclic x hb
    · exact ha.2.2 (hpx.trans hxc)
  · intro q hq
    rw [h.isHolder_insert ha]
    by_cases hqp : q = p
    · exact hqp ▸ ha.1
    · refine h.holder q fun hnil => hq ?_
      rw [h.children_insert ha]
      simp [hqp, hnil]

end insert

end Hypermedia.Tree
