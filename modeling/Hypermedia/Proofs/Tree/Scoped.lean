import Hypermedia.Proofs.Tree.Scripted

/-! The scopes of widgets: no operation of a tree gives a widget a scope that it did not have. -/
namespace Hypermedia

namespace Tree

variable {t u v : Tree} {id x p c : WidgetId} {s : ScopeId} {i : Nat} {f : Widget → Widget}

/-- The scope of a widget, if it has one. -/
def scope? (t : Tree) (x : WidgetId) : Option ScopeId :=
  (t.get? x).bind (·.scope)

/-- `u` can come after `t` with no widget given a scope: it is a forest again, and what has a scope in it
had the same one in `t`. -/
structure Sheds (t u : Tree) : Prop where
  forest : t.Forest → u.Forest
  scope? : ∀ x s, u.scope? x = some s → t.scope? x = some s

theorem Sheds.refl (t : Tree) : t.Sheds t :=
  ⟨id, fun _ _ h => h⟩

theorem Sheds.trans (h : t.Sheds u) (k : u.Sheds v) : t.Sheds v :=
  ⟨fun ht => k.forest (h.forest ht), fun x s hx => h.scope? x s (k.scope? x s hx)⟩

/-- The nearest widget around `x` that has a scope, and that scope. -/
structure NearestScope (t : Tree) (x a : WidgetId) (s : ScopeId) : Prop where
  below : t.Below x a
  scope : t.scope? a = some s
  bare : ∀ b, t.Below x b → t.Below b a → t.scope? b = none

theorem contains_of_scope? (h : t.scope? x = some s) : t.contains x = true := by
  obtain ⟨w, hw, -⟩ := Option.bind_eq_some_iff.mp h
  exact contains_iff.mpr ⟨w, hw⟩

section around

theorem pairwise_chain {n : Nat} : ∀ {x}, (t.chain n (t.parent? x)).Pairwise t.Below := by
  induction n with
  | zero => exact .nil
  | succ n ih =>
    intro x
    cases hp : t.parent? x with
    | none => exact .nil
    | some p => exact List.pairwise_cons.mpr ⟨fun a ha => below_of_mem_chain ha, ih⟩

theorem Forest.exists_nearestScope_iff (h : t.Forest) :
    (∃ a, t.NearestScope x a s) ↔ (t.ancestors x).findSome? t.scope? = some s := by
  rw [List.findSome?_eq_some_iff]
  constructor
  · rintro ⟨a, hbelow, hscope, hbare⟩
    obtain ⟨inner, outer, heq⟩ := List.append_of_mem (h.mem_ancestors_iff.mpr hbelow)
    refine ⟨inner, a, outer, heq, hscope, fun b hb => hbare b ?_ ?_⟩
    · exact h.mem_ancestors_iff.mp (heq ▸ List.mem_append_left _ hb)
    · have hpairwise : (inner ++ a :: outer).Pairwise t.Below := heq ▸ pairwise_chain
      exact (List.pairwise_append.mp hpairwise).2.2 b hb a List.mem_cons_self
  · rintro ⟨inner, a, outer, heq, hscope, hbare⟩
    have hpairwise : (inner ++ a :: outer).Pairwise t.Below := heq ▸ pairwise_chain
    have hmem {b : WidgetId} : b ∈ inner ++ a :: outer ↔ t.Below x b := by
      rw [← heq, h.mem_ancestors_iff]
    refine ⟨a, hmem.mp (by simp), hscope, fun b hxb hba => ?_⟩
    rcases List.mem_append.mp (hmem.mpr hxb) with hb | hb
    · exact hbare b hb
    · -- what comes later in the chain is not below `a`
      have hwithin : t.Within a b := by
        rcases List.mem_cons.mp hb with rfl | hb
        · exact .refl
        · exact ((List.pairwise_cons.mp (List.pairwise_append.mp hpairwise).2.1).1 b hb).within
      exact absurd hwithin (h.not_within_of_below hba)

theorem Forest.bare_iff (h : t.Forest) :
    (∀ a, t.Below x a → t.scope? a = none) ↔ (t.ancestors x).findSome? t.scope? = none := by
  simp [List.findSome?_eq_none_iff, h.mem_ancestors_iff]

end around

section steps

theorem scope?_modify (hf : ∀ w, t.get? id = some w → (f w).scope = w.scope) :
    (t.modify id f).scope? x = t.scope? x := by
  rw [scope?, scope?, get?_modify]
  split
  · next hx =>
    subst hx
    cases hw : t.get? x with
    | none => rfl
    | some w => exact hf w hw
  · rfl

theorem scope?_detach : (t.detach id).scope? x = t.scope? x := by
  unfold detach
  split
  · rfl
  · next parent _ =>
    have hparent : (t.modify parent (·.withoutChild id)).scope? x = t.scope? x :=
      scope?_modify fun _ _ => rfl
    refine Eq.trans ?_ hparent
    exact scope?_modify fun _ _ => rfl

theorem scope?_of_remove (h : (t.remove id).scope? x = some s) : t.scope? x = some s := by
  rw [scope?, get?_remove, prune, get?_vacate] at h
  split at h
  · cases h
  · exact scope?_detach.symm.trans h

theorem scope?_link : (t.link p i c).2.scope? x = t.scope? x := by
  unfold link
  split
  · rfl
  · dsimp only
    have hparent : (t.modify p (·.withChild i c)).scope? x = t.scope? x := scope?_modify fun _ _ => rfl
    split
    · exact hparent
    · refine Eq.trans ?_ hparent
      exact scope?_modify fun _ _ => rfl

theorem scope?_insert : (t.insert p i c).2.scope? x = t.scope? x := by
  unfold insert
  split
  · rfl
  · exact scope?_link.trans scope?_detach

/-- A step gives no scope to what has a place. -/
theorem Step.scope? (hs : Step t u) (hx : ¬ t.Unused x) (h : u.scope? x = some s) :
    t.scope? x = some s := by
  cases hs with
  | construct =>
    have hne : x.index ≠ t.slots.size := fun heq => hx (Nat.le_of_eq heq.symm)
    rwa [Tree.scope?, get?_construct, if_neg hne] at h
  | detach id => exact scope?_detach.symm.trans h
  | remove id => exact scope?_of_remove h
  | insert p i c => exact scope?_insert.symm.trans h
  | unpin id => exact h
  | unpinAll => exact h
  | pin => exact h
  | dropRoot => exact h
  | raise => exact h

theorem Leads.scope? (hs : Leads t u) (hx : ¬ t.Unused x) (h : u.scope? x = some s) :
    t.scope? x = some s := by
  induction hs with
  | refl => exact h
  | tail hs hstep ih =>
    have hmid : ¬ Unused _ x := fun hmid => hx (hmid.of_size_le (Leads.later hs).size_le)
    exact ih (hstep.scope? hmid h)

/-- Steps that add no place give no widget a scope. -/
theorem Leads.sheds (hs : Leads t u) (hsize : u.slots.size = t.slots.size) : t.Sheds u where
  forest := hs.forest
  scope? x s h := by
    have hu : ¬ u.Unused x := not_unused_of_contains (contains_of_scope? h)
    exact hs.scope? (fun ht => hu (ht.of_size_le (Nat.le_of_eq hsize))) h

end steps

section sizes

@[simp] theorem size_appendAll {cs : List WidgetId} :
    (t.appendAll p cs).2.slots.size = t.slots.size := by
  induction cs generalizing t with
  | nil => rfl
  | cons c cs ih =>
    have hc : (t.append p c).2.slots.size = t.slots.size := size_insert
    rw [appendAll]
    split
    · next u hu =>
      rw [hu] at hc
      exact ih.trans hc
    · next e u hu =>
      rw [hu] at hc
      exact hc

@[simp] theorem size_setChildren {cs : List WidgetId} :
    (t.setChildren p cs).2.slots.size = t.slots.size := by
  unfold setChildren
  split
  · rfl
  · split
    · rfl
    · simp

@[simp] theorem size_setRoot {root : Option WidgetId} :
    (t.setRoot root).slots.size = t.slots.size := by
  have hroot (t : Tree) : (t.removeRootUnless root).slots.size = t.slots.size := by
    obtain ⟨-, heq⟩ | ⟨old, -, -, heq⟩ := t.removeRootUnless_outcomes root <;> rw [heq]
    exact size_remove
  cases root with
  | none => exact hroot t
  | some new => simpa [setRoot] using hroot ((t.detach new).unpin new)

@[simp] theorem size_replace {target new : WidgetId} :
    (t.replace target new).2.slots.size = t.slots.size := by
  unfold replace
  split
  · rfl
  split
  · simp
  split
  · rfl
  · dsimp only
    split <;> simp

@[simp] theorem size_placeBeside {target : WidgetId} {offset : Nat} :
    (t.placeBeside id target offset).2.slots.size = t.slots.size := by
  unfold placeBeside
  split
  · rfl
  · dsimp only
    split <;> simp

@[simp] theorem size_place {target : WidgetId} {edit : Edit} :
    (t.place id target edit).2.slots.size = t.slots.size := by
  cases edit <;> simp [place, append]

@[simp] theorem size_dismiss : (t.dismiss id).2.slots.size = t.slots.size := by
  unfold dismiss
  split <;> simp

end sizes

section operations

theorem sheds_modify (hf : ∀ w, t.get? id = some w → (f w).SameBonds w) : t.Sheds (t.modify id f) where
  forest h := Forest.modify (fun w hw => (hf w hw).1) h
  scope? x s h := by rwa [scope?_modify fun w hw => (hf w hw).2] at h

theorem sheds_construct {w : Widget} {kind : Widget.Kind} (hw : w.SameBonds { kind }) :
    t.Sheds (t.construct w).2 where
  forest h := h.construct hw.1.1 hw.1.2.1
  scope? x s h := by
    rw [Tree.scope?, get?_construct] at h
    split at h
    · cases hw.2.symm.trans h
    · exact h

theorem sheds_removeAll (t : Tree) (ids : List WidgetId) : t.Sheds (t.removeAll ids) :=
  (leads_removeAll t ids).sheds size_removeAll

theorem sheds_append (t : Tree) (p c : WidgetId) : t.Sheds (t.append p c).2 :=
  (leads_append t p c).sheds size_insert

theorem sheds_place (t : Tree) (id target : WidgetId) (edit : Edit) :
    t.Sheds (t.place id target edit).2 :=
  (leads_place t id target edit).sheds size_place

theorem sheds_setRoot (t : Tree) (root : Option WidgetId) : t.Sheds (t.setRoot root) :=
  (leads_setRoot t root).sheds size_setRoot

theorem sheds_dismiss (t : Tree) (id : WidgetId) : t.Sheds (t.dismiss id).2 :=
  (leads_dismiss t id).sheds size_dismiss

theorem sheds_pin (t : Tree) (id : WidgetId) : t.Sheds (t.pin id).2 where
  forest h := (h.leads_pin id).forest h
  scope? x s h := by
    unfold pin at h
    split at h
    · exact h
    · dsimp only at h
      split at h <;> exact scope?_detach.symm.trans h

theorem sheds_build (t : Tree) (b : Widget.Blueprint) : t.Sheds (b.build t).2 := by
  have hmade := sheds_construct (t := t) b.sameBonds_widget
  have happend := (leads_appendAll (t.construct b.widget).2 (t.construct b.widget).1 b.children).sheds
    size_appendAll
  unfold Widget.Blueprint.build
  dsimp only
  split
  · next hr =>
    rw [hr] at happend
    exact hmade.trans happend
  · next hr =>
    rw [hr] at happend
    exact (hmade.trans happend).trans (sheds_removeAll _ [_])

end operations

end Tree

end Hypermedia
