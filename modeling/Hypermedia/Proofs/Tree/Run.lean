import Hypermedia.Proofs.Tree.Edits
import Hypermedia.Widget.Operation

/-! Runs of operations: every tree they lead to is a forest, and no place is used twice. -/
namespace Hypermedia.Tree

open Relation (ReflTransGen)

variable {t u v : Tree} {id x p c : WidgetId}

/-- What operations are made of. -/
inductive Step : Tree → Tree → Prop where
  | construct (t : Tree) {w : Widget} (unlinked : w.IsUnlinked) : Step t (t.construct w).2
  | detach (t : Tree) (id : WidgetId) : Step t (t.detach id)
  | remove (t : Tree) (id : WidgetId) : Step t (t.remove id)
  | insert (t : Tree) (p : WidgetId) (i : Nat) (c : WidgetId) : Step t (t.insert p i c).2
  | unpin (t : Tree) (id : WidgetId) : Step t (t.unpin id)
  | unpinAll (t : Tree) : Step t { t with pinned := [] }
  | pin (t : Tree) {id : WidgetId} (live : t.contains id = true) (top : t.parent? id = none)
      (fresh : id ∉ t.pinned) (other : t.root ≠ some id) :
      Step t { t with pinned := t.pinned ++ [id] }
  | dropRoot (t : Tree) : Step t { t with root := none }
  | raise (t : Tree) {id : WidgetId} (free : id ∉ t.pinned) : Step t { t with root := some id }

/-- `u` comes from `t` by steps. -/
abbrev Leads (t u : Tree) : Prop := ReflTransGen Step t u

theorem Step.forest (hs : Step t u) (h : t.Forest) : u.Forest := by
  cases hs with
  | construct unlinked => exact h.construct unlinked.1 unlinked.2
  | detach id => exact h.detach id
  | remove id => exact h.remove id
  | insert p i c => exact h.insert p i c
  | unpin id => exact h.congr fun _ => rfl
  | unpinAll => exact h.congr fun _ => rfl
  | pin => exact h.congr fun _ => rfl
  | dropRoot => exact h.congr fun _ => rfl
  | raise => exact h.congr fun _ => rfl

theorem Leads.forest (hs : Leads t u) (h : t.Forest) : u.Forest := by
  induction hs with
  | refl => exact h
  | tail _ hs ih => exact hs.forest ih

section later

/-- `u` can come after `t`: it has no fewer places, and what was gone is still gone. -/
structure Later (t u : Tree) : Prop where
  size_le : t.slots.size ≤ u.slots.size
  contains_of : ∀ x : WidgetId, x.index < t.slots.size → u.contains x = true → t.contains x = true

theorem Later.refl (t : Tree) : t.Later t := ⟨Nat.le_refl _, fun _ _ h => h⟩

theorem Later.trans (h : t.Later u) (k : u.Later v) : t.Later v where
  size_le := Nat.le_trans h.size_le k.size_le
  contains_of x hx hv := h.contains_of x hx (k.contains_of x (Nat.lt_of_lt_of_le hx h.size_le) hv)

/-- A step that adds no place and brings no widget back. -/
theorem Later.of_contains (hs : u.slots.size = t.slots.size)
    (hc : ∀ x, u.contains x = true → t.contains x = true) : t.Later u :=
  ⟨Nat.le_of_eq hs.symm, fun x _ => hc x⟩

theorem Step.later (hs : Step t u) : t.Later u := by
  cases hs with
  | @construct w _ =>
    refine ⟨by simp, fun x hx hu => ?_⟩
    rw [contains, get?_construct, if_neg (Nat.ne_of_lt hx)] at hu
    exact hu
  | detach id => exact .of_contains size_detach fun _ => by simp
  | remove id =>
    refine .of_contains size_remove fun x hx => ?_
    have hd : (t.detach id).contains x = t.contains x := contains_detach
    rw [contains, get?_remove, prune, get?_vacate] at hx
    split at hx
    · simp at hx
    · exact hd ▸ hx
  | insert p i c => exact .of_contains size_insert fun _ => by simp
  | unpin id => exact .of_contains rfl fun _ h => h
  | unpinAll => exact .of_contains rfl fun _ h => h
  | pin => exact .of_contains rfl fun _ h => h
  | dropRoot => exact .of_contains rfl fun _ h => h
  | raise => exact .of_contains rfl fun _ h => h

theorem Leads.later (hs : Leads t u) : t.Later u := by
  induction hs with
  | refl => exact .refl t
  | tail _ hs ih => exact ih.trans hs.later

end later

section operations

theorem leads_removeAll (t : Tree) (ids : List WidgetId) : Leads t (t.removeAll ids) := by
  induction ids generalizing t with
  | nil => exact .refl
  | cons id ids ih => exact .head (.remove t id) (ih _)

theorem leads_append (t : Tree) (p c : WidgetId) : Leads t (t.append p c).2 :=
  .single (.insert t p _ c)

theorem leads_appendAll (t : Tree) (p : WidgetId) (cs : List WidgetId) :
    Leads t (t.appendAll p cs).2 := by
  induction cs generalizing t with
  | nil => exact .refl
  | cons c cs ih =>
    have hc := leads_append t p c
    rw [appendAll]
    split
    · next u hu =>
      rw [hu] at hc
      exact hc.trans (ih u)
    · next e u hu =>
      rw [hu] at hc
      exact hc

theorem leads_setChildren (t : Tree) (p : WidgetId) (cs : List WidgetId) :
    Leads t (t.setChildren p cs).2 := by
  unfold setChildren
  split
  · exact .refl
  · split
    · exact .refl
    · exact (leads_removeAll t _).trans (leads_appendAll _ p cs)

/-- The root stays if it is the one asked for, or if there is none, and is else removed. -/
theorem removeRootUnless_outcomes (t : Tree) (root : Option WidgetId) :
    ((∀ r, t.root = some r → root = some r) ∧ t.removeRootUnless root = t) ∨
    ∃ old, t.root = some old ∧ root ≠ some old ∧
      t.removeRootUnless root = ({ t with root := none } : Tree).remove old := by
  unfold removeRootUnless
  split
  · next old hold =>
    split
    · next hsame => exact .inl ⟨fun r hr => hsame.trans (hold.symm.trans hr), rfl⟩
    · next hother => exact .inr ⟨old, hold, hother, rfl⟩
  · next hnone => exact .inl ⟨fun r hr => absurd (hnone.symm.trans hr) nofun, rfl⟩

theorem leads_removeRootUnless (t : Tree) (root : Option WidgetId) :
    Leads t (t.removeRootUnless root) := by
  obtain ⟨-, h⟩ | ⟨old, -, -, h⟩ := t.removeRootUnless_outcomes root <;> rw [h]
  exact .head (.dropRoot t) (.single (.remove _ old))

theorem mem_pinned_of_removeRootUnless {root : Option WidgetId}
    (hx : x ∈ (t.removeRootUnless root).pinned) : x ∈ t.pinned := by
  obtain ⟨-, h⟩ | ⟨old, -, -, h⟩ := t.removeRootUnless_outcomes root <;> rw [h] at hx
  · exact hx
  · rw [pinned_remove] at hx
    exact List.mem_of_mem_filter hx

theorem leads_setRoot (t : Tree) (root : Option WidgetId) : Leads t (t.setRoot root) := by
  cases root with
  | none => exact (leads_removeRootUnless t none).tail (.dropRoot _)
  | some new =>
    have hnew : Leads t ((t.detach new).unpin new) :=
      .head (.detach t new) (.single (.unpin _ new))
    refine (hnew.trans (leads_removeRootUnless _ (some new))).tail (.raise _ fun hm => ?_)
    simpa using mem_pinned_of_removeRootUnless hm

theorem leads_replace (t : Tree) (target new : WidgetId) : Leads t (t.replace target new).2 := by
  unfold replace
  split
  · exact .refl
  · split
    · exact leads_setRoot t (some new)
    · split
      · exact .refl
      · next parent _ =>
        dsimp only
        split
        · exact .single (.detach t new)
        · next index _ =>
          have hr : Leads t ((t.detach new).remove target) :=
            .head (.detach t new) (.single (.remove _ target))
          exact hr.tail (.insert _ parent index new)

theorem leads_placeBeside (t : Tree) (id target : WidgetId) (offset : Nat) :
    Leads t (t.placeBeside id target offset).2 := by
  unfold placeBeside
  split
  · exact .refl
  · next parent _ =>
    dsimp only
    split
    · exact .single (.detach t id)
    · exact .head (.detach t id) (.single (.insert _ parent _ id))

theorem leads_place (t : Tree) (id target : WidgetId) (edit : Edit) :
    Leads t (t.place id target edit).2 := by
  cases edit with
  | replace => exact leads_replace t target id
  | replaceChildren => exact leads_setChildren t target [id]
  | before => exact leads_placeBeside t id target 0
  | after => exact leads_placeBeside t id target 1
  | prepend => exact .single (.insert t target 0 id)
  | append => exact leads_append t target id

/-- A widget that is there is detached, and pinned if it is neither pinned nor the root. -/
theorem pin_outcomes (t : Tree) (id : WidgetId) :
    (t.pin id).2 = t ∨ (t.pin id).2 = t.detach id ∨
    t.contains id = true ∧ id ∉ (t.detach id).pinned ∧ (t.detach id).root ≠ some id ∧
      (t.pin id).2 = { t.detach id with pinned := (t.detach id).pinned ++ [id] } := by
  unfold pin
  split
  · exact .inl rfl
  · next w hw =>
    dsimp only
    split
    · exact .inr (.inl rfl)
    · next hnew =>
      rw [Bool.or_eq_true, not_or, List.contains_iff_mem, beq_iff_eq] at hnew
      exact .inr (.inr ⟨contains_iff.mpr ⟨w, widget_eq_ok.mp hw⟩, hnew.1, hnew.2, rfl⟩)

theorem Forest.leads_pin (h : t.Forest) (id : WidgetId) : Leads t (t.pin id).2 := by
  have hd : Leads t (t.detach id) := .single (.detach t id)
  obtain heq | heq | ⟨hlive, hpin, hroot, heq⟩ := t.pin_outcomes id <;> rw [heq]
  · exact hd
  · exact hd.tail (.pin _ (contains_detach.trans hlive) h.parent?_detach_self hpin hroot)

theorem leads_dismiss (t : Tree) (id : WidgetId) : Leads t (t.dismiss id).2 := by
  unfold dismiss
  split
  · exact .single (.remove t _)
  · exact .refl

theorem leads_clearPinned (t : Tree) : Leads t t.clearPinned :=
  .head (.unpinAll t) (leads_removeAll _ _)

/-- Every operation takes steps only, whether or not it fails. -/
theorem Forest.leads_after (h : t.Forest) (op : Operation) : Leads t (t.after op) := by
  cases op with
  | construct w unlinked => exact .single (.construct t unlinked)
  | append p c => exact leads_append t p c
  | insert p i c => exact .single (.insert t p i c)
  | replace target new => exact leads_replace t target new
  | setChildren p cs => exact leads_setChildren t p cs
  | place id target edit => exact leads_place t id target edit
  | detach id => exact .single (.detach t id)
  | remove id => exact .single (.remove t id)
  | setRoot root => exact leads_setRoot t root
  | takeRoot => exact .single (.dropRoot t)
  | pin id => exact h.leads_pin id
  | dismiss id => exact leads_dismiss t id
  | clearPinned => exact leads_clearPinned t

theorem Forest.leads_afterAll (h : t.Forest) (ops : List Operation) :
    Leads t (t.afterAll ops) := by
  induction ops generalizing t with
  | nil => exact .refl
  | cons op ops ih =>
    have hop := h.leads_after op
    exact hop.trans (ih (hop.forest h))

end operations

theorem forest_empty : ({} : Tree).Forest :=
  Forest.of_no_links fun x w h => by simp [get?] at h

/-- The trees that operations lead to from an empty one. -/
theorem forest_afterAll (ops : List Operation) : (({} : Tree).afterAll ops).Forest :=
  (forest_empty.leads_afterAll ops).forest forest_empty

/-- After any run of operations, links agree in both directions, lead to live widgets only and never
in a circle, only holders have children, and a widget that is gone stays gone. -/
theorem afterAll_links_agree (ops : List Operation) :
    let t := ({} : Tree).afterAll ops
    (∀ p c, (t.children p).count c = if t.parent? c = some p then 1 else 0) ∧
    (∀ p c, c ∈ t.children p ∨ t.parent? c = some p → t.contains p = true ∧ t.contains c = true) ∧
    (∀ x, ¬ t.Below x x) ∧
    (∀ p, t.children p ≠ [] → t.isHolder p = true) ∧
    (∀ mid later x, t.contains x = true → (t.afterAll mid).contains x = false →
      ((t.afterAll mid).afterAll later).contains x = false) := by
  intro t
  have h : t.Forest := forest_afterAll ops
  refine ⟨?_, ?_, h.acyclic, h.holder, ?_⟩
  · intro p c
    split
    · next hp =>
      exact List.count_eq_one_of_mem (h.nodup_children p) ((h.mem_children_iff p c).mpr hp)
    · next hp => exact List.count_eq_zero.mpr fun hc => hp ((h.mem_children_iff p c).mp hc)
  · rintro p c (hc | hp)
    · exact ⟨contains_of_mem_children hc, h.contains_child hc⟩
    · exact ⟨h.contains_parent hp, contains_of_parent? hp⟩
  · intro mid later x hx hgone
    have hmid := h.leads_afterAll mid
    have hlater := ((hmid.forest h).leads_afterAll later).later
    obtain ⟨w, hw⟩ := contains_iff.mp hx
    have hlt := Nat.lt_of_lt_of_le (index_lt_of_get? hw) hmid.later.size_le
    cases hc : ((t.afterAll mid).afterAll later).contains x with
    | false => rfl
    | true =>
      rw [hlater.contains_of x hlt hc] at hgone
      exact hgone

end Hypermedia.Tree
