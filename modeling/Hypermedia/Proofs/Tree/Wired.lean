import Hypermedia.Proofs.Lists
import Hypermedia.Proofs.Tree.Bare
import Hypermedia.Proofs.Tree.Parts
import Hypermedia.Proofs.Tree.Scoped

/-! How widgets are wired: to the events they bind and to their scope. No operation of a tree rewires a widget. -/
namespace Hypermedia

namespace Widget

variable {u v w : Widget} {name event : String} {binding : Binding} {handlers : List (String × Binding)}

/-- Whether a widget has the bindings and the scope of another. -/
def SameWiring (v w : Widget) : Prop :=
  v.bindings = w.bindings ∧ v.scope = w.scope

theorem SameWiring.refl (w : Widget) : w.SameWiring w := ⟨rfl, rfl⟩

theorem SameWiring.trans (h : u.SameWiring v) (k : v.SameWiring w) : u.SameWiring w :=
  ⟨h.1.trans k.1, h.2.trans k.2⟩

theorem binding?_congr (h : v.bindings = w.bindings) : v.binding? name = w.binding? name :=
  congrArg (List.lookup name) h

theorem binding?_bind (w : Widget) : (w.bind event binding).binding? name =
    if name = event then some binding else w.binding? name := by
  have hbound (l : List (String × Binding)) : (bindIn event binding l).lookup name =
      if name = event then some binding else l.lookup name := by
    induction l with
    | nil => rw [bindIn, lookup_cons_eq]
    | cons entry l ih =>
      obtain ⟨key, old⟩ := entry
      rw [bindIn]
      split
      · next hkey =>
        rw [lookup_cons_eq, lookup_cons_eq, hkey]
        split <;> rfl
      · next hkey =>
        rw [lookup_cons_eq, lookup_cons_eq, ih]
        by_cases hname : name = key
        · have hother : ¬ name = event := fun h => hkey (hname.symm.trans h)
          rw [if_pos hname, if_neg hother, if_pos hname]
        · rw [if_neg hname, if_neg hname]
  exact hbound w.bindings

/-- Binds events, one after another. -/
def bindAll (w : Widget) (handlers : List (String × Binding)) : Widget :=
  handlers.foldl (fun w h => w.bind h.1 h.2) w

theorem bindAll_append (w : Widget) (before after : List (String × Binding)) :
    w.bindAll (before ++ after) = (w.bindAll before).bindAll after :=
  List.foldl_append

theorem scope_bindAll (w : Widget) : (w.bindAll handlers).scope = w.scope := by
  induction handlers generalizing w with
  | nil => rfl
  | cons first rest ih => exact ih _

/-- What is bound depends only on what was bound before. -/
theorem bindings_bindAll_congr (h : v.bindings = w.bindings) :
    (v.bindAll handlers).bindings = (w.bindAll handlers).bindings := by
  induction handlers generalizing v w with
  | nil => exact h
  | cons first rest ih => exact ih (congrArg (bindIn first.1 first.2) h)

theorem mem_of_bindAll {p : String × Binding} (h : p ∈ (w.bindAll handlers).bindings) :
    p ∈ w.bindings ∨ p ∈ handlers := by
  induction handlers generalizing w with
  | nil => exact .inl h
  | cons first rest ih =>
    rcases ih h with hold | hrest
    · exact (mem_bindIn hold).elim (fun he => .inr (he ▸ List.mem_cons_self)) .inl
    · exact .inr (List.mem_cons_of_mem _ hrest)

/-- Where no event is bound twice, each has its new binding, or else the one that it had. -/
theorem binding?_bindAll (h : (handlers.map Prod.fst).Nodup) (w : Widget) :
    (w.bindAll handlers).binding? name = (handlers.lookup name).or (w.binding? name) := by
  induction handlers generalizing w with
  | nil => rfl
  | cons first rest ih =>
    obtain ⟨event, binding⟩ := first
    obtain ⟨hout, hrest⟩ := List.nodup_cons.mp h
    have hfirst := ih hrest (w.bind event binding)
    rw [binding?_bind] at hfirst
    refine hfirst.trans ?_
    rw [lookup_cons_eq]
    split
    · next hname =>
      have hnone : rest.lookup name = none := by
        refine List.lookup_eq_none_iff.mpr fun p hp => bne_iff_ne.mpr fun heq => hout ?_
        exact List.mem_map.mpr ⟨p, hp, heq.symm.trans hname⟩
      rw [hnone]
      rfl
    · rfl

/-- What a described widget binds is what its description says. -/
theorem mem_handlers_of_widget (b : Blueprint) {p : String × Binding} (hp : p ∈ b.widget.bindings) :
    p ∈ b.handlers := by
  have hsetAll (attributes : List (String × Attribute)) (w : Widget) :
      (attributes.foldl (fun w a => w.setAttribute a.1 (some a.2)) w).bindings = w.bindings := by
    induction attributes generalizing w with
    | nil => rfl
    | cons first rest ih => exact ih _
  refine (mem_of_bindAll hp).resolve_left fun hold => ?_
  rw [hsetAll] at hold
  cases hold

end Widget

namespace Tree

variable {P : String × Binding → Prop} {t u v : Tree} {id x p c : WidgetId} {i : Nat} {f : Widget → Widget}

/-- `u` comes after `t`, and a widget in it is wired as in `t` or new with bindings of a kind. -/
structure Wires (P : String × Binding → Prop) (t u : Tree) : Prop where
  size_le : t.slots.size ≤ u.slots.size
  wired : ∀ x w, u.get? x = some w →
    (∃ v, t.get? x = some v ∧ w.SameWiring v) ∨ t.Unused x ∧ ∀ b ∈ w.bindings, P b

theorem Wires.refl (t : Tree) : Wires P t t :=
  ⟨Nat.le_refl _, fun _ w hw => .inl ⟨w, hw, .refl w⟩⟩

theorem Wires.trans (h : Wires P t u) (k : Wires P u v) : Wires P t v where
  size_le := Nat.le_trans h.size_le k.size_le
  wired x w hw := by
    rcases k.wired x w hw with ⟨w', hw', hsame⟩ | ⟨hnew, hbindings⟩
    · rcases h.wired x w' hw' with ⟨w'', hw'', hsame'⟩ | ⟨hnew, hbindings⟩
      · exact .inl ⟨w'', hw'', hsame.trans hsame'⟩
      · exact .inr ⟨hnew, hsame.1 ▸ hbindings⟩
    · exact .inr ⟨hnew.of_size_le h.size_le, hbindings⟩

instance : IsPreorder Tree (Wires P) where
  refl := .refl
  trans _ _ _ := .trans

theorem Wires.mono {Q : String × Binding → Prop} (h : Wires P t u) (hPQ : ∀ b, P b → Q b) : Wires Q t u where
  size_le := h.size_le
  wired x w hw := (h.wired x w hw).imp_right fun hnew => ⟨hnew.1, fun b hb => hPQ b (hnew.2 b hb)⟩

/-- A step that neither makes a widget nor rewires one. -/
theorem wires_of_old (hsize : u.slots.size = t.slots.size)
    (h : ∀ x w, u.get? x = some w → ∃ v, t.get? x = some v ∧ w.SameWiring v) : Wires P t u :=
  ⟨Nat.le_of_eq hsize.symm, fun x w hw => .inl (h x w hw)⟩

/-- A step that only changes what the layers are. -/
theorem wires_of_slots (h : u.slots = t.slots) : Wires P t u :=
  wires_of_old (congrArg Array.size h) fun x w hw => ⟨w, by rwa [get?, ← h], .refl w⟩

section steps

theorem wires_modify (hf : ∀ w, t.get? id = some w → (f w).SameWiring w) : Wires P t (t.modify id f) := by
  refine wires_of_old size_modify fun x w hw => ?_
  rw [get?_modify] at hw
  split at hw
  · next hx =>
    subst hx
    obtain ⟨v, hv, rfl⟩ := Option.map_eq_some_iff.mp hw
    exact ⟨v, hv, hf v hv⟩
  · exact ⟨w, hw, .refl w⟩

theorem wires_construct {w : Widget} (hw : ∀ b ∈ w.bindings, P b) : Wires P t (t.construct w).2 where
  size_le := by simp
  wired x v hv := by
    rw [get?_construct] at hv
    split at hv
    · next hx => exact .inr ⟨Nat.le_of_eq hx.symm, Option.some.inj hv ▸ hw⟩
    · exact .inl ⟨v, hv, .refl v⟩

theorem wires_detach (t : Tree) (id : WidgetId) : Wires P t (t.detach id) := by
  unfold detach
  split
  · exact .refl t
  · next parent _ =>
    have hparent : Wires P t (t.modify parent (·.withoutChild id)) := wires_modify fun _ _ => ⟨rfl, rfl⟩
    exact hparent.trans (wires_modify fun _ _ => ⟨rfl, rfl⟩)

theorem wires_link : Wires P t (t.link p i c).2 := by
  unfold link
  split
  · exact .refl t
  · have hparent : Wires P t (t.modify p (·.withChild i c)) := wires_modify fun _ _ => ⟨rfl, rfl⟩
    dsimp only
    split
    · exact hparent
    · exact hparent.trans (wires_modify fun _ _ => ⟨rfl, rfl⟩)

theorem wires_insert (t : Tree) (p : WidgetId) (i : Nat) (c : WidgetId) : Wires P t (t.insert p i c).2 := by
  unfold insert
  split
  · exact .refl t
  · have hfreed : Wires P t ((t.detach c).unpin c) := (wires_detach t c).trans (wires_of_slots rfl)
    exact hfreed.trans wires_link

theorem wires_remove (t : Tree) (id : WidgetId) : Wires P t (t.remove id) := by
  refine (wires_detach t id).trans (wires_of_old (by simp) fun x w hw => ?_)
  rw [get?_remove, prune, get?_vacate] at hw
  split at hw
  · cases hw
  · exact ⟨w, hw, .refl w⟩

/-- A step that makes no widget leaves all wired as they are. -/
theorem Step.wires (hs : Step t u) (hsize : u.slots.size = t.slots.size) : Wires P t u := by
  cases hs with
  | construct => simp at hsize
  | detach id => exact wires_detach t id
  | remove id => exact wires_remove t id
  | insert p i c => exact wires_insert t p i c
  | unpin id => exact wires_of_slots rfl
  | unpinAll => exact wires_of_slots rfl
  | pin => exact wires_of_slots rfl
  | dropRoot => exact wires_of_slots rfl
  | raise => exact wires_of_slots rfl

theorem Leads.wires (hs : Leads t u) (hsize : u.slots.size = t.slots.size) : Wires P t u := by
  induction hs with
  | refl => exact .refl t
  | @tail v u hs hstep ih =>
    have hbefore := (Leads.later hs).size_le
    have hafter := hstep.later.size_le
    have hmid : v.slots.size = t.slots.size := by omega
    exact (ih hmid).trans (hstep.wires (by omega))

theorem wires_removeAll (t : Tree) (ids : List WidgetId) : Wires P t (t.removeAll ids) :=
  (leads_removeAll t ids).wires size_removeAll

theorem wires_withoutRest (t : Tree) (root part : WidgetId) : Wires P t (t.withoutRest root part) := by
  unfold withoutRest
  split
  · exact .refl t
  · exact wires_remove t root

theorem wires_pin (t : Tree) (id : WidgetId) : Wires P t (t.pin id).2 := by
  have hleft : Wires P t (t.detach id) := wires_detach t id
  obtain heq | heq | ⟨-, -, -, heq⟩ := t.pin_outcomes id <;> rw [heq]
  · exact .refl t
  · exact hleft
  · exact hleft.trans (wires_of_slots rfl)

/-- A widget that is built binds what it is described with. -/
theorem wires_build (t : Tree) (b : Widget.Blueprint) (hb : ∀ h ∈ b.handlers, P h) :
    Wires P t (b.build t).2 := by
  have hmade : Wires P t (t.construct b.widget).2 :=
    wires_construct fun h hh => hb h (Widget.mem_handlers_of_widget b hh)
  have hfilled : Wires P t ((t.construct b.widget).2.appendAll (t.construct b.widget).1 b.children).2 :=
    hmade.trans ((leads_appendAll _ _ _).wires size_appendAll)
  unfold Widget.Blueprint.build
  dsimp only
  split
  · next hr =>
    rw [hr] at hfilled
    exact hfilled
  · next hr =>
    rw [hr] at hfilled
    exact hfilled.trans (wires_remove _ _)

theorem wires_write {name : String} {offer : Script.Offer} (h : Script.Field.write t id name offer = .ok u) :
    Wires P t u := by
  obtain ⟨w, v, hw, hv, rfl⟩ := Script.Field.eq_modify_of_write h
  refine wires_modify fun w' hw' => ?_
  obtain rfl : w' = w := Option.some.inj (hw'.symm.trans hw)
  obtain ⟨_, _, _, _, rfl⟩ := Script.Field.writeTo_eq hv
  exact ⟨rfl, rfl⟩

end steps

end Tree

end Hypermedia
