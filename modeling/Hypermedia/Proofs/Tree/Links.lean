import Hypermedia.Widget.Tree
import Mathlib.Data.List.Basic

/-! What the steps of a tree do to its widgets and to the links between them. -/
namespace Hypermedia

theorem filter_ne_eq_self {x : WidgetId} {l : List WidgetId} (h : x ∉ l) : l.filter (· != x) = l :=
  List.filter_eq_self.mpr fun _ hy => bne_iff_ne.mpr fun he => h (he ▸ hy)

namespace Widget

variable {w : Widget} {parent : Option WidgetId} {child : WidgetId} {i : Nat}

@[simp] theorem parent_withParent : (w.withParent parent).parent = parent := rfl

@[simp] theorem children_withParent : (w.withParent parent).children = w.children := rfl

@[simp] theorem isContainer_withParent : (w.withParent parent).isContainer = w.isContainer := rfl

@[simp] theorem parent_withoutChild : (w.withoutChild child).parent = w.parent := rfl

@[simp] theorem children_withoutChild :
    (w.withoutChild child).children = w.children.filter (· != child) := rfl

@[simp] theorem isContainer_withoutChild :
    (w.withoutChild child).isContainer = w.isContainer := rfl

@[simp] theorem parent_withChild : (w.withChild i child).parent = w.parent := rfl

@[simp] theorem children_withChild :
    (w.withChild i child).children = w.children.take i ++ child :: w.children.drop i := rfl

@[simp] theorem isContainer_withChild : (w.withChild i child).isContainer = w.isContainer := rfl

@[simp] theorem withParent_self : w.withParent w.parent = w := rfl

theorem withoutChild_self (h : child ∉ w.children) : w.withoutChild child = w := by
  simp only [withoutChild, filter_ne_eq_self h]

end Widget

namespace Tree

variable {t : Tree} {id x p c : WidgetId}

/-- Whether a place holds a widget that can have children. -/
def isHolder (t : Tree) (id : WidgetId) : Bool :=
  (t.get? id).any Widget.isContainer

theorem index_lt_of_get? {w : Widget} (h : t.get? x = some w) : x.index < t.slots.size := by
  simp only [get?, Option.join_eq_some_iff] at h
  exact (Array.getElem?_eq_some_iff.mp h).1

theorem get?_of_size_le (hx : t.slots.size ≤ x.index) : t.get? x = none := by
  simp [get?, Array.getElem?_eq_none hx]

theorem contains_iff : t.contains x = true ↔ ∃ w, t.get? x = some w := by
  simp [contains, Option.isSome_iff_exists]

theorem contains_of_parent? (h : t.parent? c = some p) : t.contains c = true := by
  obtain ⟨w, hw, -⟩ := Option.bind_eq_some_iff.mp h
  exact contains_iff.mpr ⟨w, hw⟩

theorem contains_of_mem_children (h : c ∈ t.children p) : t.contains p = true := by
  unfold children at h
  split at h
  · next w hw => exact contains_iff.mpr ⟨w, hw⟩
  · simp at h

theorem contains_of_isHolder (hp : t.isHolder p = true) : t.contains p = true := by
  unfold isHolder at hp
  cases hw : t.get? p with
  | none => simp [hw] at hp
  | some w => exact contains_iff.mpr ⟨w, hw⟩

theorem widget_eq_ok {w : Widget} : t.widget id = .ok w ↔ t.get? id = some w := by
  unfold widget
  split <;> simp_all

/-- Trees with the same widgets at the same places, the same root and the same layers are equal. -/
theorem ext_get? {u : Tree} (hs : t.slots.size = u.slots.size) (hg : ∀ x, t.get? x = u.get? x)
    (hr : t.root = u.root) (hp : t.pinned = u.pinned) : t = u := by
  obtain ⟨ts, tr, tp⟩ := t
  obtain ⟨us, ur, up⟩ := u
  have hslots : ts = us := by
    refine Array.ext hs fun i hi hj => ?_
    have := hg ⟨i⟩
    simpa [get?, Array.getElem?_eq_getElem hi, Array.getElem?_eq_getElem hj] using this
  simp_all

section modify

variable {f : Widget → Widget}

theorem get?_modify :
    (t.modify id f).get? x = if x = id then (t.get? x).map f else t.get? x := by
  have hx : id.index = x.index ↔ x = id :=
    ⟨fun h => (WidgetId.ext h).symm, fun h => h ▸ rfl⟩
  simp only [get?, modify, Array.getElem?_modify, hx]
  split
  · cases t.slots[x.index]? with
    | none => rfl
    | some slot => rfl
  · rfl

@[simp] theorem root_modify : (t.modify id f).root = t.root := rfl

@[simp] theorem pinned_modify : (t.modify id f).pinned = t.pinned := rfl

@[simp] theorem size_modify : (t.modify id f).slots.size = t.slots.size := by
  simp [modify]

@[simp] theorem contains_modify : (t.modify id f).contains x = t.contains x := by
  simp only [contains, get?_modify]
  split <;> simp

end modify

section construct

variable {w : Widget}

theorem get?_construct :
    (t.construct w).2.get? x = if x.index = t.slots.size then some w else t.get? x := by
  simp only [get?, construct, Array.getElem?_push]
  split <;> rfl

theorem parent?_construct (hw : w.parent = none) :
    (t.construct w).2.parent? x = t.parent? x := by
  rw [parent?, parent?, get?_construct]
  split
  · next hx => simp [get?_of_size_le (Nat.le_of_eq hx.symm), hw]
  · rfl

theorem children_construct (hw : w.children = []) :
    (t.construct w).2.children x = t.children x := by
  simp only [children, get?_construct]
  by_cases hx : x.index = t.slots.size
  · simp [hx, get?_of_size_le (Nat.le_of_eq hx.symm), hw]
  · simp [hx]

@[simp] theorem root_construct : (t.construct w).2.root = t.root := rfl

@[simp] theorem pinned_construct : (t.construct w).2.pinned = t.pinned := rfl

@[simp] theorem size_construct : (t.construct w).2.slots.size = t.slots.size + 1 := by
  simp [construct]

end construct

section vacate

private theorem getElem?_clear (slots : Array (Option Widget)) (ids : List WidgetId) :
    ((ids.foldl (fun slots id => slots.setIfInBounds id.index none) slots)[x.index]?).join =
      if x ∈ ids then none else slots[x.index]?.join := by
  induction ids generalizing slots with
  | nil => simp
  | cons id ids ih =>
    rw [List.foldl_cons, ih, Array.getElem?_setIfInBounds]
    by_cases hx : x = id
    · subst hx
      by_cases hlt : x.index < slots.size <;> simp [hlt]
    · have hne : id.index ≠ x.index := fun h => hx (WidgetId.ext h).symm
      simp [hx, hne]

theorem get?_vacate {ids : List WidgetId} :
    (t.vacate ids).get? x = if x ∈ ids then none else t.get? x :=
  getElem?_clear t.slots ids

@[simp] theorem root_vacate {ids : List WidgetId} : (t.vacate ids).root = t.root := rfl

@[simp] theorem pinned_vacate {ids : List WidgetId} : (t.vacate ids).pinned = t.pinned := rfl

@[simp] theorem size_vacate {ids : List WidgetId} : (t.vacate ids).slots.size = t.slots.size := by
  suffices h : ∀ slots : Array (Option Widget),
      (ids.foldl (fun slots id => slots.setIfInBounds id.index none) slots).size = slots.size from
    h t.slots
  induction ids with
  | nil => simp
  | cons id ids ih => intro slots; simp [ih]

end vacate

section detach

@[simp] theorem root_detach : (t.detach id).root = t.root := by
  unfold detach; split <;> rfl

@[simp] theorem pinned_detach : (t.detach id).pinned = t.pinned := by
  unfold detach; split <;> rfl

@[simp] theorem size_detach : (t.detach id).slots.size = t.slots.size := by
  unfold detach; split <;> simp

@[simp] theorem contains_detach : (t.detach id).contains x = t.contains x := by
  unfold detach; split <;> simp

end detach

section layers

@[simp] theorem get?_unpin : (t.unpin id).get? x = t.get? x := rfl

@[simp] theorem contains_unpin : (t.unpin id).contains x = t.contains x := rfl

@[simp] theorem root_unpin : (t.unpin id).root = t.root := rfl

@[simp] theorem pinned_unpin : (t.unpin id).pinned = t.pinned.filter (· != id) := rfl

@[simp] theorem size_unpin : (t.unpin id).slots.size = t.slots.size := rfl

end layers

/-- Widgets at the same places with the same links have the same parents, children and kinds. -/
theorem links_congr {u : Tree} (h : ∀ x, t.get? x = u.get? x) :
    t.parent? = u.parent? ∧ t.children = u.children ∧ t.contains = u.contains ∧
      t.isHolder = u.isHolder := by
  refine ⟨?_, ?_, ?_, ?_⟩ <;> funext x <;> simp [parent?, children, contains, isHolder, h]

end Tree

end Hypermedia
