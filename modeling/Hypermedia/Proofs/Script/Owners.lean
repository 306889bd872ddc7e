import Hypermedia.Proofs.Script.Chains

/-! The owners of scopes: the widgets that scopes belong to. Scripts neither make a scope nor give one to
another widget. -/
namespace Hypermedia.Script

namespace Scopes

variable {f : Scopes} {o i j : ScopeId} {x : WidgetId} {k : Scope → Scope}

/-- The widget that a scope belongs to. -/
def owner? (f : Scopes) (id : ScopeId) : Option WidgetId :=
  (f.get? id).bind (·.widget)

/-- The widgets that have got scopes, as often as they have got one, in the order of the scopes. -/
def owners (f : Scopes) : List WidgetId :=
  f.all.toList.filterMap (·.widget)

/-- The scopes of `g` belong to the widgets that those of `f` belong to. -/
def SameOwners (f g : Scopes) : Prop :=
  g.owners = f.owners

instance : IsPreorder Scopes SameOwners where
  refl _ := rfl
  trans _ _ _ hfg hgh := Eq.trans hgh hfg

theorem owners_modify (f : Scopes) (o : ScopeId) (hk : ∀ s, (k s).widget = s.widget) :
    (f.modify o k).owners = f.owners := by
  have hwidgets : (f.modify o k).all.toList.map (·.widget) = f.all.toList.map (·.widget) := by
    refine List.ext_getElem (by simp [modify]) fun n hn _ => ?_
    simp only [modify, List.getElem_map, Array.getElem_toList, Array.getElem_modify]
    split
    · exact hk _
    · rfl
  have howners (l : List Scope) : l.filterMap (·.widget) = (l.map (·.widget)).filterMap id := by
    rw [List.filterMap_map, Function.id_comp]
  rw [owners, owners, howners, howners, hwidgets]

theorem owner?_modify (f : Scopes) (o : ScopeId) (hk : ∀ s, (k s).widget = s.widget) :
    (f.modify o k).owner? i = f.owner? i := by
  rw [owner?, owner?, get?_modify]
  split
  · next heq =>
    subst heq
    cases f.get? i with
    | none => rfl
    | some s => exact hk s
  · rfl

theorem widget_bind (s : Scope) (name : String) (value : Value) : (s.bind name value).widget = s.widget := by
  unfold Scope.bind
  split <;> rfl

theorem owners_define (f : Scopes) (o : ScopeId) (name : String) (value : Value) :
    (f.define o name value).2.owners = f.owners :=
  owners_modify f o fun s => widget_bind s name value

theorem sameOwners_carries : Carries SameOwners where
  assign f _ name value := f.owners_define _ name value
  listen f scope _ _ := f.owners_modify scope fun _ => rfl

theorem owners_add (f : Scopes) (parent : Option ScopeId) : (f.add parent).2.owners = f.owners := by
  simp [owners, add]

/-- A scope that is added for a widget is the last. -/
theorem owners_mark (f : Scopes) (parent : Option ScopeId) (x : WidgetId) :
    ((f.add parent).2.modify (f.add parent).1 fun s => { s with widget := some x }).owners =
      f.owners ++ [x] := by
  have hall : (f.all.push { parent }).modify f.all.size (fun s => { s with widget := some x }) =
      f.all.push { parent, widget := some x } := by
    refine Array.ext (by simp) fun n hn _ => ?_
    rw [Array.getElem_modify, Array.getElem_push, Array.getElem_push]
    by_cases hlt : n < f.all.size
    · simp [hlt, Nat.ne_of_gt hlt]
    · have heq : f.all.size = n := by
        simp at hn
        omega
      simp [heq]
  change ((f.all.push { parent }).modify f.all.size _).toList.filterMap _ = _
  rw [hall]
  simp [owners]

theorem owner?_mark (f : Scopes) (parent : Option ScopeId) (x : WidgetId) :
    ((f.add parent).2.modify (f.add parent).1 fun s => { s with widget := some x }).owner? i =
      if i = (f.add parent).1 then some x else f.owner? i := by
  have hget : (f.add parent).2.get? i = if i = (f.add parent).1 then some { parent } else f.get? i := by
    obtain ⟨n⟩ := i
    simp [add, get?, Array.getElem?_push]
  rw [owner?, owner?, get?_modify, hget]
  split <;> simp_all

theorem mem_owners_iff : x ∈ f.owners ↔ ∃ i, f.owner? i = some x := by
  simp only [owners, List.mem_filterMap, Array.mem_toList_iff, owner?, get?]
  constructor
  · rintro ⟨s, hs, hx⟩
    obtain ⟨n, hn, rfl⟩ := Array.mem_iff_getElem.mp hs
    exact ⟨⟨n⟩, by simp [hn, hx]⟩
  · rintro ⟨i, hi⟩
    obtain ⟨s, hs, hx⟩ := Option.bind_eq_some_iff.mp hi
    exact ⟨s, Array.mem_of_getElem? hs, hx⟩

/-- Where no widget has got two scopes, a scope is told by the widget it belongs to. -/
theorem eq_of_owner? (h : f.owners.Nodup) (hi : f.owner? i = some x) (hj : f.owner? j = some x) : i = j := by
  have hpairwise := List.pairwise_iff_getElem.mp (List.pairwise_filterMap.mp h)
  have hlt {i j : ScopeId} (hi : f.owner? i = some x) (hj : f.owner? j = some x) : ¬ i.index < j.index := by
    intro hlt
    obtain ⟨s, hs, hsx⟩ := Option.bind_eq_some_iff.mp hi
    obtain ⟨t, ht, htx⟩ := Option.bind_eq_some_iff.mp hj
    obtain ⟨hsi, rfl⟩ := Array.getElem?_eq_some_iff.mp hs
    obtain ⟨htj, rfl⟩ := Array.getElem?_eq_some_iff.mp ht
    exact hpairwise i.index j.index (by simpa using hsi) (by simpa using htj) hlt x (by simpa using hsx) x
      (by simpa using htx) rfl
  have heq : i.index = j.index := Nat.le_antisymm (Nat.le_of_not_lt (hlt hj hi)) (Nat.le_of_not_lt (hlt hi hj))
  cases i
  cases j
  exact congrArg ScopeId.mk heq

end Scopes

end Hypermedia.Script
