import Hypermedia.Proofs.Session.Consistent
import Hypermedia.Proofs.Session.Requests
import Hypermedia.Proofs.Tree.Scripted

/-! Scripts in a session keep its books in order, whatever they ask for. -/
namespace Hypermedia

theorem Tree.size_pin {t : Tree} {id : WidgetId} : (t.pin id).2.slots.size = t.slots.size := by
  obtain heq | heq | ⟨-, -, -, heq⟩ := t.pin_outcomes id <;> rw [heq]
  · exact size_detach
  · exact size_detach

namespace Session

open Effect (Moves)

variable {σ : Type} {s t : Session σ}

theorem state_editTree {r : Except SelectionError Unit × Tree} :
    (s.editTree r).2 = { s with tree := r.2 } := by
  obtain ⟨outcome, tree⟩ := r
  cases outcome <;> rfl

theorem keeps_settled (ids : List WidgetId) : s.Keeps (s.settled ids) :=
  ⟨rfl, rfl, rfl, rfl, Nat.le_refl _, fun _ _ h => h⟩

/-- A step of the tree for a script, after which some widgets have a place. -/
theorem keeps_placeWidgets {r : Except SelectionError Unit × Tree} {ids : List WidgetId}
    (h : s.tree.slots.size ≤ r.2.slots.size) : s.Keeps (s.placeWidgets r ids).2 := by
  have hedit : s.Keeps (s.editTree r).2 := by
    rw [state_editTree]
    exact keeps_tree h
  unfold placeWidgets
  split
  · next hr =>
    rw [hr] at hedit
    exact hedit.trans (keeps_settled ids)
  · exact hedit

theorem keeps_buildWidget (b : Widget.Blueprint) : s.Keeps (s.buildWidget b).2 := by
  have hsize := (b.leads_build s.tree).later.size_le
  unfold buildWidget
  split
  · exact .refl s
  · split
    · next hr =>
      rw [hr] at hsize
      exact keeps_tree hsize
    · next hr =>
      rw [hr] at hsize
      have hsettled := (keeps_tree hsize).trans (keeps_settled b.children)
      exact hsettled.trans ⟨rfl, rfl, rfl, rfl, Nat.le_refl _, fun _ _ h => h⟩

/-- Whatever a script asks for, the books stay in order. -/
theorem acts_perform (service : Script.Service) : s.Acts (perform service s).2 := by
  cases service with
  | readField id name => exact .refl s
  | writeField id name offer =>
    rw [perform]
    split
    · next htree =>
      obtain ⟨f, rfl, -⟩ := Script.Field.write_eq_modify htree
      exact (keeps_tree (Nat.le_of_eq Tree.size_modify.symm)).acts
    · exact .refl s
  | find selector =>
    rw [perform]
    split <;> exact .refl s
  | alert message => exact Keeps.acts ⟨rfl, rfl, rfl, rfl, Nat.le_refl _, fun _ _ h => h⟩
  | style id property value =>
    rw [perform]
    split
    · exact Keeps.acts ⟨rfl, rfl, rfl, rfl, Nat.le_refl _, fun _ _ h => h⟩
    · exact .refl s
  | schedule callback milliseconds scope =>
    exact Keeps.acts ⟨rfl, rfl, rfl, rfl, Nat.le_refl _, fun _ _ h => h⟩
  | act actions caller =>
    rw [perform]
    split
    · exact .refl s
    · split
      · exact Keeps.acts ⟨rfl, rfl, rfl, rfl, Nat.le_refl _, fun _ _ h => h⟩
      · exact acts_startActions actions caller
  | build b => exact (keeps_buildWidget b).acts
  | pin id => exact (keeps_placeWidgets (Nat.le_of_eq Tree.size_pin.symm)).acts
  | dismiss id => exact (keeps_tree (Tree.leads_dismiss s.tree id).later.size_le).acts
  | append parent child =>
    exact (keeps_placeWidgets (Tree.leads_append s.tree parent child).later.size_le).acts

/-- All that scripts do to a session leads along its acts. -/
theorem acts_carries : Binds (Acts (σ := σ)) (fun _ => True) (fun _ => True) where
  perform service _ _ := acts_perform service
  world _ _ _ := Keeps.acts ⟨rfl, rfl, rfl, rfl, Nat.le_refl _, fun _ _ h => h⟩
  rules _ _ := Keeps.acts ⟨rfl, rfl, rfl, rfl, Nat.le_refl _, fun _ _ h => h⟩
  bind _ _ _ _ _ _ := (keeps_tree (Nat.le_of_eq Tree.size_modify.symm)).acts
  scope _ _ _ _ := (keeps_tree (Nat.le_of_eq Tree.size_modify.symm)).acts

theorem moves_bindScripts (ids : List WidgetId) : Moves Acts (bindScripts ids : Act σ Unit) :=
  (acts_carries.bindScripts fun _ _ => trivial).moves fun _ => trivial

theorem moves_dispatch (id : WidgetId) (event : String) :
    Moves Acts (dispatch id event : Act σ Bool) :=
  acts_carries.dispatch (fun _ => acts_report)
    (fun _ actions caller _ => acts_startActions actions caller) id event

end Session

end Hypermedia
