import Hypermedia.Proofs.Lists
import Hypermedia.Proofs.Tree.Extension

/-! Bare widgets: those that have no scope and no function of a script bound. Moving widgets gives them
neither. -/
namespace Hypermedia

namespace Widget

variable {v w : Widget} {event : String} {binding : Binding}

/-- No scope, and no event bound to a function. -/
structure IsBare (w : Widget) : Prop where
  scope : w.scope = none
  bindings : ∀ b ∈ w.bindings, ∀ f, b.2 ≠ .script f

theorem IsBare.congr (hw : w.IsBare) (hscope : v.scope = w.scope) (hbindings : v.bindings = w.bindings) :
    v.IsBare :=
  ⟨hscope.trans hw.scope, hbindings ▸ hw.bindings⟩

theorem mem_bindIn {bindings : List (String × Binding)} {b : String × Binding}
    (h : b ∈ bindIn event binding bindings) : b = (event, binding) ∨ b ∈ bindings := by
  induction bindings with
  | nil => exact .inl (List.mem_singleton.mp h)
  | cons entry bindings ih =>
    unfold bindIn at h
    split at h
    · next heq =>
      subst heq
      exact (List.mem_cons.mp h).imp_right (List.mem_cons_of_mem _)
    · rcases List.mem_cons.mp h with rfl | h
      · exact .inr List.mem_cons_self
      · exact (ih h).imp_right (List.mem_cons_of_mem _)

theorem IsBare.not_script (hw : w.IsBare) (f : FunctionId) : w.binding? event ≠ some (.script f) := by
  intro h
  exact hw.bindings _ (mem_of_lookup h) f rfl

end Widget

namespace Tree

variable {t u : Tree} {id x p c : WidgetId} {f : Widget → Widget} {i : Nat}

/-- There is no widget at the place, or a bare one. -/
def Bare (t : Tree) (x : WidgetId) : Prop :=
  ∀ w, t.get? x = some w → w.IsBare

theorem bare_of_unused (hx : t.Unused x) : t.Bare x := fun w hw => by
  cases (get?_of_size_le hx).symm.trans hw

theorem Bare.modify (hx : t.Bare x) (hf : ∀ w : Widget, w.IsBare → (f w).IsBare) : (t.modify id f).Bare x := by
  intro w hw
  rw [get?_modify] at hw
  split at hw
  · obtain ⟨v, hv, rfl⟩ := Option.map_eq_some_iff.mp hw
    exact hf v (hx v hv)
  · exact hx w hw

theorem Bare.construct (hx : t.Bare x) {w : Widget} (hw : w.IsBare) : (t.construct w).2.Bare x := by
  intro v hv
  rw [get?_construct] at hv
  split at hv
  · exact Option.some.inj hv ▸ hw
  · exact hx v hv

theorem Bare.detach (hx : t.Bare x) : (t.detach id).Bare x := by
  unfold Tree.detach
  split
  · exact hx
  · next parent _ =>
    have hparent : (t.modify parent (·.withoutChild id)).Bare x := hx.modify fun w hw => hw.congr rfl rfl
    exact hparent.modify fun w hw => hw.congr rfl rfl

theorem Bare.link (hx : t.Bare x) : (t.link p i c).2.Bare x := by
  unfold Tree.link
  split
  · exact hx
  · have hparent : (t.modify p (·.withChild i c)).Bare x := hx.modify fun w hw => hw.congr rfl rfl
    dsimp only
    split
    · exact hparent
    · exact hparent.modify fun w hw => hw.congr rfl rfl

theorem Bare.insert (hx : t.Bare x) : (t.insert p i c).2.Bare x := by
  unfold Tree.insert
  split
  · exact hx
  · have hleft : (t.detach c).Bare x := hx.detach
    have hfreed : ((t.detach c).unpin c).Bare x := hleft
    exact hfreed.link

end Tree

end Hypermedia
