import Hypermedia.Proofs.Session.Requests
import Hypermedia.Proofs.Tree.Wired

/-! Preserved wirings: no request of a script binds an event of a widget that is there, or gives it a scope. -/
namespace Hypermedia.Session

variable {σ : Type} {s t u : Session σ} {P : String × Binding → Prop} {K : WidgetId → Prop} {x : WidgetId}

/-- Whether a binding is to an event that has the form of one. -/
def IsValid (b : String × Binding) : Prop :=
  isValidEvent b.1 = true

theorem wires_placeWidgets {r : Except SelectionError Unit × Tree} {ids : List WidgetId}
    (h : Tree.Wires P s.tree r.2) : Tree.Wires P s.tree (s.placeWidgets r ids).2.tree := by
  obtain ⟨outcome, tree⟩ := r
  cases outcome <;> exact h

/-- What a script asks for rewires no widget, and one that it builds binds valid events only. -/
theorem wires_perform (service : Script.Service) (s : Session σ) :
    Tree.Wires IsValid s.tree (perform service s).2.tree := by
  cases service with
  | readField id name => exact .refl _
  | writeField id name offer =>
    rw [perform]
    split
    · next hwrite => exact Tree.wires_write hwrite
    · exact .refl _
  | find selector =>
    rw [perform]
    split <;> exact .refl _
  | alert message => exact .refl _
  | style id property value =>
    rw [perform]
    split <;> exact .refl _
  | schedule callback milliseconds scope => exact .refl _
  | act actions caller =>
    rw [perform]
    split
    · exact .refl _
    · split <;> exact .refl _
  | build b =>
    rw [perform, buildWidget]
    split
    · exact .refl _
    · next hvalid =>
      have hbuilt : Tree.Wires IsValid s.tree (b.build s.tree).2 :=
        Tree.wires_build s.tree b fun handler hmem => by
          simpa [IsValid] using List.find?_eq_none.mp hvalid handler hmem
      split
      · next hr =>
        rw [hr] at hbuilt
        exact hbuilt
      · next hr =>
        rw [hr] at hbuilt
        exact hbuilt
  | pin id => exact wires_placeWidgets (s.tree.wires_pin id)
  | dismiss id => exact (Tree.leads_dismiss s.tree id).wires Tree.size_dismiss
  | append parent child => exact wires_placeWidgets (s.tree.wires_insert parent _ child)

/-- `t` comes after `s`, and what there was of a kind is wired in it as in `s`. -/
structure Preserves (K : WidgetId → Prop) (s t : Session σ) : Prop where
  size_le : s.tree.slots.size ≤ t.tree.slots.size
  wiring : ∀ x, K x → ¬ s.tree.Unused x → ∀ w, t.tree.get? x = some w →
    ∃ v, s.tree.get? x = some v ∧ w.SameWiring v

theorem Preserves.refl (s : Session σ) : s.Preserves K s :=
  ⟨Nat.le_refl _, fun _ _ _ w hw => ⟨w, hw, .refl w⟩⟩

theorem Preserves.trans (h : s.Preserves K t) (k : t.Preserves K u) : s.Preserves K u where
  size_le := Nat.le_trans h.size_le k.size_le
  wiring x hx hold w hw := by
    have hused : ¬ t.tree.Unused x := fun hunused => hold (hunused.of_size_le h.size_le)
    obtain ⟨v, hv, hsame⟩ := k.wiring x hx hused w hw
    obtain ⟨v', hv', hsame'⟩ := h.wiring x hx hold v hv
    exact ⟨v', hv', hsame.trans hsame'⟩

instance : IsPreorder (Session σ) (Preserves K) where
  refl := .refl
  trans _ _ _ := .trans

theorem preserves_of_wires (h : Tree.Wires P s.tree t.tree) : s.Preserves K t :=
  ⟨h.size_le, fun x _ hold w hw => (h.wired x w hw).resolve_right fun hnew => hold hnew.1⟩

theorem preserves_of_eq (htree : t.tree = s.tree) : s.Preserves K t :=
  preserves_of_wires (P := fun _ => True) (htree ▸ .refl _)

/-- What was bare stays bare. -/
theorem Preserves.bare (h : s.Preserves K t) (hK : K x) (hold : ¬ s.tree.Unused x) (hx : s.tree.Bare x) :
    t.tree.Bare x := fun w hw => by
  obtain ⟨v, hv, hbindings, hscope⟩ := h.wiring x hK hold w hw
  exact (hx v hv).congr hscope hbindings

/-- Scripts preserve the wirings of all widgets to which no handlers are bound. -/
theorem preserves_carries : Carries (Preserves (σ := σ) K) (fun _ => True) fun id => ¬ K id where
  perform service s _ := preserves_of_wires (wires_perform service s)
  world _ _ _ := preserves_of_eq rfl
  rules _ _ := preserves_of_eq rfl
  bind s id name f hid _ := by
    refine ⟨Nat.le_of_eq Tree.size_modify.symm, fun x hx _ w hw => ⟨w, ?_, .refl w⟩⟩
    have hne : x ≠ id := fun heq => hid (heq ▸ hx)
    rwa [Tree.get?_modify, if_neg hne] at hw

theorem wires_stage (root : Option WidgetId) : Tree.Wires P s.tree (s.stage root).tree := by
  have hbare : Tree.Wires P s.tree s.tree.takeRoot.2 := Tree.wires_of_slots rfl
  exact hbare.trans ((Tree.leads_setRoot s.tree.takeRoot.2 root).wires Tree.size_setRoot)

end Hypermedia.Session
