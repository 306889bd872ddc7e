import Hypermedia.Proofs.Tree.Extension

/-! Parts of a tree that links do not leave: what is walked there is the same in every tree that has the
same widgets there. -/
namespace Hypermedia.Tree

variable {t u : Tree} {id x p c : WidgetId} {n a b d : Nat}

/-- The kind of a widget and its children. -/
def body? (t : Tree) (id : WidgetId) : Option (Widget.Kind × List WidgetId) :=
  (t.get? id).map fun w => (w.kind, w.children)

/-- The places from one index up to another. -/
def places (a b : Nat) : List WidgetId :=
  (List.range' a (b - a)).map WidgetId.mk

/-- `u` has the kinds and children of `t` at places of a kind that no child link of `t` leaves. -/
structure Agrees (inside : WidgetId → Prop) (t u : Tree) : Prop where
  closed : ∀ x, inside x → ∀ c ∈ t.children x, inside c
  same : ∀ x, inside x → u.body? x = t.body? x

section places

theorem mem_places : x ∈ places a b ↔ a ≤ x.index ∧ x.index < b := by
  simp only [places, List.mem_map, List.mem_range'_1]
  constructor
  · rintro ⟨i, hi, rfl⟩
    exact ⟨hi.1, by dsimp only; omega⟩
  · intro h
    exact ⟨x.index, by omega, rfl⟩

theorem nodup_places : (places a b).Nodup :=
  List.Nodup.map (fun _ _ h => WidgetId.mk.inj h) List.nodup_range'

theorem places_self : places a a = [] := by simp [places]

theorem places_append (hab : a ≤ b) (hbd : b ≤ d) : places a b ++ places b d = places a d := by
  have hsplit : List.range' a (d - a) = List.range' a (b - a) ++ List.range' b (d - b) := by
    rw [show d - a = (b - a) + (d - b) by omega, ← List.range'_append_1,
      show a + (b - a) = b by omega]
  rw [places, places, places, hsplit, List.map_append]

theorem places_cons (h : a < b) : places a b = ⟨a⟩ :: places (a + 1) b := by
  have hone : places a (a + 1) = [⟨a⟩] := by simp [places]
  rw [← places_append (Nat.le_succ a) h, hone, List.singleton_append]

end places

theorem children_of_body? {kind : Widget.Kind} {cs : List WidgetId} (h : t.body? x = some (kind, cs)) :
    t.children x = cs := by
  obtain ⟨w, hw, hbody⟩ := Option.map_eq_some_iff.mp h
  rw [children, hw]
  exact congrArg Prod.snd hbody

theorem walk_succ (n : Nat) (x : WidgetId) : t.walk (n + 1) x =
    match t.body? x with
    | some body => x :: body.2.flatMap (t.walk n)
    | none => [] := by
  rw [walk, body?]
  cases t.get? x <;> rfl

theorem Agrees.walk {inside : WidgetId → Prop} (h : Agrees inside t u) (n : Nat) (hx : inside x) :
    u.walk n x = t.walk n x := by
  induction n generalizing x with
  | zero => rfl
  | succ n ih =>
    rw [walk_succ, walk_succ, h.same x hx]
    cases hbody : t.body? x with
    | none => rfl
    | some body =>
      have hcs := h.closed x hx
      rw [children_of_body? hbody] at hcs
      exact congrArg _ (List.flatMap_congr fun c hc => ih (hcs c hc))

section append

variable (h : t.Forest) (ha : t.Admits p c) (htop : t.parent? c = none)

include h ha htop

/-- A widget without a parent that is appended: only the two that are linked notice. -/
theorem Forest.get?_append_of_top (x : WidgetId) : (t.append p c).2.get? x =
    (t.get? x).map fun w =>
      { w with parent := if x = c then some p else w.parent
               children := if x = p then w.children ++ [c] else w.children } := by
  rw [append, h.get?_insert ha]
  cases hw : t.get? x with
  | none => rfl
  | some w =>
    have hout : w.withoutChild c = w := by
      refine Widget.withoutChild_self fun hmem => ?_
      have hlink : t.parent? c = some x :=
        (h.mem_children_iff x c).mp (by simpa [children, hw] using hmem)
      exact Option.some_ne_none _ (hlink.symm.trans htop)
    simp only [Option.map_some, hout]
    by_cases hxp : x = p
    · have hlen : (t.children p).length = w.children.length := by rw [← hxp, children, hw]
      simp [hxp, hlen, Widget.withChild, Widget.withParent]
    · simp [hxp, Widget.withParent]

theorem Forest.body?_append_of_top (hx : x ≠ p) : (t.append p c).2.body? x = t.body? x := by
  rw [body?, h.get?_append_of_top ha htop, body?]
  simp [hx, Function.comp_def]

end append

end Hypermedia.Tree
