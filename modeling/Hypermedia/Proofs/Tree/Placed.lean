import Hypermedia.Proofs.Tree.Parts

/-! Placements that go well: where a widget goes, what it takes along, and which widgets make room for it. -/
namespace Hypermedia.Tree

open Relation (TransGen ReflTransGen)

variable {t u : Tree} {x w p target : WidgetId} {cs before after : List WidgetId} {i offset : Nat}
  {gone : WidgetId → Prop}

/-- `u` is `t` with `w` moved under `p`, which then has the children `cs`, and without the widgets that are `gone`:
what is left is as it was, but for these links. -/
structure Moved (t : Tree) (w p : WidgetId) (cs : List WidgetId) (gone : WidgetId → Prop) (u : Tree) : Prop where
  contains_iff : ∀ x, u.contains x = true ↔ t.contains x = true ∧ ¬ gone x
  parent? : ∀ x, ¬ gone x → u.parent? x = if x = w then some p else t.parent? x
  children : ∀ x, ¬ gone x → u.children x = if x = p then cs else (t.children x).filter (· != w)
  relinks : ∀ x, ¬ gone x → u.get? x = (t.get? x).map fun v =>
    { v with parent := u.parent? x, children := u.children x }
  pinned : u.pinned = t.pinned.filter (· != w)
  root : (∀ r, t.root = some r → ¬ gone r) → u.root = t.root

/-- A placement that went well: `w` has come under `p` with its whole subtree, and where it neither came from nor
went to the children are the same. -/
structure Placed (t : Tree) (w p : WidgetId) (cs : List WidgetId) (gone : WidgetId → Prop)
    (r : Except SelectionError Unit × Tree) : Prop where
  ok : r.1 = .ok ()
  moved : t.Moved w p cs gone r.2
  subtree : ∀ x, r.2.Within x w ↔ t.Within x w
  intact : ∀ x, t.Within x w → r.2.contains x = t.contains x ∧ r.2.children x = t.children x
  others : ∀ x, x ≠ p → t.parent? w ≠ some x → ¬ gone x → r.2.children x = t.children x

section placed

theorem Forest.filter_children_eq_self (h : t.Forest) (hx : t.parent? w ≠ some x) :
    (t.children x).filter (· != w) = t.children x :=
  filter_ne_eq_self fun hmem => hx ((h.mem_children_iff x w).mp hmem)

theorem Moved.within_iff (m : t.Moved w p cs gone u) (hkept : ∀ x, t.Within x w → ¬ gone x) :
    u.Within x w ↔ t.Within x w := by
  constructor
  · intro hw
    induction hw using ReflTransGen.head_induction_on with
    | refl => exact .refl
    | @head x y hxy _ ih =>
      have hlive := (m.contains_iff x).mp (contains_of_parent? hxy)
      rw [IsChild, m.parent? x hlive.2] at hxy
      split at hxy
      · next heq => exact heq ▸ .refl
      · exact ih.head hxy
  · intro hw
    induction hw using ReflTransGen.head_induction_on with
    | refl => exact .refl
    | @head x y hxy hyw ih =>
      by_cases heq : x = w
      · exact heq ▸ .refl
      · refine ih.head ?_
        rw [IsChild, m.parent? x (hkept x (hyw.head hxy)), if_neg heq]
        exact hxy

/-- A move is a placement if the widget does not go into its own subtree and nothing of that subtree goes. -/
theorem Moved.placed {r : Except SelectionError Unit × Tree} (h : t.Forest) (hok : r.1 = .ok ())
    (m : t.Moved w p cs gone r.2) (hp : ¬ t.Within p w) (hkept : ∀ x, t.Within x w → ¬ gone x) :
    t.Placed w p cs gone r := by
  have hothers : ∀ x, x ≠ p → t.parent? w ≠ some x → ¬ gone x → r.2.children x = t.children x := by
    intro x hxp hxw hx
    rw [m.children x hx, if_neg hxp, h.filter_children_eq_self hxw]
  refine ⟨hok, m, fun x => m.within_iff hkept, fun x hx => ⟨?_, ?_⟩, hothers⟩
  · have hlive := m.contains_iff x
    rw [and_iff_left (hkept x hx)] at hlive
    exact Bool.eq_iff_iff.mpr hlive
  · refine hothers x (fun heq => hp (heq ▸ hx)) (fun hparent => ?_) (hkept x hx)
    exact h.not_within_of_below (TransGen.single hparent) hx

end placed

section moves

theorem Forest.moved_insert (h : t.Forest) (ha : t.Admits p w) (i : Nat) :
    t.Moved w p (((t.children p).filter (· != w)).take i ++ w :: ((t.children p).filter (· != w)).drop i)
      (fun _ => False) (t.insert p i w).2 where
  contains_iff x := by simp
  parent? x _ := h.parent?_insert ha
  children x _ := by
    rw [h.children_insert ha]
    split
    · next heq => rw [heq]
    · rfl
  relinks x _ := h.relinks_insert ha x
  pinned := h.pinned_insert ha
  root _ := root_insert

/-- A widget that leaves its parent before it is moved comes to the same place. -/
theorem Moved.of_detach (h : t.Forest) (m : (t.detach w).Moved w p cs gone u) : t.Moved w p cs gone u where
  contains_iff x := by
    have hlive := m.contains_iff x
    rwa [contains_detach] at hlive
  parent? x hx := by
    rw [m.parent? x hx, h.parent?_detach]
    split <;> rfl
  children x hx := by
    rw [m.children x hx, h.children_detach, List.filter_filter]
    simp only [Bool.and_self]
  relinks x hx := by
    rw [m.relinks x hx, h.relinks_detach x]
    cases t.get? x <;> rfl
  pinned := by rw [m.pinned, pinned_detach]
  root hr := by
    rw [m.root fun r hroot => hr r (root_detach ▸ hroot), root_detach]

/-- A widget that is moved to where another was removed. -/
theorem Moved.of_remove (h : t.Forest) (hp : t.parent? target = some p) (hpin : target ∉ t.pinned)
    (m : (t.remove target).Moved w p cs (fun _ => False) u) :
    t.Moved w p cs (fun x => t.Within x target) u where
  contains_iff x := by
    rw [m.contains_iff, h.contains_remove_iff]
    simp
  parent? x hx := by
    rw [m.parent? x not_false, h.parent?_remove hx]
  children x hx := by
    rw [m.children x not_false, h.children_remove hx]
    by_cases hxp : x = p
    · rw [if_pos hxp, if_pos hxp]
    · have hother : t.parent? target ≠ some x := fun heq => hxp (Option.some.inj (heq.symm.trans hp))
      rw [if_neg hxp, if_neg hxp, h.filter_children_eq_self hother]
  relinks x hx := by
    rw [m.relinks x not_false, h.get?_remove_of_not_within hx, h.relinks_detach x]
    cases t.get? x <;> rfl
  pinned := by rw [m.pinned, pinned_remove, filter_ne_eq_self hpin]
  root hr := by
    have hroot : t.root ≠ some target := fun heq => hr target heq .refl
    rw [m.root fun _ _ => not_false, root_remove, if_neg hroot]

/-- What leaves takes what is below it along, so the rest of the subtree around it is what goes with that. -/
theorem Forest.within_detach_around (h : t.Forest) (hfree : ¬ t.Within target w) :
    (t.detach w).Within x target ↔ t.Within x target ∧ ¬ t.Within x w := by
  constructor
  · intro hx
    refine ⟨Within.mono (fun _ _ => h.parent?_of_detach) hx, fun hxw => ?_⟩
    rcases within_or_within hx (h.within_detach.mpr hxw) with htw | hwt
    · exact hfree (h.within_detach.mp htw)
    · exact hfree (eq_of_within h.parent?_detach_self hwt ▸ .refl)
  · rintro ⟨hx, hxw⟩
    induction hx using ReflTransGen.head_induction_on with
    | refl => exact .refl
    | @head x y hxy _ ih =>
      have hne : x ≠ w := fun heq => hxw (heq ▸ .refl)
      refine ReflTransGen.head ?_ (ih fun hyw => hxw (hyw.head hxy))
      rw [IsChild, h.parent?_detach, if_neg hne]
      exact hxy

theorem Forest.filter_around (h : t.Forest) (hcs : t.children p = before ++ x :: after) :
    (before ++ x :: after).filter (· != x) = before ++ after := by
  have hnodup := h.nodup_children p
  rw [hcs] at hnodup
  have hx : x ∉ before := fun hmem => (List.nodup_append.mp hnodup).2.2 x hmem x List.mem_cons_self rfl
  rw [← hnodup.erase_eq_filter, List.erase_append_right _ hx, List.erase_cons_head]

end moves

section place

variable {l r : List WidgetId}

theorem Forest.placed_insert (h : t.Forest) (ha : t.Admits p w)
    (hl : ((t.children p).filter (· != w)).take i = l) (hr : ((t.children p).filter (· != w)).drop i = r) :
    t.Placed w p (l ++ w :: r) (fun _ => False) (t.insert p i w) := by
  have hm := h.moved_insert ha i
  rw [hl, hr] at hm
  exact hm.placed h (h.insert_ok_iff.mpr ha) ha.2.2 fun _ _ => not_false

variable (hf : t.Fits target w) (hp : t.parent? target = some p)
  (hcs : (t.children p).filter (· != w) = before ++ target :: after)

include hf hp hcs in
theorem Forest.placed_beside (h : t.Forest) (hl : (before ++ target :: after).take (before.length + offset) = l)
    (hr : (before ++ target :: after).drop (before.length + offset) = r) :
    t.Placed w p (l ++ w :: r) (fun _ => False) (t.placeBeside w target offset) := by
  have hd := h.detach w
  have ha := h.admits_detach hf hp
  have hleft : (t.detach w).children p = before ++ target :: after := h.children_detach.trans hcs
  have hindex := hd.indexOf?_eq (h.parent?_detach_of_fits hf hp) hleft
  have hsame : ((t.detach w).children p).filter (· != w) = before ++ target :: after := by
    rw [h.children_detach, List.filter_filter]
    simpa only [Bool.and_self] using hcs
  have hm := hd.moved_insert ha (before.length + offset)
  rw [hsame, hl, hr] at hm
  rw [h.placeBeside_eq_insert hf hp hindex]
  exact (Moved.of_detach h hm).placed h (hd.insert_ok_iff.mpr ha) (fun hpw => hf.2.2 (hpw.head hp)) fun _ _ => not_false

include hf hp hcs in
theorem Forest.placed_replace (h : t.Forest) (hpins : t.Pins) (hroot : t.root ≠ some target) :
    t.Placed w p (before ++ w :: after) (fun x => t.Within x target ∧ ¬ t.Within x w) (t.replace target w) := by
  have hd := h.detach w
  have hdp := h.parent?_detach_of_fits hf hp
  have hleft : (t.detach w).children p = before ++ target :: after := h.children_detach.trans hcs
  have hpin : target ∉ (t.detach w).pinned := by
    rw [pinned_detach]
    intro hmem
    simp [hpins.top target hmem] at hp
  have ha := h.admits_remove hf hp
  have hoff : ¬ (t.detach w).Within p target := hd.not_within_of_below (TransGen.single hdp)
  have hsame : (((t.detach w).remove target).children p).filter (· != w) = before ++ after := by
    have hout : w ∉ before ++ target :: after := hcs ▸ by simp
    rw [hd.children_remove hoff, hleft, hd.filter_around hleft]
    exact filter_ne_eq_self fun hmem => hout <| List.mem_append.mpr <|
      (List.mem_append.mp hmem).imp_right (List.mem_cons_of_mem target)
  have hm := (hd.remove target).moved_insert ha before.length
  rw [hsame, List.take_left, List.drop_left] at hm
  have hm := Moved.of_detach h (hm.of_remove hd hdp hpin)
  simp only [h.within_detach_around hf.2.2] at hm
  rw [h.replace_eq_insert hroot hf hp (hd.indexOf?_eq hdp hleft)]
  refine hm.placed h ((hd.remove target).insert_ok_iff.mpr ha) (fun hpw => hf.2.2 (hpw.head hp)) ?_
  exact fun x hx hgone => hgone.2 hx

end place

/-- After any run, a widget put somewhere that is not below it goes where it is put and nowhere else. It may come from
the children it goes to, from below the widget it is put beside or in the place of, or from the pinned ones. -/
theorem placed_exactly (ops : List Operation) (w target : WidgetId)
    (hw : (({} : Tree).afterAll ops).contains w = true) (hfree : ¬ (({} : Tree).afterAll ops).Within target w) :
    let t := ({} : Tree).afterAll ops
    (∀ p, t.parent? target = some p →
      ∃ before after, (t.children p).filter (· != w) = before ++ target :: after ∧
        t.Placed w p (before ++ w :: target :: after) (fun _ => False) (t.place w target .before) ∧
        t.Placed w p (before ++ target :: w :: after) (fun _ => False) (t.place w target .after) ∧
        (t.root ≠ some target → t.Placed w p (before ++ w :: after)
          (fun x => t.Within x target ∧ ¬ t.Within x w) (t.place w target .replace))) ∧
    (t.isHolder target = true →
      t.Placed w target (w :: (t.children target).filter (· != w)) (fun _ => False) (t.place w target .prepend) ∧
      t.Placed w target ((t.children target).filter (· != w) ++ [w]) (fun _ => False) (t.place w target .append)) := by
  intro t
  have h : t.Forest := forest_afterAll ops
  have hpins : t.Pins := (forest_empty.leads_afterAll ops).pins forest_empty pins_empty
  constructor
  · intro p hp
    have hf : t.Fits target w := ⟨by rw [hp]; rfl, hw, hfree⟩
    have hmem : target ∈ (t.children p).filter (· != w) :=
      List.mem_filter.mpr ⟨(h.mem_children_iff p target).mpr hp, by simpa using hf.ne⟩
    obtain ⟨before, after, hcs⟩ := List.append_of_mem hmem
    refine ⟨before, after, hcs, ?_, ?_, fun hroot => h.placed_replace hf hp hcs hpins hroot⟩
    · exact h.placed_beside hf hp hcs List.take_left List.drop_left
    · have hl : (before ++ target :: after).take (before.length + 1) = before ++ [target] :=
        List.take_length_add_append 1
      have hr : (before ++ target :: after).drop (before.length + 1) = after := List.drop_length_add_append 1
      have hbeside := h.placed_beside hf hp hcs hl hr
      rwa [List.append_assoc] at hbeside
  · intro hholder
    have ha : t.Admits target w := ⟨hholder, hw, hfree⟩
    have hlen : ((t.children target).filter (· != w)).length ≤ (t.children target).length := List.length_filter_le _ _
    exact ⟨h.placed_insert ha List.take_zero List.drop_zero,
      h.placed_insert ha (List.take_of_length_le hlen) (List.drop_eq_nil_of_le hlen)⟩

/-- A text takes the place of the tower that holds it; put at the end of that tower it stays where it is. -/
theorem placed_from_inside :
    let ops : List Operation := [.construct { kind := .tower } ⟨rfl, rfl⟩, .construct { kind := .tower } ⟨rfl, rfl⟩,
      .construct { kind := .text } ⟨rfl, rfl⟩, .construct { kind := .text } ⟨rfl, rfl⟩,
      .append ⟨0⟩ ⟨1⟩, .append ⟨1⟩ ⟨2⟩, .append ⟨0⟩ ⟨3⟩]
    let t := ({} : Tree).afterAll ops
    t.contains ⟨2⟩ = true ∧ ¬ t.Within ⟨1⟩ ⟨2⟩ ∧
      t.Placed ⟨2⟩ ⟨0⟩ [⟨2⟩, ⟨3⟩] (fun x => t.Within x ⟨1⟩ ∧ ¬ t.Within x ⟨2⟩) (t.place ⟨2⟩ ⟨1⟩ .replace) ∧
      t.Placed ⟨2⟩ ⟨1⟩ [⟨2⟩] (fun _ => False) (t.place ⟨2⟩ ⟨1⟩ .append) := by
  intro ops t
  have hw : t.contains ⟨2⟩ = true := by decide +kernel
  have hfree : ¬ t.Within ⟨1⟩ ⟨2⟩ := fun hwithin => by
    have hmem := (forest_afterAll ops).mem_lineage_iff.mpr hwithin
    exact absurd hmem (by decide +kernel)
  have hp : t.parent? ⟨1⟩ = some ⟨0⟩ := by decide +kernel
  have hholder : t.isHolder ⟨1⟩ = true := by decide +kernel
  have hroot : t.root ≠ some ⟨1⟩ := by decide +kernel
  have hchildren : (t.children ⟨0⟩).filter (· != ⟨2⟩) = [⟨1⟩, ⟨3⟩] := by decide +kernel
  have hinner : (t.children ⟨1⟩).filter (· != ⟨2⟩) = [] := by decide +kernel
  obtain ⟨hbeside, hinside⟩ := placed_exactly ops ⟨2⟩ ⟨1⟩ hw hfree
  obtain ⟨before, after, hcs, -, -, hreplace⟩ := hbeside ⟨0⟩ hp
  have happend : t.Placed ⟨2⟩ ⟨1⟩ ((t.children ⟨1⟩).filter (· != ⟨2⟩) ++ [⟨2⟩]) (fun _ => False)
      (t.place ⟨2⟩ ⟨1⟩ .append) := (hinside hholder).2
  rw [hinner] at happend
  rw [hchildren] at hcs
  obtain ⟨rfl, rfl⟩ : before = [] ∧ after = [⟨3⟩] := by
    cases before with
    | nil => exact ⟨rfl, (List.cons.inj hcs).2.symm⟩
    | cons b before =>
      have hmem : (⟨1⟩ : WidgetId) ∈ [(⟨3⟩ : WidgetId)] := (List.cons.inj hcs).2 ▸ by simp
      exact absurd hmem (by decide)
  exact ⟨hw, hfree, hreplace hroot, happend⟩

end Hypermedia.Tree
