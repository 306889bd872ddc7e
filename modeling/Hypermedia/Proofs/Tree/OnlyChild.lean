import Hypermedia.Proofs.Tree.Placed

/-! A widget made the only child of another: what goes to make room for it, and when it goes itself. -/
namespace Hypermedia.Tree

open Relation (TransGen)

variable {t : Tree} {x w p : WidgetId}

private theorem filter_not_mem_single (l : List WidgetId) : l.filter (· ∉ [w]) = l.filter (· != w) :=
  List.filter_congr fun c _ => Bool.eq_iff_iff.mpr (by simp)

private theorem filter_not_mem_eq_self {l ids : List WidgetId} (h : ∀ c ∈ l, c ∉ ids) : l.filter (· ∉ ids) = l :=
  List.filter_eq_self.mpr fun c hc => decide_eq_true (h c hc)

section onlyChild

variable (hfree : ¬ t.Within p w) (hkept : ∀ old ∈ t.children p, ¬ t.Below w old)

theorem Forest.below_iff_within_child (h : t.Forest) : t.Below x p ↔ ∃ c ∈ t.children p, t.Within x c := by
  simp only [h.mem_children_iff p]
  rw [Below, TransGen.tail'_iff]
  exact exists_congr fun c => and_comm

include hfree hkept in
/-- What is clear of the children that make room for `w` is what is not below their parent or goes along with `w`. -/
theorem Forest.clear_dropped_iff (h : t.Forest) :
    (∀ old ∈ t.dropped p [w], ¬ t.Within x old) ↔ ¬ (t.Below x p ∧ ¬ t.Within x w) := by
  constructor
  · rintro hclear ⟨hxp, hxw⟩
    obtain ⟨c, hc, hxc⟩ := h.below_iff_within_child.mp hxp
    have hne : c ≠ w := fun heq => hxw (heq ▸ hxc)
    exact hclear c (mem_dropped_iff.mpr ⟨hc, by simpa using hne⟩) hxc
  · intro hclear old hold hxold
    obtain ⟨hchild, hne⟩ := mem_dropped_iff.mp hold
    have hne : old ≠ w := by simpa using hne
    have hxw : t.Within x w := not_not.mp fun hxw =>
      hclear ⟨h.below_iff_within_child.mpr ⟨old, hchild, hxold⟩, hxw⟩
    rcases within_or_within hxold hxw with holdw | hwold
    · obtain ⟨q, hq, hqw⟩ := below_iff.mp ((within_iff.mp holdw).resolve_left hne)
      obtain rfl : p = q := Option.some.inj (((h.mem_children_iff p old).mp hchild).symm.trans hq)
      exact hfree hqw
    · exact hkept old hchild ((within_iff.mp hwold).resolve_left hne.symm)

include hfree hkept in
theorem Forest.adopts_single (h : t.Forest) (hp : t.isHolder p = true) (hw : t.contains w = true) :
    t.adopts p [w] w = true := by
  have hclear : ∀ old ∈ t.dropped p [w], ¬ t.Within w old :=
    (h.clear_dropped_iff hfree hkept).mpr fun hgone => hgone.2 .refl
  refine h.adopts_iff.mpr ⟨?_, ?_, ?_⟩
  · rwa [h.isHolder_removeAll h.not_within_dropped]
  · exact h.contains_removeAll_iff.mpr ⟨hw, hclear⟩
  · rwa [h.within_removeAll h.not_within_dropped]

include hfree hkept in
theorem Forest.moved_setChildren (h : t.Forest) (hpins : t.Pins) (hp : t.isHolder p = true)
    (hw : t.contains w = true) :
    t.Moved w p [w] (fun x => t.Below x p ∧ ¬ t.Within x w) (t.setChildren p [w]).2 := by
  have hu := h.appended_setChildren [w] hp
  rw [adopted, List.takeWhile_cons_of_pos (h.adopts_single hfree hkept hp hw), List.takeWhile_nil] at hu
  have hclear {x : WidgetId} := h.clear_dropped_iff (x := x) hfree hkept
  have hchildren : ∀ x, x ≠ p → (t.children x).filter (· ∉ t.dropped p [w]) = t.children x := by
    refine fun x hne => filter_not_mem_eq_self fun c hc hold => hne (Option.some.inj ?_)
    exact ((h.mem_children_iff x c).mp hc).symm.trans (h.parent?_of_mem_dropped hold)
  have hpinned : t.pinned.filter (· ∉ t.dropped p [w]) = t.pinned := by
    refine filter_not_mem_eq_self fun y hy hold => ?_
    have hlink := h.parent?_of_mem_dropped hold
    simp [hpins.top y hy] at hlink
  exact {
    contains_iff := fun x => by rw [hu.contains, h.contains_removeAll_iff, hclear]
    parent? := fun x hx => by
      rw [hu.parent?, h.parent?_removeAll (hclear.mpr hx)]
      simp only [List.mem_singleton]
    children := fun x hx => by
      rw [hu.children, h.children_removeAll (hclear.mpr hx), filter_not_mem_single]
      by_cases heq : x = p
      · have hnone : ((t.children x).filter (· ∉ t.dropped p [w])).filter (· != w) = [] := by
          rw [heq, List.filter_filter, List.filter_eq_nil_iff]
          simp +contextual [mem_dropped_iff]
        rw [hnone, if_pos heq, if_pos heq]
        rfl
      · rw [hchildren x heq, if_neg heq, if_neg heq, List.append_nil]
    relinks := fun x hx => by
      rw [hu.relinks, h.get?_removeAll (hclear.mpr hx)]
      cases t.get? x <;> rfl
    pinned := by rw [hu.pinned, pinned_removeAll, hpinned, filter_not_mem_single]
    root := fun hroot => by
      rw [hu.root]
      refine Tree.root_removeAll fun old hold hr => hroot old hr ?_
      exact not_not.mp fun hgone => hclear.mpr hgone old hold .refl }

/-- A widget further below goes along with the child it is below, so that it is missing when it is to be put. -/
theorem Forest.setChildren_detached (h : t.Forest) (hp : t.isHolder p = true) {old : WidgetId}
    (hold : old ∈ t.children p) (hw : t.Below w old) :
    (t.setChildren p [w]).1 = .error (.detached w.index) ∧ (t.setChildren p [w]).2.contains w = false := by
  have hne : old ≠ w := fun heq => h.acyclic old (heq ▸ hw)
  have hdropped : old ∈ t.dropped p [w] := mem_dropped_iff.mpr ⟨hold, by simpa using hne⟩
  have hgone : (t.removeAll (t.dropped p [w])).contains w = false := by
    rw [← Bool.not_eq_true, h.contains_removeAll_iff]
    exact fun hlive => hlive.2 old hdropped hw.within
  have hholder : (t.removeAll (t.dropped p [w])).isHolder p = true := by
    rwa [h.isHolder_removeAll h.not_within_dropped]
  rw [setChildren_of_isHolder hp, Tree.appendAll, append_of_missing hholder hgone]
  exact ⟨rfl, hgone⟩

end onlyChild

/-- After any run, a widget made the only child of another stays and takes its place unless it is further below than
the children that go. Then it goes as well, and there is nothing to put. -/
theorem replaceChildren_keeps_unless_below (ops : List Operation) (w p : WidgetId)
    (hp : (({} : Tree).afterAll ops).isHolder p = true) (hw : (({} : Tree).afterAll ops).contains w = true)
    (hfree : ¬ (({} : Tree).afterAll ops).Within p w) :
    let t := ({} : Tree).afterAll ops
    let u := t.place w p .replaceChildren
    ((∀ old ∈ t.children p, ¬ t.Below w old) → t.Placed w p [w] (fun x => t.Below x p ∧ ¬ t.Within x w) u) ∧
      ((∃ old ∈ t.children p, t.Below w old) → u.1 = .error (.detached w.index) ∧ u.2.contains w = false) := by
  intro t u
  have h : t.Forest := forest_afterAll ops
  have hpins : t.Pins := (forest_empty.leads_afterAll ops).pins forest_empty pins_empty
  constructor
  · intro hkept
    have hadopts := h.adopts_single hfree hkept hp hw
    exact (h.moved_setChildren hfree hkept hpins hp hw).placed h
      ((h.setChildren_ok_iff hp).mpr (List.forall_mem_singleton.mpr hadopts)) hfree fun x hx hgone => hgone.2 hx
  · rintro ⟨old, hold, hbelow⟩
    exact h.setChildren_detached hp hold hbelow

/-- A text of a tower becomes its only child. -/
theorem replaceChildren_keeps_child :
    let ops : List Operation := [.construct { kind := .tower } ⟨rfl, rfl⟩, .construct { kind := .tower } ⟨rfl, rfl⟩,
      .construct { kind := .text } ⟨rfl, rfl⟩, .append ⟨0⟩ ⟨1⟩, .append ⟨0⟩ ⟨2⟩]
    let t := ({} : Tree).afterAll ops
    t.isHolder ⟨0⟩ = true ∧ t.contains ⟨2⟩ = true ∧ ¬ t.Within ⟨0⟩ ⟨2⟩ ∧ (∀ old ∈ t.children ⟨0⟩, ¬ t.Below ⟨2⟩ old) ∧
      t.Placed ⟨2⟩ ⟨0⟩ [⟨2⟩] (fun x => t.Below x ⟨0⟩ ∧ ¬ t.Within x ⟨2⟩) (t.place ⟨2⟩ ⟨0⟩ .replaceChildren) := by
  intro ops t
  have h : t.Forest := forest_afterAll ops
  have hp : t.isHolder ⟨0⟩ = true := by decide +kernel
  have hw : t.contains ⟨2⟩ = true := by decide +kernel
  have hfree : ¬ t.Within ⟨0⟩ ⟨2⟩ := fun hwithin => by
    have hmem := h.mem_lineage_iff.mpr hwithin
    exact absurd hmem (by decide +kernel)
  have hkept : ∀ old ∈ t.children ⟨0⟩, ¬ t.Below ⟨2⟩ old := by
    have hnone : ∀ old ∈ t.children ⟨0⟩, old ∉ t.ancestors ⟨2⟩ := by decide +kernel
    exact fun old hold hbelow => hnone old hold (h.mem_ancestors_iff.mpr hbelow)
  exact ⟨hp, hw, hfree, hkept, (replaceChildren_keeps_unless_below ops ⟨2⟩ ⟨0⟩ hp hw hfree).1 hkept⟩

/-- A text of a tower within a tower is to become the only child of the outer one: it is removed and its place stays
empty. -/
theorem replaceChildren_removes_grandchild :
    let t := ({} : Tree).afterAll [.construct { kind := .tower } ⟨rfl, rfl⟩, .construct { kind := .tower } ⟨rfl, rfl⟩,
      .construct { kind := .text } ⟨rfl, rfl⟩, .append ⟨0⟩ ⟨1⟩, .append ⟨1⟩ ⟨2⟩]
    let u := t.place ⟨2⟩ ⟨0⟩ .replaceChildren
    t.isHolder ⟨0⟩ = true ∧ t.contains ⟨2⟩ = true ∧ ¬ t.Within ⟨0⟩ ⟨2⟩ ∧
      u.1 = .error (.detached 2) ∧ u.2.contains ⟨2⟩ = false ∧ u.2.children ⟨0⟩ = [] := by
  intro t u
  have htop : t.parent? ⟨0⟩ = none := by decide +kernel
  have hfree : ¬ t.Within ⟨0⟩ ⟨2⟩ := fun hwithin => absurd (eq_of_within htop hwithin) (by decide)
  have hrest : t.isHolder ⟨0⟩ = true ∧ t.contains ⟨2⟩ = true ∧
      u.1 = .error (.detached 2) ∧ u.2.contains ⟨2⟩ = false ∧ u.2.children ⟨0⟩ = [] := by decide +kernel
  exact ⟨hrest.1, hrest.2.1, hfree, hrest.2.2⟩

end Hypermedia.Tree
