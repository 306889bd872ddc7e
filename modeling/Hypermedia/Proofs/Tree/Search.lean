import Hypermedia.Proofs.Lists
import Hypermedia.Proofs.Tree.Matches
import Hypermedia.Proofs.Tree.Parts
import Hypermedia.Proofs.Tree.Scoped
import Mathlib.Data.List.Sort

/-! Searches: which widgets a selector finds under some roots, and in which order. -/
namespace Hypermedia

/-- The subject describes the widget, and the other parts describe widgets further and further above it, the
innermost part the nearest. -/
def Selector.Selects (s : Selector) (t : Tree) (id : WidgetId) : Prop :=
  s.subject.Fits t id ∧ ∃ chosen, (id :: chosen).Pairwise t.Below ∧
    List.Forall₂ (fun part a => part.Fits t a) s.above.reverse chosen

namespace Tree

open Relation (TransGen)

variable {t : Tree} {c d p x y w : WidgetId} {chosen roots : List WidgetId} {s : Selector}

/-- The order of a document: a widget precedes what is below it, and all within a child precedes all within the
children that come after it. -/
inductive Precedes (t : Tree) (x y : WidgetId) : Prop where
  | above (h : t.Below y x)
  | elder {p c d : WidgetId} (siblings : [c, d].Sublist (t.children p)) (hx : t.Within x c) (hy : t.Within y d)

/-- The order in which a search under one root after another comes to widgets for the first time. -/
inductive Earlier (t : Tree) : List WidgetId → WidgetId → WidgetId → Prop where
  | here {r x y : WidgetId} {roots : List WidgetId} (hx : t.Within x r) (hy : t.Within y r → t.Precedes x y) :
    Earlier t (r :: roots) x y
  | later {r x y : WidgetId} {roots : List WidgetId} (hx : ¬ t.Within x r) (hy : ¬ t.Within y r)
    (h : Earlier t roots x y) : Earlier t (r :: roots) x y

section order

theorem Forest.siblings (h : t.Forest) (hcd : [c, d].Sublist (t.children p)) :
    t.parent? c = some p ∧ t.parent? d = some p ∧ c ≠ d := by
  refine ⟨(h.mem_children_iff p c).mp (hcd.subset (by simp)),
    (h.mem_children_iff p d).mp (hcd.subset (by simp)), ?_⟩
  simpa using (h.nodup_children p).sublist hcd

/-- Nothing is within two children of one widget. -/
theorem Forest.eq_of_within_siblings (h : t.Forest) (hc : t.parent? c = some p) (hd : t.parent? d = some p)
    (hxc : t.Within x c) (hxd : t.Within x d) : c = d := by
  by_contra hne
  rcases within_or_within hxc hxd with hw | hw
  · exact h.not_below_of_siblings hne hc hd hw
  · exact h.not_below_of_siblings (Ne.symm hne) hd hc hw

theorem Precedes.asymm (hxy : t.Precedes x y) (h : t.Forest) : ¬ t.Precedes y x := by
  have apart {p c d z : WidgetId} (hcd : [c, d].Sublist (t.children p)) (hzc : t.Within z c)
      (hzd : t.Within z d) : False := by
    obtain ⟨hc, hd, hne⟩ := h.siblings hcd
    exact hne (h.eq_of_within_siblings hc hd hzc hzd)
  intro hyx
  cases hxy with
  | above hbelow =>
    cases hyx with
    | above habove => exact h.not_within_of_below hbelow habove.within
    | elder hcd hy hx => exact apart hcd hy (hbelow.within.trans hx)
  | @elder p a b hab hx hy =>
    cases hyx with
    | above hbelow => exact apart hab hx (hbelow.within.trans hy)
    | @elder q c d hcd hy' hx' =>
      obtain ⟨hap, hbp, -⟩ := h.siblings hab
      obtain ⟨hcq, hdq, -⟩ := h.siblings hcd
      by_cases heq : a = d
      · subst heq
        obtain rfl : p = q := Option.some.inj (hap.symm.trans hdq)
        obtain rfl := h.eq_of_within_siblings hcq hbp hy' hy
        exact not_sublist_swap (h.nodup_children p) hab hcd
      -- `x` is within `a` and within `d`, so that one of these is below the other
      rcases within_or_within hx hx' with hw | hw
      · obtain ⟨z, hz, hzd⟩ := below_iff.mp ((within_iff.mp hw).resolve_left heq)
        obtain rfl : p = z := Option.some.inj (hap.symm.trans hz)
        exact apart hcd hy' ((hy.tail hbp).trans hzd)
      · obtain ⟨z, hz, hza⟩ := below_iff.mp ((within_iff.mp hw).resolve_left (Ne.symm heq))
        obtain rfl : q = z := Option.some.inj (hdq.symm.trans hz)
        exact apart hab ((hy'.tail hcq).trans hza) hy

theorem Forest.asymm_precedes (h : t.Forest) : Std.Asymm t.Precedes :=
  ⟨fun _ _ hxy => hxy.asymm h⟩

theorem Forest.asymm_earlier (h : t.Forest) (roots : List WidgetId) : Std.Asymm (t.Earlier roots) := by
  refine ⟨fun x y hxy => ?_⟩
  induction hxy with
  | here hx hy =>
    intro hyx
    cases hyx with
    | here hy' hx' => exact (hy hy').asymm h (hx' hx)
    | later _ hx' _ => exact hx' hx
  | later hx hy _ ih =>
    intro hyx
    cases hyx with
    | here hy' _ => exact hy hy'
    | later _ _ hyx => exact ih hyx

/-- A walk comes to widgets in the order of the document. -/
theorem Forest.pairwise_precedes (h : t.Forest) (n : Nat) : ∀ a, (t.walk n a).Pairwise t.Precedes := by
  induction n with
  | zero => exact fun a => .nil
  | succ n ih =>
    intro a
    unfold walk
    split
    · next w hw =>
      have hchildren : t.children a = w.children := by rw [children, hw]
      refine List.pairwise_cons.mpr ⟨fun y hy => ?_, List.pairwise_flatMap.mpr ⟨fun c _ => ih c, ?_⟩⟩
      · obtain ⟨c, hc, hy⟩ := List.mem_flatMap.mp hy
        have hca : t.parent? c = some a := (h.mem_children_iff a c).mp (hchildren ▸ hc)
        exact .above (TransGen.tail' (h.within_of_mem_walk hy) hca)
      · refine List.pairwise_iff_forall_sublist.mpr fun hcd x hx y hy => ?_
        exact .elder (hchildren ▸ hcd) (h.within_of_mem_walk hx) (h.within_of_mem_walk hy)
    · exact .nil

end order

section ancestors

/-- The strictly ascending choices of widgets above a widget are those from its chain of ancestors. -/
theorem Forest.sublist_ancestors_iff (h : t.Forest) :
    chosen.Sublist (t.ancestors x) ↔ (x :: chosen).Pairwise t.Below := by
  constructor
  · intro hchosen
    refine List.pairwise_cons.mpr ⟨fun a ha => below_of_mem_chain (hchosen.subset ha), ?_⟩
    exact List.Pairwise.sublist hchosen pairwise_chain
  · intro hpairwise
    obtain ⟨habove, hchosen⟩ := List.pairwise_cons.mp hpairwise
    have : Std.Asymm t.Below := ⟨fun a b hab hba => h.not_within_of_below hab hba.within⟩
    have hsubset : chosen ⊆ t.ancestors x := fun a ha => h.mem_ancestors_iff.mpr (habove a ha)
    exact List.sublist_of_subperm_of_pairwise (List.subperm_of_subset hchosen.nodup hsubset) hchosen pairwise_chain

theorem Forest.matches_iff (h : t.Forest) : s.matches t x = true ↔ s.Selects t x := by
  rw [Selector.matches, Bool.and_eq_true, Compound.matches_iff, Selector.ascend_iff]
  simp only [h.sublist_ancestors_iff]
  rfl

end ancestors

section search

theorem findAll_eq_eraseDups : t.findAll s roots = ((roots.flatMap t.descendants).filter (s.matches t)).eraseDups := by
  unfold findAll
  induction (roots.flatMap t.descendants).filter (s.matches t) using List.reverseRecOn with
  | nil => rfl
  | append_singleton l a ih =>
    rw [List.foldl_append, ih, eraseDups_concat]
    simp only [List.foldl_cons, List.foldl_nil, addNew, List.contains_iff_mem, List.mem_eraseDups]

/-- What is first come to under some roots: all that is under the first of them, and then what is under the others and
not under this one. -/
theorem Forest.pairwise_earlier (h : t.Forest) (roots : List WidgetId) (p : WidgetId → Bool) :
    ((roots.flatMap t.descendants).filter p).eraseDups.Pairwise (t.Earlier roots) := by
  have := h.asymm_precedes
  induction roots generalizing p with
  | nil => exact .nil
  | cons r roots ih =>
    let fresh : WidgetId → Bool := fun x => p x && !(t.descendants r).contains x
    have hordered : ((t.descendants r).filter p).Pairwise t.Precedes := (h.pairwise_precedes _ r).filter p
    have hrest : ((roots.flatMap t.descendants).filter p).removeAll ((t.descendants r).filter p) =
        (roots.flatMap t.descendants).filter fresh := by
      rw [List.removeAll, List.filter_filter]
      refine List.filter_congr fun x _ => ?_
      cases hp : p x <;> simp [fresh, hp]
    have hwithin : ∀ x ∈ (t.descendants r).filter p, t.Within x r := fun x hx =>
      (h.mem_descendants_iff.mp (List.mem_of_mem_filter hx)).2
    have houtside : ∀ x ∈ ((roots.flatMap t.descendants).filter fresh).eraseDups, ¬ t.Within x r := by
      intro x hx hw
      obtain ⟨hvisited, hfresh⟩ := List.mem_filter.mp (List.mem_eraseDups.mp hx)
      obtain ⟨root, -, hroot⟩ := List.mem_flatMap.mp hvisited
      have hmem := h.mem_descendants_iff.mpr ⟨(h.mem_descendants_iff.mp hroot).1, hw⟩
      simp [fresh, hmem] at hfresh
    rw [List.flatMap_cons, List.filter_append, List.eraseDups_append, eraseDups_of_nodup hordered.nodup, hrest]
    refine List.pairwise_append.mpr ⟨?_, ?_, fun x hx y hy => ?_⟩
    · exact hordered.imp_of_mem fun hx _ hxy => .here (hwithin _ hx) fun _ => hxy
    · exact (ih fresh).imp_of_mem fun hx hy hxy => .later (houtside _ hx) (houtside _ hy) hxy
    · exact .here (hwithin x hx) fun hw => absurd hw (houtside y hy)

theorem Forest.mem_findAll_iff (h : t.Forest) : w ∈ t.findAll s roots ↔
    t.contains w = true ∧ (∃ r ∈ roots, t.Within w r) ∧ s.Selects t w := by
  rw [findAll_eq_eraseDups, List.mem_eraseDups, List.mem_filter, List.mem_flatMap, h.matches_iff]
  simp only [h.mem_descendants_iff]
  constructor
  · rintro ⟨⟨r, hr, hlive, hw⟩, hs⟩
    exact ⟨hlive, ⟨r, hr, hw⟩, hs⟩
  · rintro ⟨hlive, ⟨r, hr, hw⟩, hs⟩
    exact ⟨⟨r, hr, hlive, hw⟩, hs⟩

theorem find?_eq_head? : t.find? s roots = (t.findAll s roots).head? := by
  rw [findAll_eq_eraseDups, head?_eraseDups, List.head?_filter]
  rfl

/-- A search finds each widget under the roots that the selector selects, once, and in the order in which they are come
to; the first of them is what is found where one is asked for. -/
theorem findAll_exact (h : t.Forest) (s : Selector) (roots : List WidgetId) :
    (t.findAll s roots).Nodup ∧
      (∀ w, w ∈ t.findAll s roots ↔ t.contains w = true ∧ (∃ r ∈ roots, t.Within w r) ∧ s.Selects t w) ∧
      (∀ x y, [x, y].Sublist (t.findAll s roots) ↔
        x ∈ t.findAll s roots ∧ y ∈ t.findAll s roots ∧ t.Earlier roots x y) ∧
      t.find? s roots = (t.findAll s roots).head? := by
  have hordered : (t.findAll s roots).Pairwise (t.Earlier roots) := by
    rw [findAll_eq_eraseDups]
    exact h.pairwise_earlier roots _
  have := h.asymm_earlier roots
  exact ⟨hordered.nodup, fun w => h.mem_findAll_iff, fun x y => pair_sublist_iff hordered, find?_eq_head?⟩

/-- Texts that have two towers around them, searched under a tower, a place that is empty, and the tower around all. -/
theorem findAll_exact_nested :
    let t := ({} : Tree).afterAll [.construct { kind := .tower } ⟨rfl, rfl⟩, .construct { kind := .tower } ⟨rfl, rfl⟩,
      .construct { kind := .tower } ⟨rfl, rfl⟩, .construct { kind := .text } ⟨rfl, rfl⟩,
      .construct { kind := .text } ⟨rfl, rfl⟩, .construct { kind := .text } ⟨rfl, rfl⟩, .append ⟨0⟩ ⟨1⟩,
      .append ⟨1⟩ ⟨4⟩, .append ⟨1⟩ ⟨2⟩, .append ⟨2⟩ ⟨3⟩, .remove ⟨5⟩]
    let s : Selector := { source := "Tower Tower Text", above := [{ kind := some "Tower" }, { kind := some "Tower" }]
                          subject := { kind := some "Text" } }
    let roots : List WidgetId := [⟨2⟩, ⟨5⟩, ⟨0⟩]
    t.Forest ∧ t.findAll s roots = [⟨3⟩, ⟨4⟩] ∧ s.Selects t ⟨4⟩ ∧ t.Earlier roots ⟨3⟩ ⟨4⟩ ∧
      t.find? s roots = some ⟨3⟩ := by
  intro t s roots
  have h : t.Forest := forest_afterAll _
  have hfound : t.findAll s roots = [⟨3⟩, ⟨4⟩] := by decide +kernel
  obtain ⟨-, hmem, hordered, hfirst⟩ := findAll_exact h s roots
  rw [hfound] at hmem hordered hfirst
  exact ⟨h, hfound, ((hmem ⟨4⟩).mp (by simp)).2.2, ((hordered ⟨3⟩ ⟨4⟩).mp (List.Sublist.refl _)).2.2, hfirst⟩

end search

end Tree

end Hypermedia
