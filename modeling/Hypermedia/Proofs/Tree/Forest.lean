import Hypermedia.Proofs.Tree.Links
import Mathlib.Data.List.Nodup
import Mathlib.Data.List.Perm.Subperm
import Mathlib.Logic.Relation

/-! Forests: trees whose parent and child links agree and never run in a circle. -/
namespace Hypermedia.Tree

open Relation (TransGen ReflTransGen)

/-- The parent link from `c` to `p`. -/
def IsChild (t : Tree) (c p : WidgetId) : Prop := t.parent? c = some p

/-- `x` is below `a`: parent links lead from `x` to `a` in one step or more. -/
def Below (t : Tree) : WidgetId → WidgetId → Prop := TransGen t.IsChild

/-- `x` is `a` or below it. -/
def Within (t : Tree) : WidgetId → WidgetId → Prop := ReflTransGen t.IsChild

/-- What holds of the links at all times. -/
structure Forest (t : Tree) : Prop where
  mem_children_iff : ∀ p c, c ∈ t.children p ↔ t.parent? c = some p
  nodup_children : ∀ p, (t.children p).Nodup
  acyclic : ∀ x, ¬ t.Below x x
  holder : ∀ p, t.children p ≠ [] → t.isHolder p = true

variable {t : Tree} {x y p c a : WidgetId}

theorem below_iff : t.Below x a ↔ ∃ p, t.parent? x = some p ∧ t.Within p a :=
  Relation.TransGen.head'_iff

theorem within_iff : t.Within x a ↔ x = a ∨ t.Below x a := by
  rw [Within, Relation.reflTransGen_iff_eq_or_transGen, eq_comm]
  rfl

theorem Below.within (h : t.Below x a) : t.Within x a := TransGen.to_reflTransGen h

theorem Below.contains (h : t.Below x a) : t.contains x = true := by
  obtain ⟨p, hp, -⟩ := below_iff.mp h
  exact contains_of_parent? hp

/-- Links of one tree that are all links of another lead nowhere else. -/
theorem Within.mono {u : Tree} (hl : ∀ c p, t.parent? c = some p → u.parent? c = some p)
    (h : t.Within x a) : u.Within x a :=
  ReflTransGen.mono hl _ _ h

namespace Forest

theorem contains_parent (h : t.Forest) (hp : t.parent? c = some p) : t.contains p = true :=
  contains_of_mem_children ((h.mem_children_iff p c).mpr hp)

theorem contains_child (h : t.Forest) (hc : c ∈ t.children p) : t.contains c = true :=
  contains_of_parent? ((h.mem_children_iff p c).mp hc)

theorem ne_parent (h : t.Forest) (hp : t.parent? c = some p) : p ≠ c := by
  rintro rfl
  exact h.acyclic p (TransGen.single hp)

theorem contains_of_below (h : t.Forest) (hb : t.Below x a) : t.contains a = true := by
  obtain ⟨b, -, hp⟩ := TransGen.tail'_iff.mp hb
  exact h.contains_parent hp

theorem not_within_of_below (h : t.Forest) (hb : t.Below x a) : ¬ t.Within a x :=
  fun hw => h.acyclic x (TransGen.trans_left hb hw)

/-- A tree without links is a forest. -/
theorem of_no_links (h : ∀ x w, t.get? x = some w → w.parent = none ∧ w.children = []) :
    t.Forest := by
  have hparent : ∀ c, t.parent? c = none := by
    intro c
    cases hw : t.get? c with
    | none => simp [parent?, hw]
    | some w => simp [parent?, hw, (h c w hw).1]
  have hchildren : ∀ p, t.children p = [] := by
    intro p
    cases hw : t.get? p with
    | none => simp [children, hw]
    | some w => simp [children, hw, (h p w hw).2]
  refine ⟨?_, ?_, ?_, ?_⟩
  · simp [hparent, hchildren]
  · simp [hchildren]
  · intro x hx
    obtain ⟨p, hp, -⟩ := below_iff.mp hx
    simp [hparent] at hp
  · simp [hchildren]

end Forest

section ancestors

theorem below_of_mem_chain {n : Nat} : ∀ {x}, a ∈ t.chain n (t.parent? x) → t.Below x a := by
  induction n with
  | zero => simp [chain]
  | succ n ih =>
    intro x ha
    cases hp : t.parent? x with
    | none => simp [chain, hp] at ha
    | some p =>
      rw [hp, chain, List.mem_cons] at ha
      rcases ha with rfl | ha
      · exact TransGen.single hp
      · exact TransGen.head hp (ih ha)

theorem Forest.nodup_chain (h : t.Forest) (n : Nat) : ∀ x, (t.chain n (t.parent? x)).Nodup := by
  induction n with
  | zero => simp [chain]
  | succ n ih =>
    intro x
    cases hp : t.parent? x with
    | none => simp [chain]
    | some p =>
      rw [chain, List.nodup_cons]
      exact ⟨fun hm => h.acyclic p (below_of_mem_chain hm), ih p⟩

/-- Distinct widgets of a tree are no more than its places. -/
theorem length_le_size {l : List WidgetId} (hn : l.Nodup) (hl : ∀ x ∈ l, t.contains x = true) :
    l.length ≤ t.slots.size := by
  have hsub : l.map (·.index) ⊆ List.range t.slots.size := by
    intro i hi
    obtain ⟨x, hx, rfl⟩ := List.mem_map.mp hi
    obtain ⟨w, hw⟩ := contains_iff.mp (hl x hx)
    exact List.mem_range.mpr (index_lt_of_get? hw)
  have hnodup : (l.map (·.index)).Nodup := hn.map fun _ _ => WidgetId.ext
  simpa using (List.subperm_of_subset hnodup hsub).length_le

/-- No chain of parents is as long as the tree is large. -/
theorem Forest.length_chain_lt (h : t.Forest) (hx : t.contains x = true) (n : Nat) :
    (t.chain n (t.parent? x)).length < t.slots.size := by
  have hn : (x :: t.chain n (t.parent? x)).Nodup :=
    List.nodup_cons.mpr ⟨fun hm => h.acyclic x (below_of_mem_chain hm), h.nodup_chain n x⟩
  have hl : ∀ y ∈ x :: t.chain n (t.parent? x), t.contains y = true := by
    intro y hy
    rcases List.mem_cons.mp hy with rfl | hy
    · exact hx
    · exact h.contains_of_below (below_of_mem_chain hy)
  exact length_le_size hn hl

/-- A chain that ended before its bound reaches everything above its start. -/
theorem mem_chain_of_below {n : Nat} : ∀ {x}, (t.chain n (t.parent? x)).length < n →
    t.Below x a → a ∈ t.chain n (t.parent? x) := by
  induction n with
  | zero => simp
  | succ n ih =>
    intro x hlen hb
    obtain ⟨p, hp, hw⟩ := below_iff.mp hb
    rw [hp, chain] at hlen ⊢
    rcases within_iff.mp hw with rfl | hb
    · exact List.mem_cons_self
    · exact List.mem_cons_of_mem _ (ih (by simpa using hlen) hb)

theorem Forest.mem_ancestors_iff (h : t.Forest) : a ∈ t.ancestors x ↔ t.Below x a := by
  refine ⟨below_of_mem_chain, fun hb => ?_⟩
  exact mem_chain_of_below (h.length_chain_lt hb.contains _) hb

theorem Forest.mem_lineage_iff (h : t.Forest) : a ∈ t.lineage x ↔ t.Within x a := by
  rw [lineage, List.mem_cons, h.mem_ancestors_iff, within_iff, eq_comm]

end ancestors

section descendants

theorem contains_of_mem_walk {n : Nat} : ∀ {a}, x ∈ t.walk n a → t.contains x = true := by
  induction n with
  | zero => simp [walk]
  | succ n ih =>
    intro a hx
    unfold walk at hx
    split at hx
    · next w hw =>
      rcases List.mem_cons.mp hx with rfl | hx
      · exact contains_iff.mpr ⟨w, hw⟩
      · obtain ⟨c, -, hx⟩ := List.mem_flatMap.mp hx
        exact ih hx
    · simp at hx

theorem Forest.within_of_mem_walk (h : t.Forest) {n : Nat} :
    ∀ {a}, x ∈ t.walk n a → t.Within x a := by
  induction n with
  | zero => simp [walk]
  | succ n ih =>
    intro a hx
    unfold walk at hx
    split at hx
    · next w hw =>
      rcases List.mem_cons.mp hx with rfl | hx
      · exact ReflTransGen.refl
      · obtain ⟨c, hc, hx⟩ := List.mem_flatMap.mp hx
        have hmem : c ∈ t.children a := by simpa [children, hw] using hc
        exact (ih hx).tail ((h.mem_children_iff a c).mp hmem)
    · simp at hx

theorem mem_walk_self {n : Nat} (hx : t.contains x = true) : x ∈ t.walk (n + 1) x := by
  obtain ⟨w, hw⟩ := contains_iff.mp hx
  simp [walk, hw]

/-- A walk of one level more reaches the children of what it reached. -/
theorem mem_walk_succ {n : Nat} (hcp : c ∈ t.children p) (hc : t.contains c = true) :
    ∀ {a}, p ∈ t.walk n a → c ∈ t.walk (n + 1) a := by
  induction n with
  | zero => simp [walk]
  | succ n ih =>
    intro a hp
    unfold walk at hp
    split at hp
    · next w hw =>
      rw [walk, hw]
      refine List.mem_cons_of_mem _ (List.mem_flatMap.mpr ?_)
      rcases List.mem_cons.mp hp with rfl | hp
      · exact ⟨c, by simpa [children, hw] using hcp, mem_walk_self hc⟩
      · obtain ⟨b, hb, hp⟩ := List.mem_flatMap.mp hp
        exact ⟨b, hb, ih hp⟩
    · simp at hp

/-- A walk as deep as a chain of parents is long comes down that chain. -/
theorem Forest.mem_walk_of_mem_chain (h : t.Forest) {n : Nat} :
    ∀ {x}, t.contains x = true → a ∈ x :: t.chain n (t.parent? x) →
      x ∈ t.walk ((t.chain n (t.parent? x)).length + 1) a := by
  induction n with
  | zero =>
    intro x hx ha
    rw [chain, List.mem_singleton] at ha
    subst ha
    exact mem_walk_self hx
  | succ n ih =>
    intro x hx ha
    rcases List.mem_cons.mp ha with rfl | ha
    · exact mem_walk_self hx
    · cases hp : t.parent? x with
      | none => simp [chain, hp] at ha
      | some p =>
        rw [hp, chain] at ha
        have hw := ih (h.contains_parent hp) ha
        simpa [chain] using mem_walk_succ ((h.mem_children_iff p x).mpr hp) hx hw

theorem walk_mono {m n : Nat} (hmn : m ≤ n) : ∀ {a}, x ∈ t.walk m a → x ∈ t.walk n a := by
  induction m generalizing n with
  | zero => simp [walk]
  | succ m ih =>
    intro a hx
    obtain ⟨n, rfl⟩ : ∃ k, n = k + 1 := ⟨n - 1, by omega⟩
    unfold walk at hx ⊢
    split at hx
    · next w hw =>
      rcases List.mem_cons.mp hx with rfl | hx
      · exact List.mem_cons_self
      · obtain ⟨b, hb, hx⟩ := List.mem_flatMap.mp hx
        exact List.mem_cons_of_mem _ (List.mem_flatMap.mpr ⟨b, hb, ih (by omega) hx⟩)
    · simp at hx

/-- The widgets of a subtree are the live ones at its root or below it. -/
theorem Forest.mem_descendants_iff (h : t.Forest) :
    x ∈ t.descendants a ↔ t.contains x = true ∧ t.Within x a := by
  refine ⟨fun hx => ⟨contains_of_mem_walk hx, h.within_of_mem_walk hx⟩, ?_⟩
  rintro ⟨hx, hw⟩
  have ha : a ∈ x :: t.chain t.slots.size (t.parent? x) := h.mem_lineage_iff.mpr hw
  exact walk_mono (h.length_chain_lt hx _) (h.mem_walk_of_mem_chain hx ha)

end descendants

end Hypermedia.Tree
