import Hypermedia.Script.Scope
import Mathlib.Logic.Relation

/-! Scopes within one another: what is around a scope, and what a name means there. -/
namespace Hypermedia.Script.Scopes

open Relation (TransGen ReflTransGen)

/-- The parent link from `s` to `p`. -/
def IsInside (f : Scopes) (s p : ScopeId) : Prop := f.parent? s = some p

/-- `a` is around `s`: parent links lead from `s` to `a` in one step or more. -/
def Below (f : Scopes) : ScopeId → ScopeId → Prop := TransGen f.IsInside

/-- `s` is `a` or below it. -/
def Within (f : Scopes) : ScopeId → ScopeId → Prop := ReflTransGen f.IsInside

/-- Every scope was made after the one around it. -/
def Nested (f : Scopes) : Prop := ∀ s p, f.parent? s = some p → p.index < s.index

/-- From `t` the binding of a name in `a` is in sight: `a` is `t` or around it, and nothing on the way
from `t` up to `a` binds the name. -/
structure Exposes (f : Scopes) (name : String) (a t : ScopeId) : Prop where
  within : f.Within t a
  free : ∀ x, f.Within t x → f.Below x a → f.own? x name = none

/-- `a` binds a name, and it is the nearest scope around `s` that does. -/
structure NearestAround (f : Scopes) (name : String) (s a : ScopeId) (value : Value) : Prop where
  below : f.Below s a
  binds : f.own? a name = some value
  free : ∀ x, f.Below s x → f.Below x a → f.own? x name = none

/-- The value of a name around a scope: that of the parent, or a builtin. -/
def outer? (f : Scopes) (s : ScopeId) (name : String) : Option Value :=
  match f.parent? s with
  | some p => f.read p name
  | none => f.builtins.get? name

variable {f : Scopes} {s t p a b x : ScopeId} {name : String} {v : Value}

theorem below_iff : f.Below s a ↔ ∃ p, f.parent? s = some p ∧ f.Within p a :=
  Relation.TransGen.head'_iff

theorem within_iff : f.Within s a ↔ s = a ∨ f.Below s a := by
  rw [Within, Relation.reflTransGen_iff_eq_or_transGen, eq_comm]
  rfl

theorem within_of_parent? (h : f.parent? s = some p) : f.Within s a ↔ s = a ∨ f.Within p a := by
  rw [within_iff, below_iff]
  simp [h]

theorem below_of_parent? (h : f.parent? s = some p) : f.Below s a ↔ f.Within p a := by
  rw [below_iff]
  simp [h]

theorem not_below_of_parent? (h : f.parent? s = none) : ¬ f.Below s a := by
  rw [below_iff]
  simp [h]

theorem Below.within (h : f.Below s a) : f.Within s a := TransGen.to_reflTransGen h

theorem Below.trans_within (h : f.Below s a) (hw : f.Within a b) : f.Below s b :=
  TransGen.trans_left h hw

/-- What is around a scope is around one another. -/
theorem Within.total (ha : f.Within s a) (hb : f.Within s b) : f.Within a b ∨ f.Within b a :=
  ReflTransGen.total_of_right_unique (fun _ _ _ h h' => Option.some.inj (h.symm.trans h')) ha hb

namespace Nested

theorem lt_of_below (h : f.Nested) (hb : f.Below s a) : a.index < s.index := by
  induction hb with
  | single hp => exact h _ _ hp
  | tail _ hp ih => exact Nat.lt_trans (h _ _ hp) ih

theorem not_below_self (h : f.Nested) : ¬ f.Below s s := fun hb => Nat.lt_irrefl _ (h.lt_of_below hb)

theorem not_below_of_within (h : f.Nested) (hw : f.Within s a) : ¬ f.Below a s :=
  fun hb => h.not_below_self (hb.trans_within hw)

theorem eq_of_within (h : f.Nested) (hw : f.Within s a) (hw' : f.Within a s) : s = a :=
  (within_iff.mp hw).resolve_right fun hb => h.not_below_of_within hw' hb

/-- Induction from the outermost scopes inward. -/
theorem inward (h : f.Nested) {motive : ScopeId → Prop}
    (outermost : ∀ s, f.parent? s = none → motive s)
    (inner : ∀ s p, f.parent? s = some p → motive p → motive s) (s : ScopeId) : motive s := by
  generalize hn : s.index = n
  induction n using Nat.strongRecOn generalizing s with
  | ind n ih =>
    cases hp : f.parent? s with
    | none => exact outermost s hp
    | some p => exact inner s p hp (ih _ (hn ▸ h s p hp) p rfl)

/-- The bound of a chain does not matter, as parents come first. -/
theorem chain_eq (h : f.Nested) {m : Nat} : ∀ {n} {s : ScopeId}, s.index < n → s.index < m →
    f.chain n (some s) = f.chain m (some s) := by
  induction m with
  | zero => simp
  | succ m ih =>
    intro n s hn hm
    obtain ⟨n, rfl⟩ := Nat.exists_eq_succ_of_ne_zero (Nat.ne_zero_of_lt hn)
    cases hp : f.parent? s with
    | none => cases n <;> cases m <;> simp [chain, hp]
    | some p =>
      have hlt := h s p hp
      simp only [chain, hp]
      rw [ih (by omega) (by omega)]

theorem lineage_of_parent? (h : f.Nested) (hp : f.parent? s = some p) :
    f.lineage s = s :: f.lineage p := by
  have hlt := h s p hp
  rw [lineage, chain, hp, h.chain_eq hlt (Nat.lt_succ_self _)]
  rfl

end Nested

theorem nested_iff : f.Nested ↔ ∀ i : Fin f.all.size, ∀ p ∈ f.all[i].parent, p.index < i := by
  constructor
  · intro h i p hp
    exact h ⟨i⟩ p (by simpa [parent?, get?] using hp)
  · intro h s p hp
    obtain ⟨scope, hs, hparent⟩ := Option.bind_eq_some_iff.mp hp
    obtain ⟨hlt, rfl⟩ := Array.getElem?_eq_some_iff.mp hs
    exact h ⟨s.index, hlt⟩ p hparent

instance : Decidable f.Nested := decidable_of_iff _ nested_iff.symm

theorem lineage_outermost (hp : f.parent? s = none) : f.lineage s = [s] := by
  rw [lineage, chain, hp]
  cases s.index <;> rfl

theorem Nested.mem_lineage_iff (h : f.Nested) : a ∈ f.lineage s ↔ f.Within s a := by
  induction s using h.inward with
  | outermost s hp =>
    rw [lineage_outermost hp, within_iff]
    simp [not_below_of_parent? hp, eq_comm]
  | inner s p hp ih =>
    rw [h.lineage_of_parent? hp, List.mem_cons, ih, within_of_parent? hp, eq_comm]

section read

theorem read_of_own? (h : f.own? s name = some v) : f.read s name = some v := by
  simp [read, lineage, chain, h]

theorem Nested.read_of_own?_none (h : f.Nested) (hs : f.own? s name = none) :
    f.read s name = f.outer? s name := by
  cases hp : f.parent? s with
  | none => simp [read, outer?, lineage_outermost hp, hp, hs]
  | some p => simp [read, outer?, h.lineage_of_parent? hp, hp, hs]

/-- Around a scope a name means the nearest binding there. -/
theorem NearestAround.outer? (hn : f.NearestAround name s a v) (h : f.Nested) :
    f.outer? s name = some v := by
  induction s using h.inward with
  | outermost s hp => exact absurd hn.below (not_below_of_parent? hp)
  | inner s p hp ih =>
    rw [Scopes.outer?, hp]
    rcases within_iff.mp ((below_of_parent? hp).mp hn.below) with rfl | hb
    · exact read_of_own? hn.binds
    · have hsp : f.Below s p := .single hp
      have hcloser : f.NearestAround name p a v :=
        ⟨hb, hn.binds, fun x hx => hn.free x (hsp.trans_within hx.within)⟩
      exact (h.read_of_own?_none (hn.free p hsp hb)).trans (ih hcloser)

/-- A name that nothing around a scope binds means a builtin there. -/
theorem Nested.outer?_of_unbound (h : f.Nested) (hs : ∀ a, f.Below s a → f.own? a name = none) :
    f.outer? s name = f.builtins.get? name := by
  induction s using h.inward with
  | outermost s hp => rw [outer?, hp]
  | inner s p hp ih =>
    have hsp : f.Below s p := .single hp
    rw [outer?, hp]
    exact (h.read_of_own?_none (hs p hsp)).trans (ih fun a ha => hs a (hsp.trans_within ha.within))

/-- Nothing around a scope binds a name, or a nearest one of the scopes around it does. -/
theorem Nested.exists_nearest (h : f.Nested) (s : ScopeId) (name : String) :
    (∀ a, f.Below s a → f.own? a name = none) ∨ ∃ a v, f.NearestAround name s a v := by
  induction s using h.inward with
  | outermost s hp => exact .inl fun a ha => absurd ha (not_below_of_parent? hp)
  | inner s p hp ih =>
    have hsp : f.Below s p := .single hp
    cases hown : f.own? p name with
    | some v =>
      refine .inr ⟨p, v, hsp, hown, fun x hx hxp => ?_⟩
      exact absurd hxp (h.not_below_of_within ((below_of_parent? hp).mp hx))
    | none =>
      rcases ih with hfree | ⟨a, v, hnear⟩
      · refine .inl fun a ha => ?_
        rcases within_iff.mp ((below_of_parent? hp).mp ha) with rfl | ha
        · exact hown
        · exact hfree a ha
      · refine .inr ⟨a, v, hsp.trans_within hnear.below.within, hnear.binds, fun x hx hxa => ?_⟩
        rcases within_iff.mp ((below_of_parent? hp).mp hx) with rfl | hx
        · exact hown
        · exact hnear.free x hx hxa

end read

section exposes

theorem Nested.exposes_self (h : f.Nested) : f.Exposes name a a :=
  ⟨.refl, fun _ hw hb => absurd hb (h.not_below_of_within hw)⟩

theorem Exposes.own? (h : f.Exposes name a t) (hne : t ≠ a) : f.own? t name = none :=
  h.free t .refl ((within_iff.mp h.within).resolve_left hne)

theorem exposes_of_parent? (hp : f.parent? t = some p) (hne : t ≠ a) :
    f.Exposes name a t ↔ f.own? t name = none ∧ f.Exposes name a p := by
  constructor
  · intro h
    have hw := ((within_of_parent? hp).mp h.within).resolve_left hne
    exact ⟨h.own? hne, hw, fun x hx => h.free x (hx.head hp)⟩
  · rintro ⟨hown, h⟩
    refine ⟨h.within.head hp, fun x hx hxa => ?_⟩
    rcases (within_of_parent? hp).mp hx with rfl | hx
    · exact hown
    · exact h.free x hx hxa

/-- Where a binding is in sight, a name means what it means where the binding is. -/
theorem Exposes.read (he : f.Exposes name a t) (h : f.Nested) : f.read t name = f.read a name := by
  induction t using h.inward with
  | outermost t hp => rw [(within_iff.mp he.within).resolve_right (not_below_of_parent? hp)]
  | inner t p hp ih =>
    by_cases hne : t = a
    · rw [hne]
    · obtain ⟨hown, hep⟩ := (exposes_of_parent? hp hne).mp he
      rw [h.read_of_own?_none hown, outer?, hp]
      exact ih hep

end exposes

end Hypermedia.Script.Scopes
