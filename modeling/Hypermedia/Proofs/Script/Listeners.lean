import Hypermedia.Proofs.Script.Writes

/-! Who is told of a change: the listeners of the scopes that have the changed binding in sight. -/
namespace Hypermedia.Script.Scopes

open Relation (TransGen ReflTransGen)

/-- The scope whose binding a name means in a scope. -/
def source? (f : Scopes) (s : ScopeId) (name : String) : Option ScopeId :=
  (f.lineage s).find? fun a => (f.own? a name).isSome

/-- Scopes of one parent, the first made before the second. -/
structure Elder (f : Scopes) (s t : ScopeId) : Prop where
  parent : ∃ p, f.parent? s = some p ∧ f.parent? t = some p
  lt : s.index < t.index

/-- The order of a forest: a scope precedes what is below it, and all within a scope precedes all within
those that were made later in the same parent. -/
inductive Precedes (f : Scopes) (s t : ScopeId) : Prop where
  | around (h : f.Below t s)
  | elder {a b : ScopeId} (h : f.Elder a b) (hs : f.Within s a) (ht : f.Within t b)

variable {f g : Scopes} {s t o p a b x : ScopeId} {name : String} {value v : Value}
  {isAlive : ScopeId → Bool} {c : Change}

section source

theorem read_eq_source (f : Scopes) (s : ScopeId) (name : String) :
    f.read s name = match f.source? s name with
      | some a => f.own? a name
      | none => f.builtins.get? name := by
  have hfirst : ∀ l : List ScopeId, l.findSome? (f.own? · name) =
      (l.find? fun a => (f.own? a name).isSome).bind (f.own? · name) := by
    intro l
    induction l with
    | nil => rfl
    | cons a l ih => cases ha : f.own? a name <;> simp [ha, ih]
  rw [read, hfirst, source?]
  cases hs : (f.lineage s).find? fun a => (f.own? a name).isSome with
  | none => rfl
  | some a =>
    have ha : (f.own? a name).isSome = true :=
      List.find?_some (p := fun a => (f.own? a name).isSome) hs
    obtain ⟨v, hv⟩ := Option.isSome_iff_exists.mp ha
    simp [hv]

end source

section order

theorem Elder.disjoint (h : f.Nested) (he : f.Elder a b) (ha : f.Within t a) : ¬ f.Within t b := by
  obtain ⟨⟨p, hap, hbp⟩, hlt⟩ := he
  intro hb
  rcases ha.total hb with hab | hba
  · rcases (within_of_parent? hap).mp hab with rfl | hpb
    · exact absurd hlt (Nat.lt_irrefl _)
    · exact h.not_below_of_within hpb (.single hbp)
  · rcases (within_of_parent? hbp).mp hba with rfl | hpa
    · exact absurd hlt (Nat.lt_irrefl _)
    · exact h.not_below_of_within hpa (.single hap)

theorem Precedes.asymm (hp : f.Precedes s t) (h : f.Nested) : ¬ f.Precedes t s := by
  intro hq
  cases hp with
  | around hts =>
    cases hq with
    | around hst => exact h.not_below_self (hts.trans_within hst.within)
    | elder he ht hs => exact he.disjoint h ht (hts.within.trans hs)
  | @elder a b he hs ht =>
    cases hq with
    | around hst => exact he.disjoint h hs (hst.within.trans ht)
    | @elder c d he' ht' hs' =>
      obtain ⟨⟨p, hap, hbp⟩, hab⟩ := he
      obtain ⟨⟨q, hcq, hdq⟩, hcd⟩ := he'
      -- `a` and `d` both have `s` within them, so one is in the other
      rcases hs.total hs' with had | hda
      · rcases (within_of_parent? hap).mp had with rfl | hpd
        · have hqp : q = p := Option.some.inj (hdq.symm.trans hap)
          exact Elder.disjoint h ⟨⟨p, hqp ▸ hcq, hbp⟩, Nat.lt_trans hcd hab⟩ ht' ht
        · exact Elder.disjoint h ⟨⟨q, hcq, hdq⟩, hcd⟩ ht' ((ht.tail hbp).trans hpd)
      · rcases (within_of_parent? hdq).mp hda with rfl | hqa
        · have hqp : q = p := Option.some.inj (hdq.symm.trans hap)
          exact Elder.disjoint h ⟨⟨p, hqp ▸ hcq, hbp⟩, Nat.lt_trans hcd hab⟩ ht' ht
        · exact Elder.disjoint h ⟨⟨p, hap, hbp⟩, hab⟩ ((ht'.tail hcq).trans hqa) ht

theorem Precedes.ne (hp : f.Precedes s t) (h : f.Nested) : s ≠ t := by
  rintro rfl
  exact hp.asymm h hp

end order

section visited

/-- What a binding in an inner scope without one has in sight, the scope around it has in sight. -/
theorem Exposes.outward {c : ScopeId} (he : f.Exposes name c t) (h : f.Nested) (hp : f.parent? c = some p)
    (hc : f.own? c name = none) : f.Exposes name p t := by
  refine ⟨he.within.tail hp, fun x hx hxp => ?_⟩
  rcases hx.total he.within with hxc | hcx
  · rcases within_iff.mp hxc with rfl | hxc
    · exact hc
    · exact he.free x hx hxc
  · rcases (within_of_parent? hp).mp hcx with rfl | hpx
    · exact hc
    · exact absurd hxp (h.not_below_of_within hpx)

/-- Below a scope that has a binding in sight, the next scope inward has it in sight as well. -/
theorem Exposes.inward (he : f.Exposes name p t) (hne : t ≠ p) :
    ∃ c, f.parent? c = some p ∧ f.own? c name = none ∧ f.Exposes name c t := by
  have hb : f.Below t p := (within_iff.mp he.within).resolve_left hne
  obtain ⟨c, htc, hcp⟩ := TransGen.tail'_iff.mp hb
  exact ⟨c, hcp, he.free c htc (.single hcp), htc, fun x hx hxc => he.free x hx (hxc.tail hcp)⟩

end visited

theorem isHeld_iff (h : f.Nested) {held : List ScopeId} :
    f.isHeld held s = true ↔ ∃ a ∈ held, f.Within a s := by
  simp [isHeld, h.mem_lineage_iff]

/-- Of the scopes that are held none is held without the one around it. -/
theorem isHeld_parent (h : f.Nested) {held : List ScopeId} (hp : f.parent? s = some p)
    (hs : f.isHeld held s = true) : f.isHeld held p = true := by
  obtain ⟨a, ha, hw⟩ := (isHeld_iff h).mp hs
  exact (isHeld_iff h).mpr ⟨a, ha, hw.tail hp⟩

end Hypermedia.Script.Scopes
