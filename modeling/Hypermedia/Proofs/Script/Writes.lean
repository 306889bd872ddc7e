import Hypermedia.Proofs.Lists
import Hypermedia.Proofs.Script.Nesting

/-! What a write of a name does: where it goes, and from where it is seen. -/
namespace Hypermedia.Script

namespace Scope

variable {s : Scope} {name m : String} {value : Value}

/-- A scope without its bindings of a name. -/
def without (name : String) (s : Scope) : Scope :=
  { s with bindings := s.bindings.filter (·.1 != name) }

theorem lookup_filter (l : List (String × Value)) :
    (l.filter (·.1 != name)).lookup m = if m = name then none else l.lookup m := by
  induction l with
  | nil => simp
  | cons b l ih =>
    obtain ⟨key, old⟩ := b
    by_cases hkey : key = name
    · simp only [List.filter_cons, hkey, bne_self_eq_false, Bool.false_eq_true, if_false, ih,
        lookup_cons_eq]
      split <;> rfl
    · have hkept : (key != name) = true := bne_iff_ne.mpr hkey
      simp only [List.filter_cons, hkept, if_true, lookup_cons_eq, ih]
      by_cases hm : m = key
      · simp [hm, hkey]
      · simp [hm]

theorem lookup_bindIn (l : List (String × Value)) :
    (bindIn name value l).lookup m = if m = name then some value else l.lookup m := by
  induction l with
  | nil => rw [bindIn, lookup_cons_eq]
  | cons b l ih =>
    obtain ⟨key, old⟩ := b
    by_cases hkey : key = name
    · simp only [bindIn, hkey, if_true, lookup_cons_eq]
      split <;> rfl
    · simp only [bindIn, hkey, if_false, lookup_cons_eq, ih]
      by_cases hm : m = key
      · simp [hm, hkey]
      · simp [hm]

theorem filter_bindIn (l : List (String × Value)) :
    (bindIn name value l).filter (·.1 != name) = l.filter (·.1 != name) := by
  induction l with
  | nil => simp [bindIn]
  | cons b l ih =>
    obtain ⟨key, old⟩ := b
    by_cases hkey : key = name <;> simp_all [bindIn]

theorem lookup_bind (s : Scope) : (s.bind name value).bindings.lookup m =
    if m = name then (if value.isNil then none else some value) else s.bindings.lookup m := by
  unfold bind
  split
  · exact lookup_filter _
  · exact lookup_bindIn _

theorem without_bind (s : Scope) : (s.bind name value).without name = s.without name := by
  unfold bind
  split
  · simp [without]
  · simp [without, filter_bindIn]

end Scope

namespace Scopes

variable {f g : Scopes} {s t o p a b x : ScopeId} {name m : String} {value v w : Value}

/-- Where a write of a name from `s` goes. -/
inductive WritesTo (f : Scopes) (s : ScopeId) (name : String) : ScopeId → Prop where
  | own (h : (f.own? s name).isSome) : f.WritesTo s name s
  | unbound (h : ∀ a, f.Below s a → f.own? a name = none) : f.WritesTo s name s
  /-- A function around the scope is not overwritten but covered. -/
  | covering {a : ScopeId} {v : Value} (h : f.NearestAround name s a v) (hv : v.isCallable = true) : f.WritesTo s name s
  | outward {a : ScopeId} {v : Value} (hs : f.own? s name = none)
      (h : f.NearestAround name s a v) (hv : v.isCallable = false) : f.WritesTo s name a

/-- `g` is `f` but for what `o` binds a name to. -/
structure Rebinds (f g : Scopes) (o : ScopeId) (name : String) : Prop where
  size : g.all.size = f.all.size
  builtins : g.builtins = f.builtins
  others : ∀ t, t ≠ o → g.get? t = f.get? t
  owner : (g.get? o).map (·.without name) = (f.get? o).map (·.without name)

section owner

theorem tail_lineage (h : f.Nested) (s : ScopeId) :
    (f.lineage s).tail = ((f.parent? s).map f.lineage).getD [] := by
  cases hp : f.parent? s with
  | none => rw [lineage_outermost hp]; rfl
  | some p => rw [h.lineage_of_parent? hp]; rfl

theorem nearestData_of_unbound (h : f.Nested) (hs : ∀ a, f.Below s a → f.own? a name = none) :
    f.nearestData name (f.lineage s).tail = none := by
  induction s using h.inward with
  | outermost s hp => simp [tail_lineage h, hp, nearestData]
  | inner s p hp ih =>
    have hsp : f.Below s p := .single hp
    have hrest := ih fun a ha => hs a (hsp.trans_within ha.within)
    rw [tail_lineage h, hp]
    change f.nearestData name (p :: (f.lineage p).tail) = none
    simp [nearestData, hs p hsp, hrest]

theorem NearestAround.nearestData (hn : f.NearestAround name s a v) (h : f.Nested) :
    f.nearestData name (f.lineage s).tail = if v.isCallable then none else some a := by
  induction s using h.inward with
  | outermost s hp => exact absurd hn.below (not_below_of_parent? hp)
  | inner s p hp ih =>
    have hsp : f.Below s p := .single hp
    rw [tail_lineage h, hp]
    change f.nearestData name (p :: (f.lineage p).tail) = _
    rcases within_iff.mp ((below_of_parent? hp).mp hn.below) with rfl | hb
    · simp [Scopes.nearestData, hn.binds]
    · have hrest := ih ⟨hb, hn.binds, fun x hx => hn.free x (hsp.trans_within hx.within)⟩
      simp [Scopes.nearestData, hn.free p hsp hb, hrest]

/-- The owner is the one scope that a write goes to. -/
theorem writesTo_iff (h : f.Nested) : f.WritesTo s name a ↔ a = f.owner s name := by
  have sound : ∀ a, f.WritesTo s name a → a = f.owner s name := by
    intro a ha
    unfold owner
    split
    · rename_i hown
      cases ha with
      | outward hs => simp [hs] at hown
      | own | unbound | covering => rfl
    · rename_i hown
      cases ha with
      | own h => exact absurd h hown
      | unbound hfree => rw [nearestData_of_unbound h hfree]; rfl
      | covering hn hv => rw [hn.nearestData h, if_pos hv]; rfl
      | outward hs hn hv => rw [hn.nearestData h, hv]; rfl
  have total : ∃ a, f.WritesTo s name a := by
    cases hs : f.own? s name with
    | some v => exact ⟨s, .own (by simp [hs])⟩
    | none =>
      rcases h.exists_nearest s name with hfree | ⟨a, v, hn⟩
      · exact ⟨s, .unbound hfree⟩
      · cases hv : v.isCallable with
        | true => exact ⟨s, .covering hn hv⟩
        | false => exact ⟨a, .outward hs hn hv⟩
  obtain ⟨b, hb⟩ := total
  exact ⟨sound a, fun ha => ha ▸ sound b hb ▸ hb⟩

/-- A scope has the binding it writes in sight. -/
theorem exposes_owner (h : f.Nested) (s : ScopeId) (name : String) :
    f.Exposes name (f.owner s name) s := by
  have hwrites : f.WritesTo s name (f.owner s name) := (writesTo_iff h).mpr rfl
  generalize f.owner s name = o at hwrites
  cases hwrites with
  | own | unbound | covering => exact h.exposes_self
  | outward hs hn =>
    refine ⟨hn.below.within, fun x hx hxa => ?_⟩
    rcases within_iff.mp hx with rfl | hx
    · exact hs
    · exact hn.free x hx hxa

theorem index_owner_le (h : f.Nested) (s : ScopeId) (name : String) :
    (f.owner s name).index ≤ s.index := by
  rcases within_iff.mp (exposes_owner h s name).within with heq | hb
  · exact Nat.le_of_eq (congrArg _ heq.symm)
  · exact Nat.le_of_lt (h.lt_of_below hb)

end owner

section rebinds

theorem get?_modify (f : Scopes) (o : ScopeId) (k : Scope → Scope) (t : ScopeId) :
    (f.modify o k).get? t = if t = o then (f.get? o).map k else f.get? t := by
  obtain ⟨o⟩ := o
  obtain ⟨t⟩ := t
  by_cases heq : t = o
  · simp [modify, get?, Array.getElem?_modify, heq]
  · simp [modify, get?, Array.getElem?_modify, heq, Ne.symm heq]

theorem rebinds_define (f : Scopes) (o : ScopeId) (name : String) (value : Value) :
    f.Rebinds (f.define o name value).2 o name := by
  refine ⟨by simp [define, modify], rfl, fun t ht => ?_, ?_⟩
  · simp [define, get?_modify, ht]
  · simp [define, get?_modify, Function.comp_def, Scope.without_bind]

theorem own?_define (ho : o.index < f.all.size) :
    (f.define o name value).2.own? o name = if value.isNil then none else some value := by
  have hget : f.get? o = some f.all[o.index] := by simp [get?, ho]
  simp [define, own?, get?_modify, hget, Scope.lookup_bind]

namespace Rebinds

variable (h : f.Rebinds g o name)

include h

theorem parent? (t : ScopeId) : g.parent? t = f.parent? t := by
  by_cases ht : t = o
  · have hparent := congrArg (Option.bind · Scope.parent) h.owner
    simpa [Scopes.parent?, ht, Option.bind_map, Function.comp_def, Scope.without] using hparent
  · simp [Scopes.parent?, h.others t ht]

theorem own? (hm : ¬ (m = name ∧ t = o)) : g.own? t m = f.own? t m := by
  by_cases ht : t = o
  · have hm : m ≠ name := fun he => hm ⟨he, ht⟩
    have hlookup := congrArg (Option.bind · fun s => s.bindings.lookup m) h.owner
    simpa [Scopes.own?, ht, Option.bind_map, Function.comp_def, Scope.without, Scope.lookup_filter,
      hm] using hlookup
  · simp [Scopes.own?, h.others t ht]

theorem isInside : g.IsInside = f.IsInside := by
  funext s p
  simp [IsInside, h.parent?]

theorem within : g.Within s a ↔ f.Within s a := by rw [Within, h.isInside]; rfl

theorem below : g.Below s a ↔ f.Below s a := by rw [Below, h.isInside]; rfl

theorem nested (hf : f.Nested) : g.Nested := fun s p hp => hf s p (h.parent? s ▸ hp)

theorem exposes (hf : f.Nested) : g.Exposes name o t ↔ f.Exposes name o t := by
  -- the way to the owner ends below it, where nothing is bound anew
  have hown : ∀ x, f.Below x o → g.own? x name = f.own? x name := fun x hx =>
    h.own? fun hm => hf.not_below_self (hm.2 ▸ hx)
  constructor
  · intro he
    refine ⟨h.within.mp he.within, fun x hx hxo => ?_⟩
    rw [← hown x hxo]
    exact he.free x (h.within.mpr hx) (h.below.mpr hxo)
  · intro he
    refine ⟨h.within.mpr he.within, fun x hx hxo => ?_⟩
    rw [hown x (h.below.mp hxo)]
    exact he.free x (h.within.mp hx) (h.below.mp hxo)

/-- Where the binding is not in sight, names keep their meaning. -/
theorem read_of_not_exposes (hf : f.Nested) (hm : ¬ (m = name ∧ f.Exposes name o t)) :
    g.read t m = f.read t m := by
  induction t using hf.inward with
  | outermost t hp =>
    have hown : g.own? t m = f.own? t m := h.own? fun he => hm ⟨he.1, he.2 ▸ hf.exposes_self⟩
    cases hv : f.own? t m with
    | some v => rw [read_of_own? hv, read_of_own? (hown.trans hv)]
    | none =>
      rw [hf.read_of_own?_none hv, (h.nested hf).read_of_own?_none (hown.trans hv), outer?, outer?,
        h.parent?, hp, h.builtins]
  | inner t p hp ih =>
    have hne : m = name → t ≠ o := fun he hto => hm ⟨he, hto ▸ hf.exposes_self⟩
    have hown : g.own? t m = f.own? t m := h.own? fun he => hne he.1 he.2
    cases hv : f.own? t m with
    | some v => rw [read_of_own? hv, read_of_own? (hown.trans hv)]
    | none =>
      rw [hf.read_of_own?_none hv, (h.nested hf).read_of_own?_none (hown.trans hv), outer?, outer?,
        h.parent?, hp]
      refine ih fun he => hm ⟨he.1, ?_⟩
      exact (exposes_of_parent? hp (hne he.1)).mpr ⟨he.1 ▸ hv, he.2⟩

/-- Where the binding is in sight, the name means what the owner now binds it to. -/
theorem read_of_exposes (hf : f.Nested) (he : f.Exposes name o t) (ho : g.own? o name = some v) :
    g.read t name = some v :=
  (((h.exposes hf).mpr he).read (h.nested hf)).trans (read_of_own? ho)

/-- A binding taken away brings back what the name means around the owner. -/
theorem read_of_unbound (hf : f.Nested) (he : f.Exposes name o t) (ho : g.own? o name = none) :
    g.read t name = f.outer? o name := by
  rw [((h.exposes hf).mpr he).read (h.nested hf), (h.nested hf).read_of_own?_none ho, outer?, outer?,
    h.parent?]
  cases hp : f.parent? o with
  | none => rw [h.builtins]
  | some p =>
    refine h.read_of_not_exposes hf fun hm => ?_
    exact hf.not_below_of_within hm.2.within (.single hp)

end Rebinds

end rebinds

/-- What a write of a name from a scope does. It goes to the one scope that the rule for owners gives and
changes nothing but the owner's binding of the name. It is seen from exactly the scopes that have this
binding in sight, the writing one among them; `nil` brings back there what the name means around the
owner. -/
theorem assign_law (h : f.Nested) (hs : s.index < f.all.size) (name : String) (value : Value) :
    let o := f.owner s name
    let g := (f.assign s name value).2
    (∀ a, f.WritesTo s name a ↔ a = o) ∧ f.Rebinds g o name ∧
      g.own? o name = (if value.isNil then none else some value) ∧
      (∀ t m, ¬ (m = name ∧ t = o) → g.own? t m = f.own? t m) ∧
      (∀ t m, ¬ (m = name ∧ f.Exposes name o t) → g.read t m = f.read t m) ∧
      (value.isNil = false →
        g.read s name = some value ∧ ∀ t, f.Exposes name o t → g.read t name = some value) ∧
      (value.isNil = true → f.Exposes name o s ∧ ∀ t, f.Exposes name o t →
        (∀ a v, f.NearestAround name o a v → g.read t name = some v) ∧
        ((∀ a, f.Below o a → f.own? a name = none) → g.read t name = f.builtins.get? name)) := by
  intro o g
  have hrebinds : f.Rebinds g o name := rebinds_define f o name value
  have hown : g.own? o name = if value.isNil then none else some value :=
    own?_define (Nat.lt_of_le_of_lt (index_owner_le h s name) hs)
  have hsight : f.Exposes name o s := exposes_owner h s name
  refine ⟨fun a => writesTo_iff h, hrebinds, hown, fun t m => hrebinds.own?,
    fun t m => hrebinds.read_of_not_exposes h, fun hvalue => ?_, fun hnil => ?_⟩
  · rw [hvalue] at hown
    have hnew : ∀ t, f.Exposes name o t → g.read t name = some value :=
      fun t ht => hrebinds.read_of_exposes h ht hown
    exact ⟨hnew s hsight, hnew⟩
  · rw [hnil] at hown
    refine ⟨hsight, fun t ht => ⟨fun a v hn => ?_, fun hfree => ?_⟩⟩
    · exact (hrebinds.read_of_unbound h ht hown).trans (hn.outer? h)
    · exact (hrebinds.read_of_unbound h ht hown).trans (h.outer?_of_unbound hfree)

/-- A scope that binds `x`, one within it that does not, and two within that one, of which the first binds
`x` as well. All but the second are told of changes to `x`. -/
def shadowed : Scopes where
  all := #[{ bindings := [("x", .bool false)], listeners := [("x", .function ⟨0⟩)] },
    { parent := some ⟨0⟩ },
    { parent := some ⟨1⟩, bindings := [("x", .table ⟨0⟩)], listeners := [("x", .function ⟨1⟩)] },
    { parent := some ⟨1⟩, listeners := [("x", .function ⟨2⟩)] }]

theorem assign_law_shadowed :
    shadowed.Nested ∧ 1 < shadowed.all.size ∧ shadowed.WritesTo ⟨1⟩ "x" ⟨0⟩ ∧
      (shadowed.assign ⟨1⟩ "x" (.bool true)).2.read ⟨3⟩ "x" = some (.bool true) ∧
      (shadowed.assign ⟨1⟩ "x" (.bool true)).2.read ⟨2⟩ "x" = shadowed.read ⟨2⟩ "x" := by
  have hnested : shadowed.Nested := by decide
  have howner : shadowed.owner ⟨1⟩ "x" = ⟨0⟩ := by decide
  obtain ⟨hto, -, -, -, hkept, hnew, -⟩ :=
    assign_law (s := ⟨1⟩) hnested (by decide) "x" (.bool true)
  rw [howner] at hto hkept hnew
  have hsibling : shadowed.Exposes "x" ⟨0⟩ ⟨3⟩ :=
    (exposes_of_parent? rfl (by decide)).mpr ⟨rfl,
      (exposes_of_parent? rfl (by decide)).mpr ⟨rfl, hnested.exposes_self⟩⟩
  have hcovered : ¬ shadowed.Exposes "x" ⟨0⟩ ⟨2⟩ := fun he =>
    absurd (he.own? (by decide)) (by simp [own?, get?, shadowed])
  exact ⟨hnested, by decide, (hto ⟨0⟩).mpr rfl, (hnew rfl).2 _ hsibling,
    hkept _ _ fun he => hcovered he.2⟩

end Scopes

end Hypermedia.Script
