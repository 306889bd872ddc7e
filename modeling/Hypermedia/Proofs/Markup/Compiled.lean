import Hypermedia.Proofs.Markup.Expansion
import Hypermedia.Proofs.Markup.Fragments
import Hypermedia.Proofs.Tree.Places
import Mathlib

/-! What compiling makes: the widgets of a fragment mirror the element with its components expanded, and
are listed as they are walked; where it fails, the tree is as it was. -/
namespace Hypermedia.Markup

open Effect (Gives)
open Hypermedia.Tree (places)

variable {s t u : Building} {p id x c : WidgetId} {m : Node} {ms ns : List Node}
  {ids opened more : List WidgetId}

section agrees

variable {inside : WidgetId → Prop} {t u : Tree}

mutual

/-- Widgets that mirror an element still do where all below them is the same. -/
theorem Mirrors.agrees (h : t.Agrees inside u) (m : Node) (id : WidgetId) (hid : inside id)
    (hm : Mirrors t m id) : Mirrors u m id := by
  cases m with
  | mk tag attributes text children tail =>
    rw [Mirrors] at hm ⊢
    obtain ⟨w, hw, hkind, hall⟩ := hm
    have hbody : u.body? id = some (w.kind, w.children) := by
      rw [h.same id hid, Tree.body?, hw]
      rfl
    obtain ⟨v, hv, heq⟩ := Option.map_eq_some_iff.mp hbody
    obtain ⟨hvkind, hvchildren⟩ := Prod.mk.inj heq
    have hcs : ∀ c ∈ w.children, inside c := by
      have hclosed := h.closed id hid
      rwa [Tree.children, hw] at hclosed
    refine ⟨v, hv, hvkind ▸ hkind, ?_⟩
    rw [hvchildren]
    exact MirrorsAll.agrees h children w.children hcs hall

theorem MirrorsAll.agrees (h : t.Agrees inside u) (ms : List Node) (ids : List WidgetId)
    (hids : ∀ id ∈ ids, inside id) (hms : MirrorsAll t ms ids) : MirrorsAll u ms ids := by
  cases ms with
  | nil => rwa [MirrorsAll] at hms ⊢
  | cons m ms =>
    rw [MirrorsAll] at hms ⊢
    split
    · next haside =>
      rw [if_pos haside] at hms
      exact MirrorsAll.agrees h ms ids hids hms
    · next haside =>
      rw [if_neg haside] at hms
      obtain ⟨id, others, rfl, hid, hothers⟩ := hms
      obtain ⟨hinside, hrest⟩ := List.forall_mem_cons.mp hids
      exact ⟨id, others, rfl, Mirrors.agrees h m id hinside hid,
        MirrorsAll.agrees h ms others hrest hothers⟩

end

end agrees

/-- `t` is `s` with widgets at the next places, which are listed in the order of their places; of the old
widgets only those in `opened` have changed, and none has moved. -/
structure Building.Outgrows (s t : Building) (opened : List WidgetId) : Prop where
  sane : t.tree.Sane
  size_le : s.tree.slots.size ≤ t.tree.slots.size
  root : t.tree.root = s.tree.root
  pinned : t.tree.pinned = s.tree.pinned
  widgets : t.widgets = s.widgets ++ places s.tree.slots.size t.tree.slots.size
  live : ∀ x, s.tree.Unused x → ¬ t.tree.Unused x → t.tree.contains x = true
  contains : ∀ x, ¬ s.tree.Unused x → t.tree.contains x = s.tree.contains x
  parent? : ∀ x, ¬ s.tree.Unused x → t.tree.parent? x = s.tree.parent? x
  get?_eq : ∀ x, ¬ s.tree.Unused x → x ∉ opened → t.tree.get? x = s.tree.get? x

/-- `t` has grown from `s` by the widgets that stand for an element, the first of them without a parent. -/
structure Building.Roots (m : Node) (s : Building) (id : WidgetId) (t : Building) : Prop where
  outgrows : s.Outgrows t []
  index : id.index = s.tree.slots.size
  used : ¬ t.tree.Unused id
  top : t.tree.parent? id = none
  mirrors : Mirrors t.tree m id
  walk : ∀ k, t.tree.slots.size ≤ k + s.tree.slots.size →
    t.tree.walk k id = places s.tree.slots.size t.tree.slots.size

/-- `t` has grown from `s` by the widgets that stand for elements, as the last children of `p`. -/
structure Building.Fills (ms : List Node) (p : WidgetId) (ids : List WidgetId) (s t : Building) :
    Prop where
  outgrows : s.Outgrows t [p]
  parent : t.tree.get? p = (s.tree.get? p).map fun w => { w with children := w.children ++ ids }
  unused : ∀ c ∈ ids, s.tree.Unused c ∧ ¬ t.tree.Unused c
  mirrors : MirrorsAll t.tree ms ids
  walk : ∀ k, t.tree.slots.size ≤ k + s.tree.slots.size →
    ids.flatMap (t.tree.walk k) = places s.tree.slots.size t.tree.slots.size

namespace Building

section outgrows

/-- Rules alone are no growth. -/
theorem Outgrows.refl (hs : s.tree.Sane) (rules : Style.RuleMap) (opened : List WidgetId) :
    s.Outgrows { s with rules } opened where
  sane := hs
  size_le := Nat.le_refl _
  root := rfl
  pinned := rfl
  widgets := by
    dsimp only
    rw [Tree.places_self, List.append_nil]
  live _ hx hnot := absurd hx hnot
  contains _ _ := rfl
  parent? _ _ := rfl
  get?_eq _ _ _ := rfl

theorem Outgrows.used (h : s.Outgrows t opened) (hx : ¬ s.tree.Unused x) : ¬ t.tree.Unused x :=
  fun hnew => hx (hnew.of_size_le h.size_le)

theorem Outgrows.trans (h : s.Outgrows t opened) (k : t.Outgrows u more)
    (hmore : ∀ x ∈ more, x ∈ opened ∨ s.tree.Unused x) : s.Outgrows u opened where
  sane := k.sane
  size_le := Nat.le_trans h.size_le k.size_le
  root := k.root.trans h.root
  pinned := k.pinned.trans h.pinned
  widgets := by
    rw [k.widgets, h.widgets, List.append_assoc, Tree.places_append h.size_le k.size_le]
  live x hx hused := by
    by_cases hold : t.tree.Unused x
    · exact k.live x hold hused
    · exact (k.contains x hold).trans (h.live x hx hold)
  contains x hx := (k.contains x (h.used hx)).trans (h.contains x hx)
  parent? x hx := (k.parent? x (h.used hx)).trans (h.parent? x hx)
  get?_eq x hx hout := by
    have hout' : x ∉ more := fun hmem => (hmore x hmem).elim hout hx
    exact (k.get?_eq x (h.used hx) hout').trans (h.get?_eq x hx hout)

/-- The new widgets are linked to new ones only. -/
theorem Outgrows.closed (h : s.Outgrows t opened) (hs : s.tree.Sane) (hx : s.tree.Unused x)
    (hc : c ∈ t.tree.children x) : s.tree.Unused c ∧ ¬ t.tree.Unused c := by
  have hp := (h.sane.forest.mem_children_iff x c).mp hc
  refine ⟨?_, Tree.not_unused_of_contains (Tree.contains_of_parent? hp)⟩
  by_contra hold
  rw [h.parent? c hold] at hp
  exact Tree.not_unused_of_contains (hs.forest.contains_parent hp) hx

/-- Between two steps of growth the new widgets of the first stay as they are. -/
theorem Outgrows.agrees (h : s.Outgrows t opened) (hs : s.tree.Sane) {v : Tree}
    (hsame : ∀ x, s.tree.Unused x → ¬ t.tree.Unused x → v.body? x = t.tree.body? x) :
    t.tree.Agrees (fun x => s.tree.Unused x ∧ ¬ t.tree.Unused x) v where
  closed _ hx _ hc := h.closed hs hx.1 hc
  same x hx := hsame x hx.1 hx.2

theorem Outgrows.agrees_after (h : s.Outgrows t opened) (hs : s.tree.Sane) (k : t.Outgrows u more)
    (hmore : ∀ x ∈ more, ¬ s.tree.Unused x) :
    t.tree.Agrees (fun x => s.tree.Unused x ∧ ¬ t.tree.Unused x) u.tree :=
  h.agrees hs fun x hx hused => by
    rw [Tree.body?, k.get?_eq x hused fun hmem => hmore x hmem hx, Tree.body?]

/-- A change of a widget that keeps its links. -/
theorem outgrows_modify (id : WidgetId) {f : Widget → Widget} (hs : s.tree.Sane)
    (hf : ∀ w, s.tree.get? id = some w → (f w).SameLinks w) :
    s.Outgrows { s with tree := s.tree.modify id f } [id] where
  sane := hs.modify hf
  size_le := Nat.le_of_eq Tree.size_modify.symm
  root := rfl
  pinned := rfl
  widgets := by
    dsimp only
    rw [Tree.size_modify, Tree.places_self, List.append_nil]
  live x hx hused := absurd (hx.of_size_le (Nat.le_of_eq Tree.size_modify)) hused
  contains x _ := Tree.contains_modify
  parent? x _ := (Tree.links_modify hf x).1
  get?_eq x _ hout := by
    dsimp only
    rw [Tree.get?_modify, if_neg fun heq => hout (List.mem_singleton.mpr heq)]

end outgrows

section fills

/-- Children that stand for no widget bring none. -/
theorem Fills.asides (hs : s.tree.Sane) (rules : Style.RuleMap) (hms : MirrorsAll s.tree ms []) :
    s.Fills ms p [] { s with rules } where
  outgrows := .refl hs rules _
  parent := by
    dsimp only
    cases s.tree.get? p <;> simp
  unused := nofun
  mirrors := hms
  walk _ _ := Tree.places_self.symm

theorem Fills.trans (hs : s.tree.Sane) (hp : ¬ s.tree.Unused p) (h : s.Fills ms p ids t)
    (k : t.Fills ns p more u) : s.Fills (ms ++ ns) p (ids ++ more) u where
  outgrows := h.outgrows.trans k.outgrows fun _ => .inl
  parent := by
    rw [k.parent, h.parent, Option.map_map]
    congr 1
    funext w
    simp
  unused := by
    refine List.forall_mem_append.mpr ⟨fun c hc => ?_, fun c hc => ?_⟩
    · exact ⟨(h.unused c hc).1, k.outgrows.used (h.unused c hc).2⟩
    · exact ⟨(k.unused c hc).1.of_size_le h.outgrows.size_le, (k.unused c hc).2⟩
  mirrors := by
    have hagrees := h.outgrows.agrees_after hs k.outgrows (List.forall_mem_singleton.mpr hp)
    exact (MirrorsAll.agrees hagrees ms ids h.unused h.mirrors).append k.mirrors
  walk n hn := by
    have hagrees := h.outgrows.agrees_after hs k.outgrows (List.forall_mem_singleton.mpr hp)
    have hfirst : ids.flatMap (u.tree.walk n) = ids.flatMap (t.tree.walk n) :=
      List.flatMap_congr fun c hc => hagrees.walk n (h.unused c hc)
    have hle := h.outgrows.size_le
    have hle' := k.outgrows.size_le
    rw [List.flatMap_append, hfirst, h.walk n (by omega), k.walk n (by omega),
      Tree.places_append hle hle']

end fills

section adopt

theorem admits_of_adopt (h : t.tree.Forest) (hr : Build.adopt p c t = (.ok (), u)) :
    t.tree.Admits p c ∧ u = { t with tree := (t.tree.append p c).2 } := by
  rw [Build.adopt, Effect.run_get_bind] at hr
  dsimp only at hr
  rw [Effect.run_set_bind] at hr
  cases hout : (t.tree.append p c).1 with
  | ok =>
    rw [hout] at hr
    cases hr
    exact ⟨h.insert_ok_iff.mp hout, rfl⟩
  | error e =>
    rw [hout] at hr
    cases hr

variable (hs : s.tree.Sane)

include hs

/-- A new widget that an old one takes. -/
theorem Outgrows.append (h : s.Outgrows t []) (hc : s.tree.Unused c) (ha : t.tree.Admits p c)
    (htop : t.tree.parent? c = none) :
    s.Outgrows { t with tree := (t.tree.append p c).2 } [p] := by
  have hforest := h.sane.forest
  have hsize : (t.tree.append p c).2.slots.size = t.tree.slots.size := Tree.size_insert
  have hne : ∀ x, ¬ s.tree.Unused x → x ≠ c := fun x hx heq => hx (heq ▸ hc)
  refine ⟨?_, ?_, ?_, ?_, ?_, fun x hx hused => ?_, fun x hx => ?_, fun x hx => ?_, fun x hx hout => ?_⟩
  · exact h.sane.leads (Tree.leads_append _ _ _) fun r hr => .inl (Tree.root_insert ▸ hr)
  · exact hsize ▸ h.size_le
  · exact Tree.root_insert.trans h.root
  · have hpin : c ∉ t.tree.pinned := fun hmem =>
      Tree.not_unused_of_contains (hs.pins.contains c (h.pinned ▸ hmem)) hc
    exact (hforest.pinned_insert ha).trans ((filter_ne_eq_self hpin).trans h.pinned)
  · exact hsize ▸ h.widgets
  · have hused : ¬ t.tree.Unused x := by rwa [Tree.Unused, hsize] at hused
    exact Tree.contains_insert.trans (h.live x hx hused)
  · exact Tree.contains_insert.trans (h.contains x hx)
  · have hparent := hforest.parent?_insert (i := (t.tree.children p).length) (x := x) ha
    rw [if_neg (hne x hx)] at hparent
    exact hparent.trans (h.parent? x hx)
  · have hxp : x ≠ p := fun heq => hout (List.mem_singleton.mpr heq)
    dsimp only
    rw [hforest.get?_append_of_top ha htop, h.get?_eq x hx List.not_mem_nil]
    simp [hxp, hne x hx]

/-- An element that is built and taken by its parent. -/
theorem Roots.adopt (hp : ¬ s.tree.Unused p) (h : s.Roots m c t) (hr : Build.adopt p c t = (.ok (), u)) :
    s.Fills [m] p [c] u := by
  have hc : s.tree.Unused c := Nat.le_of_eq h.index.symm
  have hpc : p ≠ c := fun heq => hp (heq ▸ hc)
  have hforest := h.outgrows.sane.forest
  obtain ⟨ha, rfl⟩ := admits_of_adopt hforest hr
  have hsize : (t.tree.append p c).2.slots.size = t.tree.slots.size := Tree.size_insert
  have hagrees := h.outgrows.agrees hs (v := (t.tree.append p c).2) fun x hx _ =>
    hforest.body?_append_of_top ha h.top fun heq => hp (heq ▸ hx)
  refine ⟨h.outgrows.append hs hc ha h.top, ?_, ?_, ?_, fun k hk => ?_⟩
  · dsimp only
    rw [hforest.get?_append_of_top ha h.top, h.outgrows.get?_eq p hp List.not_mem_nil]
    simp [hpc]
  · refine List.forall_mem_singleton.mpr ⟨hc, ?_⟩
    dsimp only
    rw [Tree.Unused, hsize]
    exact h.used
  · exact mirrorsAll_single (Mirrors.agrees hagrees m c ⟨hc, h.used⟩ h.mirrors)
  · dsimp only at hk ⊢
    rw [hsize] at hk ⊢
    rw [List.flatMap_singleton, hagrees.walk k ⟨hc, h.used⟩, h.walk k hk]

end adopt

section start

/-- `t` is `s` with a widget of a kind at the next place that has no links. -/
structure Starts (kind : Widget.Kind) (s : Building) (id : WidgetId) (t : Building) : Prop where
  outgrows : s.Outgrows t []
  index : id.index = s.tree.slots.size
  size : t.tree.slots.size = s.tree.slots.size + 1
  widget : ∃ w, t.tree.get? id = some w ∧ w.kind = kind ∧ w.parent = none ∧ w.children = []

theorem outgrows_with (hs : s.tree.Sane) {w : Widget} (hw : w.IsUnlinked) :
    s.Outgrows (s.with w) [] := by
  unfold Building.with
  have hold : ∀ x, ¬ s.tree.Unused x → (s.tree.construct w).2.get? x = s.tree.get? x := by
    intro x hx
    rw [Tree.get?_construct, if_neg fun heq => hx (Nat.le_of_eq heq.symm)]
  refine ⟨?_, ?_, rfl, rfl, ?_, fun x hx hused => ?_, fun x hx => ?_, fun x _ => ?_, fun x hx _ => hold x hx⟩
  · exact hs.leads (.single (.construct _ hw)) fun r hr => .inl hr
  · simp
  · dsimp only
    rw [Tree.size_construct, Tree.places_cons (Nat.lt_succ_self _), Tree.places_self]
    rfl
  · have heq : x.index = s.tree.slots.size := by
      simp only [Tree.Unused, Tree.size_construct] at hx hused
      omega
    dsimp only
    rw [Tree.contains, Tree.get?_construct, if_pos heq]
    rfl
  · dsimp only
    rw [Tree.contains, hold x hx, Tree.contains]
  · exact Tree.parent?_construct hw.1

theorem starts_of_startWidget {kind : Widget.Kind} {n : Node} {handlers : List Char}
    (hs : s.tree.Sane) (h : startWidget kind n s = (.ok (id, handlers), t)) : s.Starts kind id t := by
  rw [startWidget_eq] at h
  cases hc : n.attributes.foldlM configure ⟨{ kind }, []⟩ with
  | error e =>
    rw [hc] at h
    cases h
  | ok c =>
    rw [hc] at h
    cases h
    have hlinks : c.widget.SameLinks { kind } := (sameBonds_configureAll hc).1
    refine ⟨outgrows_with hs ⟨hlinks.1, hlinks.2.1⟩, rfl, Tree.size_construct,
      { c.widget with content := widgetContent n }, ?_, hlinks.2.2, hlinks.1, hlinks.2.1⟩
    exact Tree.get?_construct.trans (if_pos rfl)

theorem Starts.used {kind : Widget.Kind} (h : s.Starts kind id t) : ¬ t.tree.Unused id := by
  obtain ⟨w, hw, -⟩ := h.widget
  exact Tree.not_unused_of_contains (Tree.contains_iff.mpr ⟨w, hw⟩)

/-- A widget that has been started and filled stands for its element. -/
theorem Starts.roots {kind : Widget.Kind} {tag : String} {attributes : List (String × String)}
    {text tail : Option String} (h : s.Starts kind id t)
    (hkind : Widget.Kind.ofTag? tag = some kind) (k : t.Fills ms id ids u) :
    s.Roots (.mk tag attributes text ms tail) id u := by
  obtain ⟨w, hw, hwkind, hwparent, hwchildren⟩ := h.widget
  have hnew : s.tree.Unused id := Nat.le_of_eq h.index.symm
  have hget : u.tree.get? id = some { w with children := ids } := by
    rw [k.parent, hw]
    simp [hwchildren]
  have hsize := h.size
  have hle := k.outgrows.size_le
  refine ⟨h.outgrows.trans k.outgrows fun x hx => .inr ?_, h.index, k.outgrows.used h.used, ?_, ?_,
    fun n hn => ?_⟩
  · rwa [List.mem_singleton.mp hx]
  · rw [Tree.parent?, hget]
    exact hwparent
  · rw [Mirrors]
    exact ⟨_, hget, hwkind.symm ▸ hkind, k.mirrors⟩
  · obtain ⟨n, rfl⟩ : ∃ m, n = m + 1 := ⟨n - 1, by omega⟩
    have hid : id = ⟨s.tree.slots.size⟩ := WidgetId.ext h.index
    rw [Tree.walk, hget, Tree.places_cons (by omega), ← hid, ← hsize]
    exact congrArg _ (k.walk n (by omega))

/-- What stands for an element still does after a change of its first widget that keeps the links. -/
theorem Roots.modify {f : Widget → Widget} (h : s.Roots m id t)
    (hf : ∀ w, (f w).SameLinks w) : s.Roots m id { t with tree := t.tree.modify id f } := by
  have hset := outgrows_modify id h.outgrows.sane fun w _ => hf w
  have hagrees : t.tree.Agrees (fun _ => True) (t.tree.modify id f) := by
    refine ⟨fun _ _ _ _ => trivial, fun x _ => ?_⟩
    rw [Tree.body?, Tree.get?_modify, Tree.body?]
    split
    · cases t.tree.get? x with
      | none => rfl
      | some w => simp [(hf w).2.1, (hf w).2.2]
    · rfl
  refine ⟨h.outgrows.trans hset fun x hx => .inr ?_, h.index, hset.used h.used, ?_, ?_, fun k hk => ?_⟩
  · rw [List.mem_singleton.mp hx]
    exact Nat.le_of_eq h.index.symm
  · exact (hset.parent? id h.used).trans h.top
  · exact Mirrors.agrees hagrees m id trivial h.mirrors
  · dsimp only at hk ⊢
    rw [Tree.size_modify] at hk ⊢
    exact (hagrees.walk k trivial).trans (h.walk k hk)

end start

end Building

open Building

theorem rules_of_addRules {n : Node} {scope : String} {r : PUnit}
    (h : Build.addRules n scope s = (.ok r, t)) : ∃ rules, t = { s with rules } := by
  obtain ⟨rules, s₁, hlift, h⟩ := Effect.bind_eq_ok h
  cases hc : Style.compileRules (bodyOf n) (some scope) with
  | error e =>
    rw [hc] at hlift
    cases hlift
  | ok rules' =>
    rw [hc] at hlift
    cases hlift
    cases h
    exact ⟨_, rfl⟩

mutual

/-- What a step of building that succeeds has made. -/
theorem roots_of_buildNode (registry : Registry) (expansions : Nat) (n : Node) {s t : Building}
    {id : WidgetId} (hs : s.tree.Sane) (h : buildNode registry expansions n s = (.ok id, t)) :
    ∃ m, expandNode registry expansions n = some m ∧ s.Roots m id t := by
  cases n with
  | mk tag attributes text children tail =>
    rw [buildNode] at h
    rw [expandNode]
    cases hcomponent : registry.get? tag with
    | some component =>
      simp only [hcomponent] at h ⊢
      by_cases hlt : expansions < maxExpansions
      · rw [if_pos hlt] at h ⊢
        exact roots_of_buildNode registry (expansions + 1) _ hs h
      · rw [if_neg hlt] at h
        cases h
    | none =>
      simp only [hcomponent] at h ⊢
      cases hkind : Widget.Kind.ofTag? tag with
      | none =>
        simp only [hkind] at h
        cases h
      | some kind =>
        simp only [hkind] at h
        obtain ⟨⟨started, handlers⟩, s₁, hstart, h⟩ := Effect.bind_eq_ok h
        obtain ⟨_, s₂, hfill, h⟩ := Effect.bind_eq_ok h
        have hstarts := starts_of_startWidget hs hstart
        obtain ⟨ms, ids, hms, hfills⟩ := fills_of_buildChildren registry expansions started
          kind.isContainer children hstarts.outgrows.sane hstarts.used hfill
        have hroots : s.Roots (.mk tag attributes text ms tail) started s₂ :=
          hstarts.roots hkind hfills
        rw [hms]
        refine ⟨_, rfl, ?_⟩
        cases hscript : widgetScript children handlers with
        | none =>
          simp only [hscript] at h
          cases h
          exact hroots
        | some script =>
          simp only [hscript] at h
          cases h
          exact hroots.modify (f := fun w => { w with script := some script }) fun w => ⟨rfl, rfl, rfl⟩
termination_by (maxExpansions - expansions, sizeOf n)

theorem fills_of_buildChildren (registry : Registry) (expansions : Nat) (p : WidgetId)
    (isContainer : Bool) (children : List Node) {s t : Building} (hs : s.tree.Sane)
    (hp : ¬ s.tree.Unused p)
    (h : buildChildren registry expansions p isContainer children s = (.ok (), t)) :
    ∃ ms ids, expandChildren registry expansions children = some ms ∧ s.Fills ms p ids t := by
  cases children with
  | nil =>
    rw [buildChildren] at h
    cases h
    exact ⟨[], [], by rw [expandChildren], .asides hs _ (by rw [MirrorsAll])⟩
  | cons child rest =>
    rw [buildChildren] at h
    obtain ⟨scope, s', hquery, h⟩ := Effect.bind_eq_ok h
    cases hquery
    -- what the rest brings follows what the child brings
    have hrest {ms₁ : List Node} {ids₁ : List WidgetId} {s₁ : Building} (hfirst : s.Fills ms₁ p ids₁ s₁)
        (h : buildChildren registry expansions p isContainer rest s₁ = (.ok (), t)) :
        ∃ ms ids, expandChildren registry expansions rest = some ms ∧
          s.Fills (ms₁ ++ ms) p (ids₁ ++ ids) t := by
      obtain ⟨ms, ids, hms, hfills⟩ := fills_of_buildChildren registry expansions p isContainer rest
        hfirst.outgrows.sane (hfirst.outgrows.used hp) h
      exact ⟨ms, ids, hms, hfirst.trans hs hp hfills⟩
    have hasides (haside : isAside child = true) (rules : Style.RuleMap)
        (h : buildChildren registry expansions p isContainer rest { s with rules } = (.ok (), t)) :
        ∃ ms ids, expandChildren registry expansions (child :: rest) = some ms ∧ s.Fills ms p ids t := by
      have hfirst : s.Fills [child] p [] { s with rules } :=
        .asides hs rules (by rw [MirrorsAll, if_pos haside, MirrorsAll])
      obtain ⟨ms, ids, hms, hfills⟩ := hrest hfirst h
      exact ⟨child :: ms, ids, by rw [expandChildren, if_pos haside, hms]; rfl, hfills⟩
    by_cases hstyle : isStyleTag child.tag = true
    · rw [if_pos hstyle] at h
      obtain ⟨_, s₁, hrules, h⟩ := Effect.bind_eq_ok h
      obtain ⟨rules, rfl⟩ := rules_of_addRules hrules
      exact hasides (by simp [isAside, hstyle]) rules h
    by_cases hscript : isScriptTag child.tag = true
    · rw [if_neg hstyle, if_pos hscript] at h
      exact hasides (by simp [isAside, hscript]) s.rules h
    rw [if_neg hstyle, if_neg hscript] at h
    cases hholds : isContainer with
    | false =>
      rw [hholds] at h
      cases h
    | true =>
      obtain ⟨id, s₁, hnode, h⟩ : ∃ id s₁, buildNode registry expansions child s = (.ok id, s₁) ∧
          (Build.adopt p id >>= fun _ =>
            buildChildren registry expansions p isContainer rest) s₁ = (.ok (), t) := by
        rw [hholds] at h ⊢
        exact Effect.bind_eq_ok h
      obtain ⟨_, s₂, hadopt, h⟩ := Effect.bind_eq_ok h
      obtain ⟨m, hm, hroots⟩ := roots_of_buildNode registry expansions child hs hnode
      obtain ⟨ms, ids, hms, hfills⟩ := hrest (hroots.adopt hs hp hadopt) h
      have haside : ¬ isAside child = true := by simp [isAside, hstyle, hscript]
      exact ⟨m :: ms, id :: ids, by rw [expandChildren, if_neg haside, hm, hms]; rfl, hfills⟩
termination_by (maxExpansions - expansions, sizeOf children)

end

section buildFragment

variable {base v : Tree} {registry : Registry} {n : Node}

theorem roots_of_buildFragment {c : Fragment} (hb : base.Sane)
    (h : buildFragment registry base n = (.ok c, v)) : ∃ m t, expandNode registry 0 n = some m ∧
      Roots m { tree := base } c.root t ∧ t.tree = v ∧ t.widgets = c.widgets := by
  unfold buildFragment at h
  cases hr : (buildNode registry 0 n).run { tree := base } with
  | mk outcome t =>
    rw [hr] at h
    cases outcome with
    | error e => cases h
    | ok root =>
      cases h
      obtain ⟨m, hm, hroots⟩ := roots_of_buildNode registry 0 n (s := { tree := base }) hb hr
      exact ⟨m, t, hm, hroots, rfl, rfl⟩

theorem regains_of_buildFragment {e : Error} (hb : base.Sane)
    (h : buildFragment registry base n = (.error e, v)) : base.Regains v := by
  have hmeets := meets_buildContent hb n ⟨registry, base⟩ rfl
  rw [run_buildContent, h] at hmeets
  exact hmeets

/-- Building a fragment either makes all of it or nothing. What it makes is listed as it is walked from the
root of the fragment, which stands by itself, and mirrors the element with its components expanded; what
was there before is as it was. -/
theorem buildFragment_exact (hb : base.Sane) (registry : Registry) (n : Node) :
    match buildFragment registry base n with
    | (.ok c, v) =>
      c.widgets.Nodup ∧ (∀ x, x ∈ c.widgets ↔ v.contains x = true ∧ base.contains x = false) ∧
      c.widgets = v.descendants c.root ∧ v.parent? c.root = none ∧ c.root ∉ v.layers ∧
      (∀ x, base.contains x = true → v.get? x = base.get? x) ∧ v.root = base.root ∧
      v.pinned = base.pinned ∧ ∃ m, expandNode registry 0 n = some m ∧ Mirrors v m c.root
    | (.error _, v) =>
      (∀ x, v.get? x = base.get? x) ∧ v.root = base.root ∧ v.pinned = base.pinned := by
  cases hr : buildFragment registry base n with
  | mk outcome v =>
    cases outcome with
    | ok c =>
      obtain ⟨m, t, hm, h, rfl, hwidgets⟩ := roots_of_buildFragment hb hr
      have hlisted : c.widgets = places base.slots.size t.tree.slots.size :=
        hwidgets.symm.trans h.outgrows.widgets
      have hnew : base.Unused c.root := Nat.le_of_eq h.index.symm
      have hold : ∀ x, base.contains x = true → t.tree.get? x = base.get? x := fun x hx =>
        h.outgrows.get?_eq x (Tree.not_unused_of_contains hx) List.not_mem_nil
      refine ⟨hlisted ▸ Tree.nodup_places, fun x => ?_, ?_, h.top, fun hlayer => ?_, hold,
        h.outgrows.root, h.outgrows.pinned, m, hm, h.mirrors⟩
      · rw [hlisted, Tree.mem_places]
        constructor
        · rintro ⟨hx, hlt⟩
          refine ⟨h.outgrows.live x hx (Nat.not_le_of_lt hlt), Bool.eq_false_iff.mpr fun hlive => ?_⟩
          exact Tree.not_unused_of_contains hlive hx
        · rintro ⟨hlive, hgone⟩
          have hused := Tree.not_unused_of_contains hlive
          refine ⟨Nat.le_of_not_lt fun hlt => ?_, Nat.lt_of_not_le hused⟩
          have hsame : t.tree.contains x = base.contains x :=
            h.outgrows.contains x (Nat.not_le_of_lt hlt)
          rw [hlive, hgone] at hsame
          cases hsame
      · exact hlisted.trans (h.walk _ (Nat.le_add_right _ _)).symm
      · rw [Tree.layers, h.outgrows.root, h.outgrows.pinned, List.mem_append,
          Option.mem_toList] at hlayer
        rcases hlayer with hroot | hpin
        · exact hb.root _ hroot hnew
        · exact Tree.not_unused_of_contains (hb.pins.contains _ hpin) hnew
    | error e =>
      obtain ⟨hsprouts, hgone⟩ := regains_of_buildFragment hb hr
      refine ⟨fun x => ?_, hsprouts.root, hsprouts.grown.pinned_eq hsprouts.pinned⟩
      by_cases hx : base.Unused x
      · rw [Tree.get?_of_size_le hx]
        simpa [Tree.contains] using hgone x hx
      · exact hsprouts.grown.get?_eq x hx

/-- A component that puts what it is called with into a tower. -/
def stack : Component where
  name := "stack"
  params := []
  template := .mk "tower" [] none [.ofTag slotTag] none

theorem buildFragment_exact_stack :
    ({} : Tree).Sane ∧ ∃ c v,
      buildFragment ⟨[("stack", stack)]⟩ {} (.mk "stack" [] none [.ofTag "text", .ofTag "script"] none) =
        (.ok c, v) ∧
      c.widgets = v.descendants c.root ∧ ∃ m,
        expandNode ⟨[("stack", stack)]⟩ 0 (.mk "stack" [] none [.ofTag "text", .ofTag "script"] none) =
          some m ∧ Mirrors v m c.root := by
  have hexact := buildFragment_exact Tree.sane_empty ⟨[("stack", stack)]⟩
    (.mk "stack" [] none [.ofTag "text", .ofTag "script"] none)
  have hok : (buildFragment ⟨[("stack", stack)]⟩ {}
      (.mk "stack" [] none [.ofTag "text", .ofTag "script"] none)).1.toBool = true := by cbv
  refine ⟨Tree.sane_empty, ?_⟩
  split at hexact
  · next c v hr =>
    obtain ⟨-, -, hlisted, -, -, -, -, -, hmirrors⟩ := hexact
    exact ⟨c, v, hr, hlisted, hmirrors⟩
  · next hr =>
    rw [hr] at hok
    cases hok

end buildFragment

end Hypermedia.Markup
