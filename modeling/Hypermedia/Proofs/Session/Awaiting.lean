import Hypermedia.Proofs.Lists
import Hypermedia.Proofs.Session.Readying

/-! Fragments that wait for a place, from their making to the edit that places them: each is found by any of
its widgets, and what comes of it is open. -/
namespace Hypermedia.Session

open Effect (Moves Meets)

variable {σ : Type} {s t u : Session σ} {x root result target : WidgetId} {ids : List WidgetId}
  {p : WidgetId × List WidgetId} {K : WidgetId → Prop} {edit : Edit} (transport : Transport σ)

section fragments

namespace Secluded

variable (h : s.Secluded)

include h

theorem root_mem (hp : p ∈ s.pending) : p.1 ∈ p.2 :=
  (h.spans p hp).root_mem

theorem lookup_root (hp : p ∈ s.pending) : s.pending.lookup p.1 = some p.2 := by
  cases hlookup : s.pending.lookup p.1 with
  | none => simpa using List.lookup_eq_none_iff.mp hlookup p hp
  | some ids =>
    have hmem := mem_of_lookup hlookup
    rw [h.eq_of_mem hp hmem (h.root_mem hp) (h.root_mem hmem)]

/-- A fragment that waits no longer takes all its widgets along. -/
theorem not_withheld_rest (hp : p ∈ s.pending) (hx : x ∈ p.2) :
    ¬ { s with pending := s.pending.filter (·.1 != p.1) }.Withheld x := by
  rintro ⟨q, hq, hxq⟩
  obtain ⟨hmem, hne⟩ := List.mem_filter.mp hq
  obtain rfl := h.eq_of_mem hp hmem hx hxq
  simp at hne

/-- A fragment alone is enclosed. -/
theorem encloses_fragment (hp : p ∈ s.pending) : s.tree.Encloses (· ∈ p.2) where
  forest := h.forest
  live _ hx := h.live ⟨p, hp, hx⟩
  linked _ _ hlink := (h.spans p hp).linked h.forest hlink
  root r hr hx := h.root r hr ⟨p, hp, hx⟩
  pinned x hpin hx := h.pinned x hpin ⟨p, hp, hx⟩

/-- The fragment of a widget is found above it. -/
theorem find_fragment (hp : p ∈ s.pending) (hx : x ∈ p.2) :
    ((s.tree.lineage x).find? fun id => (s.pending.lookup id).isSome) = some p.1 := by
  have hroot : p.1 ∈ s.tree.lineage x :=
    h.forest.mem_lineage_iff.mpr (((h.spans p hp).mem_iff x).mp hx).2
  have hsome : (s.pending.lookup p.1).isSome := by rw [h.lookup_root hp]; rfl
  cases hfind : (s.tree.lineage x).find? fun id => (s.pending.lookup id).isSome with
  | none => exact absurd hsome (List.find?_eq_none.mp hfind p.1 hroot)
  | some a =>
    have hfound := List.find?_some hfind
    obtain ⟨q, hq⟩ := Option.isSome_iff_exists.mp hfound
    have hmem := mem_of_lookup hq
    have hwithin := h.forest.mem_lineage_iff.mp (List.mem_of_find?_eq_some hfind)
    -- it is within the root of the fragment that was found
    have hxq : x ∈ q := ((h.spans _ hmem).mem_iff x).mpr ⟨h.live ⟨p, hp, hx⟩, hwithin⟩
    exact congrArg some (congrArg Prod.fst (h.eq_of_mem hp hmem hx hxq)).symm

theorem find_fragment_none (hx : ¬ s.Withheld x) :
    ((s.tree.lineage x).find? fun id => (s.pending.lookup id).isSome) = none := by
  refine List.find?_eq_none.mpr fun a ha hsome => hx ?_
  obtain ⟨q, hq⟩ := Option.isSome_iff_exists.mp hsome
  have hmem := mem_of_lookup hq
  have hroot : s.Withheld a := ⟨_, hmem, h.root_mem hmem⟩
  exact (h.encloses.within (h.forest.mem_lineage_iff.mp ha)).mpr hroot

/-- A fragment that has just been made begins to wait. -/
theorem await (hspans : s.tree.Spans root ids) (hnew : ∀ x ∈ ids, ¬ s.Withheld x ∧ s.tree.Bare x)
    (hlayers : ∀ x ∈ ids, s.tree.root ≠ some x ∧ x ∉ s.tree.pinned ∧ x ∉ s.loose) :
    Secluded { s with pending := s.pending ++ [(root, ids)] } := by
  have hiff : ∀ x, { s with pending := s.pending ++ [(root, ids)] }.Withheld x ↔ s.Withheld x ∨ x ∈ ids := by
    simp [Withheld, or_and_right, exists_or]
  refine ⟨h.forest, fun r hr hx => ?_, fun x hpin hx => ?_, ?_, ?_, fun x hx => ?_, fun x hloose hx => ?_⟩
  · rcases (hiff r).mp hx with hx | hx
    · exact h.root r hr hx
    · exact (hlayers r hx).1 hr
  · rcases (hiff x).mp hx with hx | hx
    · exact h.pinned x hpin hx
    · exact (hlayers x hx).2.1 hpin
  · exact List.forall_mem_append.mpr ⟨h.spans, List.forall_mem_singleton.mpr hspans⟩
  · rw [List.flatMap_append, List.flatMap_singleton]
    refine List.nodup_append.mpr ⟨h.nodup, hspans.nodup, fun a ha b hb hab => ?_⟩
    obtain ⟨q, hq, haq⟩ := List.mem_flatMap.mp ha
    exact (hnew b hb).1 ⟨q, hq, hab ▸ haq⟩
  · rcases (hiff x).mp hx with hx | hx
    · exact h.bare x hx
    · exact (hnew x hx).2
  · rcases (hiff x).mp hx with hx | hx
    · exact h.loose x hloose hx
    · exact (hlayers x hx).2.2 hloose

end Secluded

end fragments

section loading

/-- A fragment that is loaded comes beside those that wait. -/
theorem heeds_loadFragment (hs : s.Reticent) (hi : s.Intact) (r : Network.Response) :
    s.Heeds (loadFragment transport r s).2 := by
  have hcompiled := holds_compileResponse transport hi.tree (Markup.apart_compileFragment hi.tree) r s rfl
  obtain ⟨e, t, hc, h⟩ | ⟨c, t, rules, hc, h⟩ := loadFragment_outcomes transport r s
  · rw [hc] at hcompiled
    obtain ⟨network, ws, rfl, hregains⟩ := hcompiled
    have hfetched : s.Heeds { s with network } := .of_respects hs (respects_of_eq rfl rfl rfl rfl)
    rw [h]
    exact hfetched.trans (.of_respects hfetched.reticent (respects_sprouts hregains.sprouts))
  · rw [hc] at hcompiled
    obtain ⟨network, ws, rfl, hapart⟩ := hcompiled
    have hfetched : s.Heeds { s with network } := .of_respects hs (respects_of_eq rfl rfl rfl rfl)
    have hmade := hfetched.trans (.of_respects hfetched.reticent (respects_sprouts hapart.new.sprouts))
    obtain ⟨-, h⟩ | ⟨e, -, h⟩ := h <;> rw [h]
    · have hwidgets := hapart.new.widgets
      have hold : ∀ x ∈ c.widgets, ¬ s.Withheld x := fun x hx hw =>
        Tree.not_unused_of_contains (hs.live hw) (hwidgets x hx)
      have hawaits := hmade.reticent.toSecluded.await hapart.spans (fun x hx => ⟨hold x hx, hapart.bare x hx⟩)
        fun x hx => ⟨fun hr => ?_, fun hpin => ?_, fun hloose => hi.loose x hloose (hwidgets x hx)⟩
      · refine hs.heeds_of_secluded (hawaits.congr rfl rfl rfl) hmade.size_le (fun x hx => ?_) rfl
        rintro ⟨q, hq, hxq⟩
        rcases List.mem_append.mp hq with hq | hq
        · exact hx.2 ⟨q, hq, hxq⟩
        · rw [List.mem_singleton.mp hq] at hxq
          exact hx.1 (hwidgets x hxq)
      · rw [hapart.new.sprouts.root] at hr
        exact hi.tree.root x hr (hwidgets x hx)
      · exact hapart.new.sprouts.pinned x hpin (hwidgets x hx)
    · exact hmade.trans (.of_respects hmade.reticent (respects_of_eq rfl rfl rfl rfl))

theorem respects_releaseFragment (root : WidgetId) : s.Respects K (s.releaseFragment root) := by
  unfold releaseFragment
  split
  · next hroot =>
    obtain ⟨ids, hids⟩ := Option.isSome_iff_exists.mp hroot
    have hmem := mem_of_lookup hids
    refine respects_of_secluded (Nat.le_of_eq Tree.size_remove.symm)
      (fun x => withheld_of_sublist List.filter_sublist) rfl fun hs _ => ?_
    have hrest : Secluded { s with pending := s.pending.filter (·.1 != root) } := hs.drop List.filter_sublist
    exact hrest.withTree (hrest.encloses.remove (hs.not_withheld_rest hmem (hs.root_mem hmem)))
  · exact Std.Refl.refl s

theorem respects_releaseFragments (roots : List WidgetId) : s.Respects K (s.releaseFragments roots) :=
  Effect.along_foldl (fun _ root => respects_releaseFragment root) s roots

end loading

section placing

/-- The widgets of a fragment that come along when one of them is placed. -/
def kept (s : Session σ) (p : WidgetId × List WidgetId) (result : WidgetId) : List WidgetId :=
  p.2.filter (s.tree.descendants result).contains

/-- A widget that does not wait for a place is put elsewhere, and nothing else happens. -/
theorem prepareEdit_of_not_withheld {tree : Tree} (h : s.Secluded) (hresult : ¬ s.Withheld result)
    (hplace : s.tree.place result target edit = (.ok (), tree)) :
    prepareEdit result target edit s = (.ok [], { s with tree }) := by
  rw [prepareEdit_eq, hplace]
  dsimp only
  rw [h.find_fragment_none hresult]
  rfl

/-- Of a fragment what comes along is ready, and the rest is gone. -/
theorem prepareEdit_of_mem {tree : Tree} (h : s.Secluded) (hp : p ∈ s.pending) (hresult : result ∈ p.2)
    (hplace : s.tree.place result target edit = (.ok (), tree)) :
    prepareEdit result target edit s = (.ok (s.kept p result), { s with
      tree := tree.withoutRest p.1 result
      pending := s.pending.filter (·.1 != p.1) }) := by
  have hlookup : { s with tree }.pending.lookup p.1 = some p.2 := h.lookup_root hp
  rw [prepareEdit_eq, hplace]
  dsimp only
  rw [h.find_fragment hp hresult, prepareHouse, Effect.run_get_bind, takePending, hlookup]
  dsimp only
  rw [Effect.run_set_bind, Tree.withoutRest]
  split <;> rfl

variable (hs : s.Reticent) (htarget : ¬ s.Withheld target)

include hs htarget

/-- The fragments that go on waiting are left alone when another is placed. -/
theorem heeds_placed {tree : Tree} (hp : p ∈ s.pending) (hresult : result ∈ p.2)
    (hplace : (s.tree.place result target edit).2 = tree) :
    s.Heeds { s with
      tree := tree.withoutRest p.1 result
      pending := s.pending.filter (·.1 != p.1) } := by
  have hrest : Secluded { s with pending := s.pending.filter (·.1 != p.1) } := hs.drop List.filter_sublist
  have hroot := hs.not_withheld_rest hp (hs.root_mem hp)
  have hplaced : Tree.Shields _ s.tree (s.tree.place result target edit).2 :=
    hrest.encloses.place (hs.not_withheld_rest hp hresult) (mt (withheld_of_sublist List.filter_sublist) htarget)
  have hsize := (Tree.leads_place s.tree result target edit).later.size_le
  rw [hplace] at hplaced hsize
  have hsecluded : Secluded { s with
      tree := tree.withoutRest p.1 result
      pending := s.pending.filter (·.1 != p.1) } := by
    refine hrest.withTree (hplaced.trans ?_)
    unfold Tree.withoutRest
    split
    · exact hplaced.encloses.refl
    · exact hplaced.encloses.remove hroot
  exact hs.heeds_of_secluded hsecluded (hsize.trans_eq Tree.size_withoutRest.symm)
    (fun x hx => mt (withheld_of_sublist List.filter_sublist) hx.2) rfl

theorem readies_prepareEdit : s.Readies (prepareEdit result target edit s) := by
  have hsize := (Tree.leads_place s.tree result target edit).later.size_le
  cases hplace : s.tree.place result target edit with
  | mk outcome tree =>
    rw [hplace] at hsize
    cases outcome with
    | error e =>
      have hshields := hs.encloses.place_error htarget (by rw [hplace])
      rw [hplace] at hshields
      rw [prepareEdit_eq, hplace]
      exact (Heeds.of_respects hs (respects_tree hsize fun _ _ => hshields)).readies rfl
    | ok _ =>
      by_cases hresult : s.Withheld result
      · obtain ⟨p, hp, hmem⟩ := hresult
        rw [prepareEdit_of_mem hs.toSecluded hp hmem hplace]
        have hplaced := heeds_placed hs htarget hp hmem (congrArg Prod.snd hplace)
        have hold {x : WidgetId} (hx : x ∈ p.2) : ¬ s.tree.Unused x :=
          Tree.not_unused_of_contains (hs.live ⟨p, hp, hx⟩)
        refine ⟨hplaced, (hs.spans p hp).nodup.filter _, fun x hx => ?_, fun x hx => ?_⟩
        · have hx : x ∈ p.2 := List.mem_of_mem_filter hx
          refine ⟨⟨fun hunused => hold hx ?_, hs.not_withheld_rest hp hx⟩, fun hopen => hopen.2 ⟨p, hp, hx⟩⟩
          exact hunused.of_size_le (hsize.trans_eq Tree.size_withoutRest.symm)
        · have hx : x ∈ p.2 := List.mem_of_mem_filter hx
          have hmoved := (Tree.leads_place s.tree result target edit).wires (P := fun _ => True) Tree.size_place
          rw [hplace] at hmoved
          have hsame : s.Preserves (fun _ => True) { s with tree := tree.withoutRest p.1 result } :=
            preserves_of_wires (hmoved.trans (Tree.wires_withoutRest tree p.1 result))
          exact hsame.bare trivial (hold hx) (hs.bare x ⟨p, hp, hx⟩)
      · have hshields : Tree.Shields _ s.tree (s.tree.place result target edit).2 := hs.encloses.place hresult htarget
        rw [hplace] at hshields
        rw [prepareEdit_of_not_withheld hs.toSecluded hresult hplace]
        exact (Heeds.of_respects hs (respects_tree hsize fun _ _ => hshields)).readies rfl

end placing

end Hypermedia.Session
