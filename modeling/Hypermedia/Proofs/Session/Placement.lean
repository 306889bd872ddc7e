import Hypermedia.Proofs.Session.Answer
import Hypermedia.Proofs.Session.PageChange

/-! Fragments that are loaded, placed and released: from its making on, a fragment waits among those that
are pending until it has a place or is removed. -/
namespace Hypermedia

namespace Style

/-- Whether all selectors of some rules can be read. -/
def RuleMap.Readable (m : RuleMap) : Prop :=
  ∀ entry ∈ m.entries, ∃ selector, Selector.parse entry.1 = .ok selector

theorem RuleBook.applyEntries_ok (b : RuleBook) (priority : Int) {entries : List (String × Properties)}
    (h : ∀ entry ∈ entries, ∃ selector, Selector.parse entry.1 = .ok selector) :
    (b.applyEntries priority entries).1 = .ok () := by
  induction entries generalizing b with
  | nil => rfl
  | cons entry entries ih =>
    obtain ⟨⟨selector, hselector⟩, hrest⟩ := List.forall_mem_cons.mp h
    simp only [applyEntries, apply, hselector, bind, Except.bind, pure, Except.pure]
    exact ih _ hrest

/-- Readable rules are all applied. -/
theorem RuleBook.applyMap_ok (b : RuleBook) {m : RuleMap} (h : m.Readable) (priority : Int) :
    (b.applyMap m priority).1 = .ok () :=
  b.applyEntries_ok priority h

end Style

namespace Session

open Effect (Moves Meets)
open Markup (Fragment Workspace)

variable {σ : Type} {s t : Session σ} {x root result target : WidgetId} {fragment : Fragment}
  (transport : Transport σ)

section loading

/-- The markup of a response with its resources. -/
def responseMarkup (r : Network.Response) : Act σ Node := do
  let node ← lift .compile (Action.responseNode r)
  let base := (Url.parse r.url).toOption.getD (← get).url
  inlined transport base node

/-- The fragment that a response makes. -/
def compileResponse (r : Network.Response) : Act σ Fragment := do
  compiled (Markup.compileFragment (← responseMarkup transport r))

theorem loadFragment_eq (r : Network.Response) :
    loadFragment transport r = compileResponse transport r >>= awaitPlace := by
  simp only [loadFragment, compileResponse, responseMarkup, bind_assoc]

theorem fetches_responseMarkup (r : Network.Response) : Moves Fetches (responseMarkup transport r) := by
  refine Effect.moves_bind (moves_lift _ _) fun node => ?_
  exact Effect.moves_get_bind fun s => fetches_inlined transport _ node s

/-- A session into whose tree a fragment was compiled. -/
def Compiles (s t : Session σ) (fragment : Fragment) : Prop :=
  ∃ network, ∃ ws : Workspace,
    t = { s with network, registry := ws.registry, tree := ws.tree } ∧ fragment.New s.tree ws.tree

/-- A session that has fetched resources, and into whose tree they were compiled. -/
def Acquires (s : Session σ) (Q : Tree → Prop) (t : Session σ) : Prop :=
  ∃ network, ∃ ws : Workspace, t = { s with network, registry := ws.registry, tree := ws.tree } ∧ Q ws.tree

/-- What holds of every fragment that is compiled holds of that of a response. -/
theorem holds_compileResponse {Q : Fragment → Tree → Prop} (hs : s.tree.Sane)
    (hQ : ∀ node, Meets (fun ws : Workspace => ws.tree = s.tree) (Markup.compileFragment node)
      (fun fragment ws => Q fragment ws.tree) (fun ws => s.tree.Regains ws.tree)) (r : Network.Response) :
    Meets (fun s' => s' = s) (compileResponse transport r) (fun fragment => s.Acquires (Q fragment))
      (s.Acquires s.tree.Regains) := by
  have hsame : ∀ t, s.Fetches t → s.Acquires s.tree.Regains t := by
    rintro t ⟨network, rfl⟩
    exact ⟨network, ⟨s.registry, s.tree⟩, rfl, .refl hs.forest hs.pins⟩
  refine Effect.meets_bind (Effect.meets_of_moves (fetches_responseMarkup transport r) hsame) fun node => ?_
  rintro fetched ⟨network, rfl⟩
  let fetched := { s with network }
  have hcompiled := meets_compiled (s := fetched) (hQ node) fetched rfl
  cases hr : (compiled (Markup.compileFragment node) : Act σ Fragment) fetched with
  | mk result t =>
    rw [hr] at hcompiled
    cases result with
    | ok fragment => exact ⟨network, hcompiled⟩
    | error e => exact ⟨network, hcompiled⟩

theorem meets_compileResponse (hs : s.tree.Sane) (r : Network.Response) :
    Meets (fun s' => s' = s) (compileResponse transport r) (fun fragment t => s.Compiles t fragment)
      s.Guards := by
  have hholds := holds_compileResponse transport hs (Markup.meets_compileFragment hs) r
  rintro s' rfl
  have hs' := hholds s' rfl
  cases hr : compileResponse transport r s' with
  | mk result t =>
    rw [hr] at hs'
    cases result with
    | ok fragment => exact hs'
    | error e =>
      obtain ⟨network, ws, rfl, hregains⟩ := hs'
      have hfetched : s'.Guards { s' with network } := Fetches.guards ⟨network, rfl⟩
      exact hfetched.trans (guards_regains (s := { s' with network }) hregains)

/-- A fragment that was compiled is the one widget that is newly adrift. -/
theorem Compiles.sets_adrift (h : s.Compiles t fragment) (hs : s.Intact) :
    (t.Intact ∧ t.outgoing = s.outgoing) ∧ s.Grows t ∧
      ∀ x, t.Adrift x → s.Adrift x ∨ x = fragment.root := by
  obtain ⟨network, ws, rfl, hnew⟩ := h
  have hsize := hnew.sprouts.grown.size_le
  have hintact : Intact { s with network, registry := ws.registry, tree := ws.tree } :=
    hs.later (hnew.sprouts.sane hs.tree) hsize (fun _ h => .inl h) rfl hs.aside hs.idle
  have hold : ∀ x, ¬ s.tree.Unused x → ws.tree.Adrift x → s.tree.Adrift x := fun x hx h =>
    hnew.sprouts.adrift_old hx h
  refine ⟨⟨hintact, rfl⟩, ⟨hsize, fun x hx h => ?_⟩, fun x h => ?_⟩
  · exact ⟨hold x hx h.tree, h.not_aside⟩
  · by_cases hx : s.tree.Unused x
    · exact .inr (List.mem_singleton.mp (hnew.sprouts.adrift x hx h.tree))
    · exact .inl ⟨hold x hx h.tree, h.not_aside⟩

theorem Compiles.used (h : s.Compiles t fragment) : ¬ t.tree.Unused fragment.root := by
  obtain ⟨network, ws, rfl, hnew⟩ := h
  exact hnew.used

theorem Compiles.frame (h : s.Compiles t fragment) : t.pending = s.pending ∧ t.loose = s.loose := by
  obtain ⟨network, ws, rfl, -⟩ := h
  exact ⟨rfl, rfl⟩

theorem awaitPlace_eq (fragment : Fragment) (t : Session σ) :
    awaitPlace fragment t = match t.rules.applyMap fragment.rules Style.documentPriority with
      | (.ok (), rules) => (.ok fragment.root,
          { t with rules, pending := t.pending ++ [(fragment.root, fragment.widgets)] })
      | (.error e, rules) => (.error (.selection e), { t with rules }) := by
  rw [awaitPlace, Effect.run_bind, addRules, Effect.run_get_bind]
  dsimp only
  cases t.rules.applyMap fragment.rules Style.documentPriority with
  | mk result rules => cases result <;> rfl

/-- What comes of loading a fragment: none can be made, or one waits for a place, or a rule of it cannot be read. -/
theorem loadFragment_outcomes (r : Network.Response) (s : Session σ) :
    (∃ e t, compileResponse transport r s = (.error e, t) ∧ loadFragment transport r s = (.error e, t)) ∨
    ∃ fragment t rules, compileResponse transport r s = (.ok fragment, t) ∧
      (t.rules.applyMap fragment.rules Style.documentPriority = (.ok (), rules) ∧
        loadFragment transport r s = (.ok fragment.root,
          { t with rules, pending := t.pending ++ [(fragment.root, fragment.widgets)] }) ∨
      ∃ e, t.rules.applyMap fragment.rules Style.documentPriority = (.error e, rules) ∧
        loadFragment transport r s = (.error (.selection e), { t with rules })) := by
  rw [loadFragment_eq, Effect.run_bind]
  cases compileResponse transport r s with
  | mk result t =>
    cases result with
    | error e => exact .inl ⟨e, t, rfl, rfl⟩
    | ok fragment =>
      dsimp only
      rw [awaitPlace_eq]
      cases happly : t.rules.applyMap fragment.rules Style.documentPriority with
      | mk applied rules =>
        refine .inr ⟨fragment, t, rules, rfl, ?_⟩
        rw [happly]
        cases applied with
        | ok => exact .inl ⟨rfl, rfl⟩
        | error e => exact .inr ⟨e, rfl, rfl⟩

theorem lookup_concat_eq_none {β : Type} {l : List (WidgetId × β)} {p : WidgetId × β} :
    (l ++ [p]).lookup x = none ↔ l.lookup x = none ∧ x ≠ p.1 := by
  rw [List.lookup_append, Option.or_eq_none_iff, List.lookup_eq_none_iff (l := [p])]
  simp

/-- Loading a fragment sets nothing adrift that was there before. -/
theorem tends_loadFragment (r : Network.Response) : Moves Tends (loadFragment transport r) := by
  intro s hs
  have hcompiled := meets_compileResponse transport hs.tree r s rfl
  obtain ⟨e, t, hc, h⟩ | ⟨fragment, t, rules, hc, h⟩ := loadFragment_outcomes transport r s
  · rw [hc] at hcompiled
    rw [h]
    exact hcompiled.tends hs
  · rw [hc] at hcompiled
    obtain ⟨⟨hintact, houtgoing⟩, hgrows, -⟩ := Compiles.sets_adrift hcompiled hs
    have hused : ¬ t.tree.Unused fragment.root := Compiles.used hcompiled
    obtain ⟨-, h⟩ | ⟨e, -, h⟩ := h <;> rw [h]
    · refine ⟨⟨{ hintact with pending := fun x hx => ?_ }, houtgoing⟩, ?_⟩
      · refine lookup_concat_eq_none.mpr ⟨hintact.pending x hx, ?_⟩
        rintro rfl
        exact hused hx
      · exact ⟨hgrows.size_le, fun x hx h => hgrows.adrift x hx ⟨h.tree, h.not_aside⟩⟩
    · have hruled : t.Guards { t with rules } := guards_of_eq rfl rfl rfl rfl id
      exact IsTrans.trans _ _ _ (fun _ => ⟨⟨hintact, houtgoing⟩, hgrows⟩) hruled.tends hs

/-- No new stray, and of what was there nothing but `roots` begins to wait for a place. -/
structure Gains (s t : Session σ) (roots : List WidgetId) : Prop where
  stray : ∀ x, t.Stray x → s.Stray x
  pending : ∀ x, x ∉ roots → s.pending.lookup x = none → t.pending.lookup x = none

theorem Spares.gains (h : s.Spares t) (roots : List WidgetId) : s.Gains t roots :=
  ⟨h.stray, fun x _ => h.pending x⟩

/-- A fragment whose rules can be read waits for a place once it is loaded. -/
theorem gains_loadFragment {r : Network.Response} (hs : s.Intact)
    (hreadable : ∀ fragment t, compileResponse transport r s = (.ok fragment, t) → fragment.rules.Readable) :
    s.Gains (loadFragment transport r s).2
      (fragmentOf (.loadFragment r) (loadFragment transport r s).1) := by
  have hcompiled := meets_compileResponse transport hs.tree r s rfl
  obtain ⟨e, t, hc, h⟩ | ⟨fragment, t, rules, hc, h⟩ := loadFragment_outcomes transport r s
  · rw [hc] at hcompiled
    rw [h]
    exact (hcompiled hs).2.gains _
  · rw [hc] at hcompiled
    obtain ⟨-, -, hadrift⟩ := Compiles.sets_adrift hcompiled hs
    obtain ⟨hpending, hloose⟩ := Compiles.frame hcompiled
    have hok := t.rules.applyMap_ok (hreadable fragment t hc) Style.documentPriority
    obtain ⟨-, h⟩ | ⟨e, hfails, -⟩ := h
    · rw [h]
      refine ⟨fun x hx => ?_, fun x hx hnone => ?_⟩
      · obtain ⟨hnone, hne⟩ := lookup_concat_eq_none.mp hx.not_pending
        obtain hold := (hadrift x ⟨hx.adrift.tree, hx.adrift.not_aside⟩).resolve_right hne
        exact ⟨hold, hloose ▸ hx.not_loose, hpending ▸ hnone⟩
      · exact lookup_concat_eq_none.mpr ⟨hpending.symm ▸ hnone, fun he => hx (List.mem_singleton.mpr he)⟩
    · rw [hfails] at hok
      cases hok

end loading

section placing

/-- A fragment that has a place need no longer be pending. -/
theorem guards_takePending (hroot : ¬ s.Adrift root) : s.Guards (s.takePending root).2 := by
  have hadrift : ∀ x, (s.takePending root).2.Adrift x → s.Adrift x := fun x hx => ⟨hx.tree, hx.not_aside⟩
  have hless : ∀ x, s.pending.lookup x = none → (s.takePending root).2.pending.lookup x = none :=
    fun x hx => List.filter_sublist.lookup_eq_none hx
  refine fun hs => ⟨⟨{ hs with pending := fun x hx => hless x (hs.pending x hx) }, rfl⟩,
    ⟨⟨Nat.le_refl _, fun x _ => hadrift x⟩, fun x hx => ?_, hless⟩⟩
  have hold := hadrift x hx.adrift
  have hne : x ≠ root := by
    rintro rfl
    exact hroot hold
  exact ⟨hold, hx.not_loose, (lookup_filter_ne hne s.pending).symm.trans hx.not_pending⟩

/-- Binds what of a fragment has a place, and drops the rest of it. -/
def house (fragment : Option WidgetId) (result : WidgetId) (placed : List WidgetId) : Act σ Unit :=
  match fragment with
  | none => return ()
  | some root => do
    let (widgets, s) := (← get).takePending root
    set (if root = result then s else { s with tree := s.tree.remove root })
    bindScripts (widgets.filter placed.contains)

theorem applyEdit_eq (result target : WidgetId) (edit : Edit) (s : Session σ) :
    applyEdit result target edit s = match s.tree.place result target edit with
      | (.error e, tree) => (.error (.selection e), { s with tree })
      | (.ok (), tree) => house ((s.tree.lineage result).find? fun id => (s.pending.lookup id).isSome)
          result (s.tree.descendants result) { s with tree } := by
  rw [applyEdit, Effect.run_get_bind]
  dsimp only
  cases s.tree.place result target edit with
  | mk outcome tree => cases outcome <;> rfl

theorem guards_house {fragment : Option WidgetId} {placed : List WidgetId} (h : ¬ s.Adrift result) :
    s.Guards (house fragment result placed s).2 := by
  have hbound (ids : List WidgetId) : Moves Guards (bindScripts ids : Act σ Unit) :=
    (guards_carries.bindScripts fun _ _ => trivial).moves fun _ => trivial
  cases fragment with
  | none => exact Std.Refl.refl s
  | some root =>
    rw [house, Effect.run_get_bind]
    dsimp only
    rw [Effect.run_set_bind]
    split
    · next hself =>
      have htaken : s.Guards (s.takePending root).2 := guards_takePending (hself ▸ h)
      exact htaken.trans (hbound _ _)
    · exact (guards_dropPending root).trans (hbound _ _)

/-- A fragment or a part of it that is placed at a widget with a place has one. -/
theorem guards_applyEdit {edit : Edit} (hresult : ¬ s.tree.Unused result)
    (htarget : ¬ s.tree.Unused target) (hplaced : ¬ s.Adrift target) :
    s.Guards (applyEdit result target edit s).2 := by
  intro hs
  have hleads := Tree.leads_place s.tree result target edit
  have hroot : ∀ r, (s.tree.place result target edit).2.root = some r →
      s.tree.root = some r ∨ ¬ s.tree.Unused r := by
    intro r hr
    rcases Tree.root_of_root_place hr with hold | rfl
    · exact .inl hold
    · exact .inr hresult
  have hadrift : ∀ x, (s.tree.place result target edit).2.Adrift x → s.tree.Adrift x ∧
      (target ≠ result → (s.tree.place result target edit).1 = .ok () → x ≠ result) := fun x =>
    hs.tree.forest.adrift_of_place
  rw [applyEdit_eq]
  cases hr : s.tree.place result target edit with
  | mk outcome tree =>
    rw [hr] at hleads hroot hadrift
    have hplace : s.Guards { s with tree } :=
      guards_tree (fun _ => hleads) hroot fun _ x hx => (hadrift x hx).1
    cases outcome with
    | error e => exact hplace hs
    | ok =>
      -- a widget that is replaced by itself keeps the place that it has
      have hfound : ¬ Adrift { s with tree } result := fun hx => by
        by_cases hself : target = result
        · exact hplaced ((hplace hs).2.adrift target htarget (hself ▸ hx))
        · exact (hadrift result hx.tree).2 hself rfl rfl
      exact (hplace.trans (guards_house hfound)) hs

end placing

end Session

end Hypermedia
