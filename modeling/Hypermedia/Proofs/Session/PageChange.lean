import Hypermedia.Proofs.Markup.Fragments
import Hypermedia.Proofs.Session.Navigation
import Hypermedia.Proofs.Session.Ownership

/-! Page changes: the steps a new page goes through, and that none of its widgets, nor of those of the page
before, is lost on the way, whether or not the change succeeds. -/
namespace Hypermedia.Session

open Effect (Moves Meets)

variable {σ : Type} {s t u : Session σ} {x : WidgetId} {n : Node} {url : Url} {page : Markup.Page}

/-- What a new page puts aside. -/
def aside (s : Session σ) : Outgoing where
  root := s.tree.root
  rules := s.rules
  document := s.document
  timers := s.timers
  pinned := s.tree.pinned
  loose := s.loose.length

theorem run_attempt {α : Type} (step : Act σ α) (s : Session σ) :
    attempt step s = (.ok (step s).1, (step s).2) := rfl

/-- A page change compiles, stages and runs the page, and then commits it or rolls it back. -/
theorem install_eq (url : Url) (n : Node) (s : Session σ) :
    install url n s = match compiled (Markup.compilePage n) s with
      | (.error e, t) => (.error e, t)
      | (.ok page, t) =>
        match runPage page (t.stage (page.content.map (·.root))) with
        | (.ok (), u) => (.ok (), u.commit t.aside url page)
        | (.error e, u) => (.error e, u.rollback t.aside) := by
  rw [install, Effect.run_bind]
  cases compiled (Markup.compilePage n) s with
  | mk result t =>
    cases result with
    | error e => rfl
    | ok page =>
      dsimp only
      rw [Effect.run_modify_bind, Effect.run_get_bind, Effect.run_bind, run_attempt]
      dsimp only
      cases runPage page (t.stage (page.content.map (·.root))) with
      | mk result u => cases result <;> rfl

/-- What a page change comes to: either compiling the page fails, and with it the change, or the page is staged
and run, and then shown or rolled back. -/
theorem install_outcomes (url : Url) (n : Node) (s : Session σ) :
    (∃ e t, compiled (Markup.compilePage n) s = (.error e, t) ∧ install url n s = (.error e, t)) ∨
    ∃ page t u, compiled (Markup.compilePage n) s = (.ok page, t) ∧
      (runPage page (t.stage (page.content.map Markup.Fragment.root))).2 = u ∧
      (install url n s = (.ok (), u.commit t.aside url page) ∨
        ∃ e, install url n s = (.error e, u.rollback t.aside)) := by
  rw [install_eq]
  cases compiled (Markup.compilePage n) s with
  | mk result t =>
    cases result with
    | error e => exact .inl ⟨e, t, rfl, rfl⟩
    | ok page =>
      refine .inr ⟨page, t, _, rfl, rfl, ?_⟩
      dsimp only
      cases runPage page (t.stage (page.content.map Markup.Fragment.root)) with
      | mk outcome u =>
        cases outcome with
        | ok => exact .inl rfl
        | error e => exact .inr ⟨e, rfl⟩

/-- What comes of running a page: it is shown, or the session goes back to the page before. -/
def presented (url : Url) (page : Markup.Page) (s : Session σ) : Except Error Unit × Session σ :=
  match runPage page (s.stage (page.content.map (·.root))) with
  | (.ok (), t) => (.ok (), t.commit s.aside url page)
  | (.error e, t) => (.error e, t.rollback s.aside)

theorem compiled_of_run {α : Type} {c : Markup.Compile α} {a : α} {ws : Markup.Workspace}
    (h : c.run { registry := s.registry, tree := s.tree } = (.ok a, ws)) :
    compiled c s = (.ok a, { s with registry := ws.registry, tree := ws.tree }) := by
  rw [compiled, Effect.run_get_bind, h]
  rfl

/-- Compiling changes the components and the tree of a session, as it does those of a workspace. -/
theorem meets_compiled {α : Type} {c : Markup.Compile α} {Q : α → Markup.Workspace → Prop}
    {E : Markup.Workspace → Prop} (hc : Meets (fun ws => ws.tree = s.tree) c Q E) :
    Meets (fun r => r = s) (compiled c : Act σ α)
      (fun a t => ∃ ws : Markup.Workspace, t = { s with registry := ws.registry, tree := ws.tree } ∧ Q a ws)
      (fun t => ∃ ws : Markup.Workspace, t = { s with registry := ws.registry, tree := ws.tree } ∧ E ws) := by
  intro r hr
  obtain rfl : s = r := hr.symm
  have h := hc { registry := s.registry, tree := s.tree } rfl
  rw [compiled, Effect.run_get_bind]
  cases hr : c.run { registry := s.registry, tree := s.tree } with
  | mk result ws =>
    have hrun : c { registry := s.registry, tree := s.tree } = (result, ws) := hr
    rw [hrun] at h
    cases result with
    | ok a => exact ⟨ws, rfl, h⟩
    | error e => exact ⟨ws, rfl, h⟩

section dropLoose

variable {tree : Tree} {ids : List WidgetId}

theorem leads_dropLoose (tree : Tree) (ids : List WidgetId) : Tree.Leads tree (dropLoose tree ids) := by
  obtain ⟨dropped, -, heq⟩ := dropLoose_eq tree ids
  exact heq ▸ Tree.leads_removeAll tree dropped

theorem root_of_root_dropLoose {r : WidgetId} (hr : (dropLoose tree ids).root = some r) :
    tree.root = some r := by
  obtain ⟨dropped, -, heq⟩ := dropLoose_eq tree ids
  exact Tree.root_of_root_removeAll (heq ▸ hr)

/-- Of the widgets that are dropped none is left adrift. -/
theorem adrift_of_dropLoose (h : tree.Forest) (hx : (dropLoose tree ids).Adrift x) :
    tree.Adrift x ∧ x ∉ ids := by
  induction ids generalizing tree with
  | nil => exact ⟨hx, List.not_mem_nil⟩
  | cons id ids ih =>
    unfold dropLoose at hx ih
    rw [List.foldl_cons] at hx
    split at hx
    · obtain ⟨hremoved, hout⟩ := ih (h.remove id) hx
      have hne : x ≠ id := by
        rintro rfl
        exact (h.contains_remove_iff.mp hremoved.live).2 .refl
      exact ⟨h.adrift_of_remove hremoved, List.not_mem_cons_of_ne_of_not_mem hne hout⟩
    · next hkept =>
      obtain ⟨hadrift, hout⟩ := ih h hx
      have hne : x ≠ id := by
        rintro rfl
        exact hkept (by simp [hadrift.top, hadrift.not_pinned])
      exact ⟨hadrift, List.not_mem_cons_of_ne_of_not_mem hne hout⟩

end dropLoose

/-- A page that is staged takes its content in and puts the old root aside. -/
theorem spares_stage {ws : Markup.Workspace} (hs : s.Intact) (ho : s.outgoing = none)
    (hpage : page.New s.tree ws.tree) :
    let t := { s with registry := ws.registry, tree := ws.tree }.stage
      (page.content.map Markup.Fragment.root)
    t.Intact ∧ s.Spares t := by
  intro t
  obtain ⟨hsprouts, hroot⟩ := hpage.sprouts hs.tree
  have hws := hsprouts.sane hs.tree
  have hleads : Tree.Leads ws.tree t.tree := .head (.dropRoot ws.tree) (Tree.leads_setRoot _ _)
  have hsize : s.tree.slots.size ≤ t.tree.slots.size :=
    Nat.le_trans hsprouts.grown.size_le hleads.later.size_le
  have haside : ∀ o, t.outgoing = some o → ∀ r, o.root = some r → ¬ s.tree.Unused r := by
    rintro o ⟨⟩ r hr
    exact hs.tree.root r (hsprouts.root ▸ hr)
  have hintact : t.Intact :=
    hs.later (hws.leads hleads fun r hr => .inr (hroot r hr).2) hsize (fun _ h => .inl h) rfl haside nofun
  -- the tree has no root meanwhile, but the one it had is put aside
  have hadrift : ∀ x, t.Adrift x → ws.tree.Adrift x ∧ page.content.map Markup.Fragment.root ≠ some x := by
    intro x hx
    have hbare : ({ ws.tree with root := none } : Tree).Forest := hws.forest.congr fun _ => rfl
    obtain ⟨hbefore, hne⟩ := hbare.adrift_of_setRoot hx.tree
    exact ⟨⟨hbefore.live, hbefore.top, hx.not_aside _ rfl, hbefore.not_pinned⟩, hne⟩
  have hold : ∀ x, t.Adrift x → s.Adrift x := by
    intro x hx
    obtain ⟨hbefore, hne⟩ := hadrift x hx
    have hx : ¬ s.tree.Unused x := fun hnew =>
      hne (Option.mem_toList.mp (hsprouts.adrift x hnew hbefore))
    exact ⟨hsprouts.adrift_old hx hbefore, by simp [ho]⟩
  exact ⟨hintact, .of_adrift hsize hold (fun _ h => h) rfl⟩

/-- The old page is gone, with its dialogues and loose widgets. -/
def retire (s : Session σ) (o : Outgoing) : Session σ :=
  { s with
    tree := dropLoose ((s.tree.removeAll o.root.toList).removeAll o.pinned) (s.loose.take o.loose)
    loose := s.loose.drop o.loose
    outgoing := none
    deferred := none }

theorem spares_retire {o : Outgoing} (hs : s.Intact) (ho : s.outgoing = some o) :
    (s.retire o).Intact ∧ s.Spares (s.retire o) := by
  have hleads : Tree.Leads s.tree (s.retire o).tree := ((Tree.leads_removeAll _ _).trans
    (Tree.leads_removeAll _ _)).trans (leads_dropLoose _ _)
  have hsize := hleads.later.size_le
  have hforest := hs.tree.forest
  have hsane : (s.retire o).tree.Sane := hs.tree.leads hleads fun r hr =>
    .inl (Tree.root_of_root_removeAll (Tree.root_of_root_removeAll (root_of_root_dropLoose hr)))
  have hintact : (s.retire o).Intact :=
    hs.later hsane hsize (fun _ h => .inl (List.mem_of_mem_drop h)) rfl nofun fun _ => rfl
  have hadrift : ∀ x, (s.retire o).Adrift x → s.Adrift x ∧ x ∉ s.loose.take o.loose := by
    intro x hx
    obtain ⟨hkept, hout⟩ := adrift_of_dropLoose ((hforest.removeAll _).removeAll _) hx.tree
    have hbefore := (hforest.removeAll _).adrift_of_removeAll hkept
    refine ⟨⟨hforest.adrift_of_removeAll hbefore, fun o' ho' hroot => ?_⟩, hout⟩
    obtain rfl : o = o' := Option.some.inj (ho.symm.trans ho')
    have hmem : x ∈ o.root.toList := Option.mem_toList.mpr hroot
    cases (Tree.not_contains_removeAll hforest hmem .refl).symm.trans hbefore.live
  refine ⟨hintact, ⟨hsize, fun x _ hx => (hadrift x hx).1⟩, fun x hx => ?_, fun _ h => h⟩
  obtain ⟨hold, htake⟩ := hadrift x hx.adrift
  refine ⟨hold, fun hmem => ?_, hx.not_pending⟩
  rw [← List.take_append_drop o.loose s.loose] at hmem
  exact (List.mem_append.mp hmem).elim htake hx.not_loose

theorem spares_commit {o : Outgoing} (hs : s.Intact) (ho : s.outgoing = some o) (url : Url)
    (page : Markup.Page) :
    (s.commit o url page).Intact ∧ (s.commit o url page).outgoing = none ∧
      s.Spares (s.commit o url page) := by
  obtain ⟨⟨hcut, hcuto⟩, hspares⟩ := guards_cancelInFlight hs
  obtain ⟨hretired, hretire⟩ := spares_retire hcut (hcuto.trans ho)
  have hshown : (s.cancelInFlight.retire o).Guards (s.commit o url page) := by
    let c := s.cancelInFlight
    let title := c.titleOf url page
    let shown := { c.retire o with
      title, url
      page := some { url, title, properties := page.properties, scope := c.document }
      deferred := none }
    have hshown : (c.retire o).Guards shown := guards_of_eq rfl rfl rfl rfl id
    exact hshown.trans (guards_startAll (c.deferred.getD []))
  obtain ⟨⟨hcommit, hnone⟩, hlast⟩ := hshown hretired
  exact ⟨hcommit, hnone, hspares.trans (hretire.trans hlast)⟩

/-- A page that fails takes its dialogues and loose widgets with it. -/
theorem spares_rollback {o : Outgoing} (hs : s.Intact) (ho : s.outgoing = some o) :
    (s.rollback o).Intact ∧ (s.rollback o).outgoing = none ∧ s.Spares (s.rollback o) := by
  have hforest := hs.tree.forest
  have hbare := (Tree.leads_setRoot s.tree none).forest hforest
  have hback := (Tree.leads_setRoot (s.tree.setRoot none) o.root).forest hbare
  have hleads : Tree.Leads s.tree (s.rollback o).tree :=
    (((Tree.leads_setRoot _ _).trans (Tree.leads_setRoot _ _)).trans (Tree.leads_removeAll _ _)).trans
      (leads_dropLoose _ _)
  have hsize := hleads.later.size_le
  have hsane : (s.rollback o).tree.Sane := hs.tree.leads hleads fun r hr =>
    .inr (hs.aside o ho r (Tree.root_of_root_removeAll (root_of_root_dropLoose hr)))
  have hintact : (s.rollback o).Intact :=
    hs.later hsane hsize (fun _ h => .inl (List.mem_of_mem_take h)) rfl nofun fun _ => rfl
  have hadrift : ∀ x, (s.rollback o).Adrift x → s.Adrift x ∧ x ∉ s.loose.drop o.loose := by
    intro x hx
    obtain ⟨hkept, hout⟩ := adrift_of_dropLoose (hback.removeAll _) hx.tree
    obtain ⟨hbefore, hne⟩ := hbare.adrift_of_setRoot (hback.adrift_of_removeAll hkept)
    refine ⟨⟨(hforest.adrift_of_setRoot hbefore).1, fun o' ho' hroot => ?_⟩, hout⟩
    obtain rfl : o = o' := Option.some.inj (ho.symm.trans ho')
    exact hne hroot
  refine ⟨hintact, rfl, ⟨hsize, fun x _ hx => (hadrift x hx).1⟩, fun x hx => ?_, fun _ h => h⟩
  obtain ⟨hold, hdrop⟩ := hadrift x hx.adrift
  refine ⟨hold, fun hmem => ?_, hx.not_pending⟩
  rw [← List.take_append_drop o.loose s.loose] at hmem
  exact (List.mem_append.mp hmem).elim hx.not_loose hdrop

/-- A document that does not compile leaves nothing. -/
theorem guards_regains {ws : Markup.Workspace} (h : s.tree.Regains ws.tree) :
    s.Guards { s with registry := ws.registry, tree := ws.tree } := by
  have hold : ∀ x, { s with registry := ws.registry, tree := ws.tree }.Adrift x → s.Adrift x := by
    intro x hx
    have hused : ¬ s.tree.Unused x := fun hnew => by
      cases (h.gone x hnew).symm.trans hx.tree.live
    exact ⟨h.sprouts.adrift_old hused hx.tree, hx.not_aside⟩
  intro hs
  have hsize := h.sprouts.grown.size_le
  have hintact : Intact { s with registry := ws.registry, tree := ws.tree } :=
    hs.later (h.sprouts.sane hs.tree) hsize (fun _ h => .inl h) rfl hs.aside hs.idle
  exact ⟨⟨hintact, rfl⟩, .of_adrift hsize hold (fun _ h => h) rfl⟩

theorem guards_runPage (page : Markup.Page) : Moves Guards (runPage page : Act σ Unit) :=
  (guards_carries.runPage fun _ _ _ _ => trivial).moves fun _ => trivial

/-- Between page changes: the session knows its widgets, and no page is put aside. -/
structure Steady (s : Session σ) : Prop where
  intact : s.Intact
  outgoing : s.outgoing = none

/-- A step after which no widget is newly a stray, between page changes. -/
def Secures (s t : Session σ) : Prop :=
  s.Steady → t.Steady ∧ s.Spares t

theorem Guards.secures (h : s.Guards t) : s.Secures t := by
  intro hs
  obtain ⟨⟨hintact, houtgoing⟩, hspares⟩ := h hs.intact
  exact ⟨⟨hintact, houtgoing.trans hs.outgoing⟩, hspares⟩

instance : IsPreorder (Session σ) Secures where
  refl s := Guards.secures (Std.Refl.refl s)
  trans s t u h k hs := by
    obtain ⟨ht, hst⟩ := h hs
    obtain ⟨hu, htu⟩ := k ht
    exact ⟨hu, hst.trans htu⟩

/-- A page that was compiled is staged and run, and then shown or dropped. -/
theorem secures_install (url : Url) (n : Node) : Moves Secures (install url n : Act σ Unit) := by
  intro s hs
  have hcompiled := meets_compiled (Markup.meets_compilePage hs.intact.tree n) s rfl
  obtain ⟨e, t, hc, h⟩ | ⟨page, t, u, hc, hr, h⟩ := install_outcomes url n s
  · rw [hc] at hcompiled
    obtain ⟨ws, rfl, hregains⟩ := hcompiled
    rw [h]
    exact (guards_regains hregains).secures hs
  · rw [hc] at hcompiled
    obtain ⟨ws, rfl, hpage⟩ := hcompiled
    obtain ⟨hstaged, hstage⟩ := spares_stage hs.intact hs.outgoing hpage
    obtain ⟨⟨hran, ho⟩, hrunning⟩ := guards_runPage page _ hstaged
    rw [hr] at hran ho hrunning
    rcases h with h | ⟨e, h⟩
    · obtain ⟨hintact, hnone, hlast⟩ := spares_commit hran ho url page
      rw [h]
      exact ⟨⟨hintact, hnone⟩, hstage.trans (hrunning.trans hlast)⟩
    · obtain ⟨hintact, hnone, hlast⟩ := spares_rollback hran ho
      rw [h]
      exact ⟨⟨hintact, hnone⟩, hstage.trans (hrunning.trans hlast)⟩

theorem Fetches.guards (h : s.Fetches t) : s.Guards t := by
  obtain ⟨network, rfl⟩ := h
  exact guards_of_eq rfl rfl rfl rfl id

theorem secures_navigates : Navigates (Secures (σ := σ)) where
  fetches _ _ h := h.guards.secures
  history _ _ := Guards.secures (guards_of_eq rfl rfl rfl rfl id)
  install := secures_install

end Hypermedia.Session
