import Hypermedia.Proofs.Markup.Apart
import Hypermedia.Proofs.Session.Lifetimes
import Hypermedia.Proofs.Session.Preserving
import Hypermedia.Proofs.Session.Scoping

/-! Readying widgets for their scopes: a new page and its scripts leave the fragments that wait apart, and the
widgets that get scopes were not open before. -/
namespace Hypermedia.Session

open Effect (Moves Meets)
open Script (Confined World)

variable {σ : Type} {s t u : Session σ} {x : WidgetId} {ids : List WidgetId} {K : WidgetId → Prop} {n : Node}
  {page : Markup.Page} {r r' : Act σ (List WidgetId)} (transport : Transport σ)

/-- From `s` a step has come so far that scopes may be given to widgets that were not open before, with nothing
of a script bound to them. -/
structure Readies (s : Session σ) (r : Except Error (List WidgetId) × Session σ) : Prop extends s.Heeds r.2 where
  nodup : (newcomers r.1).Nodup
  new : ∀ x ∈ newcomers r.1, r.2.Open x ∧ ¬ s.Open x
  bare : ∀ x ∈ newcomers r.1, r.2.tree.Bare x

/-- From `s` the preparation `r`, scopes for what it gives and nothing else that gives scopes lead to `t`, and
none of them touches a fragment that waits. -/
structure Completes (s : Session σ) (r : Act σ (List WidgetId)) (t : Session σ) : Prop where
  before : s.Readies (r s)
  after : (giveScopes (newcomers (r s).1) (r s).2).Heeds t

section completes

theorem Readies.fresh {r : Except Error (List WidgetId) × Session σ} (h : s.Readies r) (hs : s.Reticent) :
    r.2.Fresh (newcomers r.1) where
  nodup := h.nodup
  opened x hx := (h.new x hx).1
  unowned x hx hmem := (h.new x hx).2 (hs.owners x (h.owners ▸ hmem))

theorem Completes.retains (h : s.Completes r t) (hs : s.Reticent) : t.Reticent ∧ s.Retains t := by
  have hgiven := (reticent_giveScopes h.before.reticent (h.before.fresh hs)).2
  exact ⟨h.after.reticent, h.before.toHeeds.retains.trans (hgiven.trans h.after.retains)⟩

/-- Where nothing is ready, no scope is given. -/
theorem Heeds.readies {r : Except Error (List WidgetId) × Session σ} (h : s.Heeds r.2) (hnone : newcomers r.1 = []) :
    s.Readies r :=
  ⟨h, hnone ▸ .nil, by simp [hnone], by simp [hnone]⟩

theorem Heeds.completes (h : s.Heeds t) (hs : s.Reticent) : s.Completes (pure []) t :=
  ⟨Heeds.readies (r := (.ok [], s)) hs.heeds rfl, h⟩

theorem Completes.trans (h : s.Completes r t) (k : t.Heeds u) : s.Completes r u :=
  ⟨h.before, h.after.trans k⟩

theorem Readies.head {r : Except Error (List WidgetId) × Session σ} (h : s.Heeds t) (k : t.Readies r) :
    s.Readies r :=
  ⟨h.trans k.toHeeds, k.nodup, fun x hx => ⟨(k.new x hx).1, mt (h.opened x) (k.new x hx).2⟩, k.bare⟩

theorem Completes.head (h : s.Heeds t) (k : t.Completes r u) (heq : r' s = r t) : s.Completes r' u where
  before := heq ▸ k.before.head h
  after := heq ▸ k.after

/-- Where the scripts of what is ready are bound, nothing else gives scopes. -/
theorem completes_bindScripts (hs : s.Reticent) (hr : s.Readies (r s)) : s.Completes r ((r >>= bindScripts) s).2 := by
  refine ⟨hr, ?_⟩
  obtain ⟨hgiven, hretains⟩ := reticent_giveScopes hr.reticent (hr.fresh hs)
  have hopen : ∀ x ∈ newcomers (r s).1, (giveScopes (newcomers (r s).1) (r s).2).Open x := fun x hx =>
    hretains.opened x (hr.new x hx).1
  rw [Effect.run_bind]
  revert hgiven hopen
  cases r s with
  | mk result t =>
    cases result with
    | error e => exact fun hgiven _ => hgiven.heeds
    | ok ids =>
      intro hgiven hopen
      change (giveScopes ids t).Heeds (bindScripts ids t).2
      change (giveScopes ids t).Reticent at hgiven
      change ∀ x ∈ ids, (giveScopes ids t).Open x at hopen
      unfold bindScripts
      unfold giveScopes at hgiven hopen ⊢
      rw [Effect.run_bind]
      cases hr : (ids.forM addScope : Act σ PUnit) t with
      | mk outcome u =>
        rw [hr] at hgiven hopen
        cases outcome with
        | ok _ => exact respects_runWidgets (K := (· ∈ ids)) (fun _ h => h) u hgiven hopen
        | error e => exact hgiven.heeds

end completes

section pages

theorem respects_fetches (h : s.Fetches t) : s.Respects K t := by
  obtain ⟨network, rfl⟩ := h
  exact respects_of_eq rfl rfl rfl rfl

theorem respects_addRules (rules : Style.RuleMap) : Moves (Respects K) (addRules rules : Act σ Unit) :=
  moves_addRules (fun _ _ => respects_of_eq rfl rfl rfl rfl) rules

/-- A tree that has grown beside the fragments that wait. -/
theorem respects_sprouts {ws : Markup.Workspace} {tops : List WidgetId} (h : s.tree.Sprouts ws.tree tops) :
    s.Respects K { s with registry := ws.registry, tree := ws.tree } := by
  have hgrown : s.Respects K { s with tree := ws.tree } :=
    respects_tree h.grown.size_le fun hs _ => h.shields hs.encloses
  exact hgrown.trans (respects_of_eq rfl rfl rfl rfl)

theorem respects_stage {root : Option WidgetId} (hroot : ∀ r, root = some r → K r) :
    s.Respects K (s.stage root) := by
  let scopes := (s.world.scopes.add none).2
  have hadded : s.Respects K { s with world := { s.world with scopes } } :=
    respects_world (fun hs _ => World.confined_withScopes hs.world (Script.Scopes.confined_add hs.world.scopes none))
      (s.world.scopes.owners_add none)
  have hstaged : Respects K { s with world := { s.world with scopes } } { s with
      world := { s.world with scopes }
      tree := s.tree.takeRoot.2.setRoot root } := by
    have hsize : s.tree.slots.size ≤ (s.tree.takeRoot.2.setRoot root).slots.size :=
      (Tree.leads_setRoot s.tree.takeRoot.2 root).later.size_le
    refine respects_tree hsize fun hs hK => ?_
    have hbare : Tree.Shields _ s.tree s.tree.takeRoot.2 := hs.encloses.withLayers nofun hs.encloses.pinned
    exact hbare.trans (hbare.encloses.setRoot fun r hr => not_withheld hK (hroot r hr))
  exact (hadded.trans hstaged).trans (respects_of_eq rfl rfl rfl rfl)

theorem shields_dropLoose {inside : WidgetId → Prop} {tree : Tree} (h : tree.Encloses inside)
    (hids : ∀ x ∈ ids, ¬ inside x) : Tree.Shields inside tree (dropLoose tree ids) := by
  obtain ⟨dropped, hsub, heq⟩ := dropLoose_eq tree ids
  exact heq ▸ h.removeAll fun x hx => hids x (hsub hx)

/-- A page that is complete has the fragments dropped that wait. -/
theorem heeds_commit (hs : s.Reticent) (o : Outgoing) (url : Url) (page : Markup.Page) :
    s.Heeds (s.commit o url page) := by
  obtain ⟨hpending, -, ids, -, htree⟩ := commit_frame s o url page
  refine hs.heeds_of_secluded (secluded_of_pending ?_ hpending) ?_ ?_ (world_commit s o url page)
  · exact htree ▸ hs.forest.removeAll ids
  · exact htree ▸ Nat.le_of_eq Tree.size_removeAll.symm
  · simp [Withheld, hpending]

theorem heeds_rollback (hs : s.Reticent) {o : Outgoing} (hroot : ∀ r, o.root = some r → s.Open r) :
    s.Heeds (s.rollback o) := by
  have hcleared : Tree.Shields s.Withheld s.tree (s.tree.setRoot none) := hs.encloses.setRoot nofun
  have hback := hcleared.trans (hcleared.encloses.setRoot fun r hr => (hroot r hr).2)
  let pinned := ((s.tree.setRoot none).setRoot o.root).pinned.filter fun id => !o.pinned.contains id
  have hunpinned := hback.trans (hback.encloses.removeAll fun x (hx : x ∈ pinned) =>
    hback.encloses.pinned x (List.mem_of_mem_filter hx))
  have hdropped := hunpinned.trans (shields_dropLoose hunpinned.encloses fun x (hx : x ∈ s.loose.drop o.loose) =>
    hs.loose x (List.mem_of_mem_drop hx))
  have hsize : s.tree.slots.size ≤ (s.rollback o).tree.slots.size :=
    (keeps_rollback o).size_le
  exact hs.heeds_of_secluded (hs.step hdropped rfl fun x hx => .inl (List.mem_of_mem_take hx)) hsize
    (fun _ hx => hx.2) rfl

theorem respects_preparePage (page : Markup.Page) :
    Moves (Respects K) (preparePage page : Act σ (List WidgetId)) := by
  refine Effect.moves_get_bind fun s => ?_
  have hscripts : Moves (Respects K) (page.scripts.forM fun source => runScript source s.document "Page" :
      Act σ PUnit) :=
    Effect.moves_forM _ fun source _ => respects_runScript source s.document "Page"
  refine Effect.moves_bind_at (hscripts s) fun _ => ?_
  exact Effect.moves_bind (respects_addRules page.rules) fun _ => Effect.moves_pure _

theorem preserves_preparePage (page : Markup.Page) :
    Moves (Preserves fun _ => True) (preparePage page : Act σ (List WidgetId)) := by
  refine Effect.moves_get_bind fun s => ?_
  have hscripts : Moves (Preserves fun _ => True) (page.scripts.forM fun source =>
      runScript source s.document "Page" : Act σ PUnit) :=
    Effect.moves_forM _ fun source _ =>
      (preserves_carries.runScript source s.document "Page").moves fun _ => trivial
  refine Effect.moves_bind_at (hscripts s) fun _ => ?_
  exact Effect.moves_bind (moves_addRules preserves_carries.rules page.rules) fun _ => Effect.moves_pure _

theorem newcomers_preparePage (page : Markup.Page) (s : Session σ) :
    (newcomers (preparePage page s).1).Sublist ((page.content.map (·.widgets)).getD []) := by
  have hgives : Effect.Gives (fun _ ids _ => ids = (page.content.map (·.widgets)).getD [])
      (preparePage page : Act σ (List WidgetId)) := by
    intro s ids t h
    rw [preparePage, Effect.run_get_bind] at h
    obtain ⟨_, _, -, h⟩ := Effect.bind_eq_ok h
    obtain ⟨_, _, -, h⟩ := Effect.bind_eq_ok h
    cases h
    rfl
  cases hr : preparePage page s with
  | mk result t =>
    cases result with
    | ok ids => exact hgives s ids t hr ▸ List.Sublist.refl _
    | error e => exact List.nil_sublist _

/-- A page that has been compiled has open widgets that were not there before, with nothing bound yet. -/
theorem heeds_compiled {ws : Markup.Workspace} (hs : s.Reticent) (htree : s.tree.Sane)
    (hpage : page.Holds s.tree (Markup.Fragment.Apart s.tree) ws.tree) :
    let t := { s with registry := ws.registry, tree := ws.tree }
    let ids := (page.content.map (·.widgets)).getD []
    s.Heeds t ∧ (∀ r, page.content.map Markup.Fragment.root = some r → t.Open r) ∧ ids.Nodup ∧
      ∀ x ∈ ids, (t.Open x ∧ ¬ s.Open x) ∧ t.tree.Bare x := by
  have hnew : ∀ x, s.tree.Unused x → ¬ s.Withheld x := fun x hx hw => Tree.not_unused_of_contains (hs.live hw) hx
  obtain ⟨hsprouts, hroot⟩ := hpage.new.sprouts htree
  refine ⟨.of_respects hs (respects_sprouts hsprouts), fun r hr => ?_, ?_⟩
  · exact ⟨(hroot r hr).2, hnew r (hroot r hr).1⟩
  cases hcontent : page.content with
  | none => exact ⟨.nil, nofun⟩
  | some c =>
    rw [Markup.Page.Holds, hcontent] at hpage
    refine ⟨hpage.spans.nodup, fun x hx => ?_⟩
    have hunused := hpage.new.widgets x hx
    have hlive := ((hpage.spans.mem_iff x).mp hx).1
    exact ⟨⟨⟨Tree.not_unused_of_contains hlive, hnew x hunused⟩, fun hopen => hopen.1 hunused⟩, hpage.bare x hx⟩

theorem readies_prepareInstall (hs : s.Reticent) (htree : s.tree.Sane) (n : Node) :
    s.Readies (prepareInstall n s) := by
  have hcompiled := meets_compiled (Markup.apart_compilePage htree n) s rfl
  rw [prepareInstall, Effect.run_bind]
  cases hc : compiled (Markup.compilePage n) s with
  | mk result t =>
    rw [hc] at hcompiled
    cases result with
    | error e =>
      obtain ⟨ws, rfl, hregains⟩ := hcompiled
      exact (Heeds.of_respects hs (respects_sprouts hregains.sprouts)).readies rfl
    | ok page =>
      obtain ⟨ws, rfl, hpage⟩ := hcompiled
      obtain ⟨hmade, hroot, hnodup, hnew⟩ := heeds_compiled hs htree hpage
      dsimp only
      rw [Effect.run_modify_bind]
      let t := { s with registry := ws.registry, tree := ws.tree }
      let staged := t.stage (page.content.map Markup.Fragment.root)
      have hstaged : t.Heeds staged :=
        respects_stage (K := fun x => page.content.map Markup.Fragment.root = some x) (fun _ => id) hmade.reticent hroot
      have hran : staged.Heeds (preparePage page staged).2 :=
        .of_respects hstaged.reticent (respects_preparePage page _)
      have hnewcomers := newcomers_preparePage page staged
      have hsame : t.Preserves (fun _ => True) (preparePage page staged).2 :=
        (preserves_of_wires (P := fun _ => True) (wires_stage _)).trans (preserves_preparePage page staged)
      refine ⟨(hmade.trans hstaged).trans hran, hnodup.sublist hnewcomers, fun x hx => ?_, fun x hx => ?_⟩
      · obtain ⟨⟨hopen, hclosed⟩, -⟩ := hnew x (hnewcomers.subset hx)
        exact ⟨hran.opened x (hstaged.opened x hopen), hclosed⟩
      · obtain ⟨⟨hopen, -⟩, hbare⟩ := hnew x (hnewcomers.subset hx)
        exact hsame.bare trivial hopen.1 hbare

theorem run_prepareInstall_bindScripts (n : Node) (s : Session σ) :
    (prepareInstall n >>= bindScripts) s = match compiled (Markup.compilePage n) s with
      | (.error e, t) => (.error e, t)
      | (.ok page, t) => runPage page (t.stage (page.content.map Markup.Fragment.root)) := by
  rw [prepareInstall, bind_assoc, Effect.run_bind]
  cases compiled (Markup.compilePage n) s with
  | mk result t =>
    cases result with
    | error e => rfl
    | ok page =>
      dsimp only
      rw [runPage_eq, bind_assoc, Effect.run_modify_bind]

theorem completes_install (hs : s.Reticent) (htree : s.tree.Sane) (url : Url) (n : Node) :
    s.Completes (prepareInstall n) (install url n s).2 := by
  have hbound := completes_bindScripts hs (readies_prepareInstall hs htree n)
  have hcompiled := meets_compiled (Markup.apart_compilePage htree n) s rfl
  rw [run_prepareInstall_bindScripts] at hbound
  obtain ⟨e, t, hc, h⟩ | ⟨page, t, u, hc, hr, h⟩ := install_outcomes url n s
  · rw [hc] at hbound
    rw [h]
    exact hbound
  · rw [hc] at hbound hcompiled
    obtain ⟨ws, rfl, hpage⟩ := hcompiled
    dsimp only at hbound
    rw [hr] at hbound
    obtain ⟨hran, hretains⟩ := hbound.retains hs
    -- the root that is put aside was open when the page came
    have haside : ∀ r, ws.tree.root = some r → s.Open r := fun r hr => by
      rw [(hpage.new.sprouts htree).1.root] at hr
      exact ⟨htree.root r hr, hs.root r hr⟩
    rcases h with h | ⟨e, h⟩ <;> rw [h]
    · exact hbound.trans (heeds_commit hran _ url page)
    · exact hbound.trans (heeds_rollback hran fun r hr => hretains.opened r (haside r hr))

theorem completes_bind {α β : Type} {p : Act σ α} {r : α → Act σ (List WidgetId)} {f : α → Act σ β}
    (hp : s.Heeds (p s).2) (hf : ∀ a t, p s = (.ok a, t) → t.Completes (r a) (f a t).2) :
    s.Completes (p >>= r) ((p >>= f) s).2 := by
  rw [Effect.run_bind p f]
  cases h : p s with
  | mk result t =>
    rw [h] at hp
    cases result with
    | ok a =>
      refine (hf a t h).head hp ?_
      rw [Effect.run_bind, h]
    | error e =>
      have hfails : (p >>= r) s = (.error e, t) := by rw [Effect.run_bind, h]
      exact ⟨hfails ▸ hp.readies rfl, hfails ▸ hp.reticent.heeds⟩

theorem completes_visit (hs : s.Reticent) (htree : s.tree.Sane) (destination : String) :
    s.Completes (prepareVisit transport destination) (visit transport destination s).2 := by
  have hfetched := fetches_fetched transport destination s
  rw [visit_eq]
  refine completes_bind (.of_respects hs (respects_fetches hfetched)) fun found t h => ?_
  rw [h] at hfetched
  have hheeds : s.Heeds t := .of_respects hs (respects_fetches hfetched)
  obtain ⟨network, rfl⟩ := hfetched
  exact completes_install hheeds.reticent htree found.1 found.2

theorem completes_route (hs : s.Reticent) (htree : s.tree.Sane) (destination : String) (suppressHistory : Bool) :
    s.Completes (prepareRoute transport destination suppressHistory)
      (route transport destination suppressHistory s).2 := by
  cases suppressHistory with
  | true => exact completes_visit transport hs htree destination
  | false =>
    let pushed : Session σ := { s with history := s.history.push destination }
    have hpushed : s.Heeds pushed := .of_respects hs (respects_of_eq rfl rfl rfl rfl)
    exact Completes.head hpushed (completes_visit transport hpushed.reticent htree destination) rfl

theorem completes_revisit (hs : s.Reticent) (htree : s.tree.Sane) (move : History → History) :
    s.Completes (prepareRevisit transport move) (revisit transport move s).2 := by
  have hmoved : s.Heeds { s with history := move s.history } :=
    .of_respects hs (respects_of_eq rfl rfl rfl rfl)
  obtain ⟨h, hprepare⟩ | ⟨destination, h, hprepare⟩ := revisit_outcomes transport move s
  · rw [h]
    exact Completes.head hmoved (hmoved.reticent.heeds.completes hmoved.reticent) hprepare
  · rw [h]
    exact Completes.head hmoved (completes_route transport hmoved.reticent htree destination true) hprepare

end pages

end Hypermedia.Session
