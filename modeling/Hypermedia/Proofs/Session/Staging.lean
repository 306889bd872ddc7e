import Hypermedia.Proofs.Session.PageChange

/-! Staged pages: while the scripts of a new page run, and change no widgets but new ones, all of the old
page stays as it was. -/
namespace Hypermedia

/-- The widgets that a request changes. -/
def Script.Service.changes : Script.Service → List WidgetId
  | .writeField id _ _ | .pin id | .dismiss id => [id]
  | .build b => b.children
  | .append parent child => [parent, child]
  | .readField _ _ | .find _ | .alert _ | .style _ _ _ | .schedule _ _ _ | .act _ _ => []

namespace Session

open Effect (Moves)

variable {σ : Type} {s t u : Session σ} {x id : WidgetId} {ids : List WidgetId} {page : Markup.Page}

/-- `t` stages a page of its own over `s`, whose widgets, dialogues and loose widgets are as they were. -/
structure Staged (s t : Session σ) : Prop where
  grown : s.tree.Extends t.tree
  root : ∀ r, t.tree.root = some r → s.tree.Unused r
  loose : ∃ added, t.loose = s.loose ++ added ∧ ∀ x ∈ added, s.tree.Unused x
  frame : ∃ lists, t = { s with
    tree := t.tree, rules := t.rules, registry := t.registry, world := t.world, document := t.document
    loose := t.loose, timers := t.timers, alerts := t.alerts
    deferred := some lists, outgoing := some s.aside }

section scripts

/-- Where only new widgets find a place, the old loose ones stay loose. -/
theorem filter_loose {added : List WidgetId} (hs : s.Intact) (hids : ∀ x ∈ ids, s.tree.Unused x) :
    (s.loose ++ added).filter (fun x => !ids.contains x) =
      s.loose ++ added.filter fun x => !ids.contains x := by
  rw [List.filter_append, List.filter_eq_self.mpr fun x hx => ?_]
  have hout : x ∉ ids := fun hid => hs.loose x hx (hids x hid)
  simpa using hout

theorem Staged.step (h : s.Staged t) {tree : Tree} {loose : List WidgetId}
    (hgrown : s.tree.Extends tree) (hroot : ∀ r, tree.root = some r → t.tree.root = some r)
    (hloose : ∃ added, loose = s.loose ++ added ∧ ∀ x ∈ added, s.tree.Unused x) :
    s.Staged { t with tree, loose } := by
  obtain ⟨lists, hframe⟩ := h.frame
  refine ⟨hgrown, fun r hr => h.root r (hroot r hr), hloose, lists, ?_⟩
  rw [hframe]

theorem Staged.settled (hs : s.Intact) (h : s.Staged t) (hids : ∀ x ∈ ids, s.tree.Unused x) :
    ∃ added, t.loose.filter (fun x => !ids.contains x) = s.loose ++ added ∧
      ∀ x ∈ added, s.tree.Unused x := by
  obtain ⟨added, hadded, hnew⟩ := h.loose
  refine ⟨added.filter fun x => !ids.contains x, ?_, fun x hx => hnew x (List.mem_of_mem_filter hx)⟩
  rw [hadded, filter_loose hs hids]

theorem staged_placeWidgets (hs : s.Intact) (h : s.Staged t) {r : Except SelectionError Unit × Tree}
    (hgrown : s.tree.Extends r.2) (hroot : r.2.root = t.tree.root) (hids : ∀ x ∈ ids, s.tree.Unused x) :
    s.Staged (t.placeWidgets r ids).2 := by
  have hsettled := h.settled hs hids
  obtain ⟨outcome, tree⟩ := r
  cases outcome with
  | error e => exact h.step hgrown (fun _ hr => hroot.symm.trans hr) h.loose
  | ok => exact h.step hgrown (fun _ hr => hroot.symm.trans hr) hsettled

theorem staged_buildWidget (hs : s.Intact) (h : s.Staged t) {b : Widget.Blueprint}
    (hchildren : ∀ c ∈ b.children, s.tree.Unused c) : s.Staged (t.buildWidget b).2 := by
  have hgrown := Widget.Blueprint.extends_build hs.tree.forest h.grown hchildren
  have hroot := fun r => @Widget.Blueprint.root_of_root_build b t.tree r
  unfold buildWidget
  split
  · exact h
  · split
    · next e tree hr =>
      rw [hr] at hgrown hroot
      exact h.step hgrown hroot h.loose
    · next id tree hr =>
      rw [hr] at hgrown hroot
      obtain ⟨added, hadded, hnew⟩ := h.settled hs hchildren
      have hid : s.tree.Unused id := (Widget.Blueprint.new_of_build hr).1.of_size_le h.grown.size_le
      have hloose : t.loose.filter (fun x => !b.children.contains x) ++ [id] = s.loose ++ (added ++ [id]) := by
        rw [hadded, List.append_assoc]
      exact h.step hgrown hroot ⟨added ++ [id], hloose,
        List.forall_mem_append.mpr ⟨hnew, List.forall_mem_singleton.mpr hid⟩⟩

/-- A request that changes new widgets only leaves the page staged. -/
theorem staged_perform (hs : s.Intact) (h : s.Staged t) {service : Script.Service}
    (hown : ∀ id ∈ service.changes, s.tree.Unused id) : s.Staged (perform service t).2 := by
  have hforest := hs.tree.forest
  obtain ⟨lists, hframe⟩ := h.frame
  cases service with
  | readField id name => exact h
  | writeField id name offer =>
    rw [perform]
    split
    · next htree =>
      obtain ⟨f, rfl, hf⟩ := Script.Field.write_eq_modify htree
      exact h.step (h.grown.modify (hown id List.mem_cons_self) fun w hw => (hf w hw).1)
        (fun _ hr => hr) h.loose
    · exact h
  | find selector =>
    rw [perform]
    split <;> exact h
  | alert message =>
    refine ⟨h.grown, h.root, h.loose, lists, ?_⟩
    rw [hframe]
    rfl
  | style id property value =>
    rw [perform]
    split
    · refine ⟨h.grown, h.root, h.loose, lists, ?_⟩
      rw [hframe]
    · exact h
  | schedule callback milliseconds scope =>
    refine ⟨h.grown, h.root, h.loose, lists, ?_⟩
    rw [hframe]
    rfl
  | act actions caller =>
    -- a page that is staged notes its lists and starts none
    have hdeferred : t.deferred = some lists := by rw [hframe]
    rw [perform, hdeferred]
    split
    · exact h
    · refine ⟨h.grown, h.root, h.loose, lists ++ [(actions, caller)], ?_⟩
      rw [hframe]
  | build b => exact staged_buildWidget hs h hown
  | pin id =>
    exact staged_placeWidgets hs h (h.grown.pin hforest (hown id List.mem_cons_self)) Tree.root_pin hown
  | dismiss id =>
    exact h.step (h.grown.dismiss hforest (hown id List.mem_cons_self))
      (fun _ hr => Tree.root_of_root_dismiss hr) h.loose
  | append parent child =>
    have hparent : s.tree.Unused parent := hown parent List.mem_cons_self
    have hchild : s.tree.Unused child := hown child (List.mem_cons_of_mem _ List.mem_cons_self)
    exact staged_placeWidgets hs h (h.grown.insert hforest hparent hchild) Tree.root_insert
      (List.forall_mem_singleton.mpr hchild)

/-- A page that is staged over `s` stays so. -/
def Stays (s t u : Session σ) : Prop :=
  s.Staged t → s.Staged u

instance (s : Session σ) : IsPreorder (Session σ) s.Stays where
  refl _ h := h
  trans _ _ _ h k hs := k (h hs)

theorem stays_carries (hs : s.Intact) :
    Binds s.Stays (fun service => ∀ id ∈ service.changes, s.tree.Unused id) s.tree.Unused where
  perform _ _ hown h := staged_perform hs h hown
  world t world _ h := by
    obtain ⟨lists, hframe⟩ := h.frame
    refine ⟨h.grown, h.root, h.loose, lists, ?_⟩
    rw [hframe]
  rules t rules h := by
    obtain ⟨lists, hframe⟩ := h.frame
    refine ⟨h.grown, h.root, h.loose, lists, ?_⟩
    rw [hframe]
  bind _ _ _ _ hid _ h :=
    h.step (h.grown.modify hid fun _ _ => ⟨rfl, rfl, rfl⟩) (fun _ hr => hr) h.loose
  scope _ _ _ hid h :=
    h.step (h.grown.modify hid fun _ _ => ⟨rfl, rfl, rfl⟩) (fun _ hr => hr) h.loose

end scripts

section pages

/-- The scripts of a document that is shown change no widgets but those that are made with it or by them. -/
def SelfContained (s : Session σ) (n : Node) : Prop :=
  ∀ page t, compiled (Markup.compilePage n) s = (.ok page, t) →
    ∀ service ∈ pageRequests page (t.stage (page.content.map Markup.Fragment.root)),
      ∀ id ∈ service.changes, s.tree.Unused id

instance (s : Session σ) (n : Node) : Decidable (s.SelfContained n) :=
  match h : compiled (Markup.compilePage n) s with
  | (.error _, _) => .isTrue fun _ _ hc => nomatch h.symm.trans hc
  | (.ok page, t) =>
    decidable_of_iff (∀ service ∈ pageRequests page (t.stage (page.content.map Markup.Fragment.root)),
      ∀ id ∈ service.changes, s.tree.Unused id)
      ⟨fun hall page t hc => by cases h.symm.trans hc; exact hall, fun hall => hall page t h⟩

theorem aside_of_sprouts {ws : Markup.Workspace} {tops : List WidgetId}
    (h : s.tree.Sprouts ws.tree tops) :
    aside { s with registry := ws.registry, tree := ws.tree } = s.aside := by
  simp only [aside, h.root, h.grown.pinned_eq h.pinned]

theorem staged_stage {ws : Markup.Workspace} (hs : s.Intact) (hpage : page.New s.tree ws.tree) :
    s.Staged ({ s with registry := ws.registry, tree := ws.tree }.stage
      (page.content.map Markup.Fragment.root)) := by
  obtain ⟨hsprouts, hroot⟩ := hpage.sprouts hs.tree
  have haside := aside_of_sprouts (s := s) hsprouts
  have hbare : s.tree.Extends { ws.tree with root := none } := hsprouts.grown.withRoot fun _ _ => nofun
  refine ⟨hbare.setRoot hs.tree.forest nofun fun r hr => (hroot r hr).1, fun r hr => (hroot r hr).1, ?_, [], ?_⟩
  · exact ⟨[], (List.append_nil _).symm, nofun⟩
  · rw [← haside]
    rfl

/-- The scripts of a page that is self-contained leave it staged. -/
theorem staged_runPage {ws : Markup.Workspace} (hs : s.Intact) (hpage : page.New s.tree ws.tree)
    (hrequests : ∀ service ∈ pageRequests page ({ s with registry := ws.registry, tree := ws.tree }.stage
      (page.content.map Markup.Fragment.root)), ∀ id ∈ service.changes, s.tree.Unused id) :
    s.Staged (runPage page ({ s with registry := ws.registry, tree := ws.tree }.stage
      (page.content.map Markup.Fragment.root))).2 := by
  have hwidgets : ∀ content, page.content = some content → ∀ id ∈ content.widgets, s.tree.Unused id := by
    intro content hcontent
    rw [Markup.Page.New, hcontent] at hpage
    exact hpage.widgets
  exact (stays_carries hs).runPage hwidgets _ hrequests (staged_stage hs hpage)

/-- What the page change to a self-contained document comes to. -/
theorem install_cases (hs : s.Intact) {url : Url} {n : Node} (hself : s.SelfContained n) :
    (∃ e, ∃ ws : Markup.Workspace, s.tree.Regains ws.tree ∧
      install url n s = (.error e, { s with registry := ws.registry, tree := ws.tree })) ∨
    ∃ page u, s.Staged u ∧ (install url n s = (.ok (), u.commit s.aside url page) ∨
      ∃ e, install url n s = (.error e, u.rollback s.aside)) := by
  have hcompiled := meets_compiled (Markup.meets_compilePage hs.tree n) s rfl
  obtain ⟨e, t, hc, h⟩ | ⟨page, t, u, hc, hr, h⟩ := install_outcomes url n s
  · rw [hc] at hcompiled
    obtain ⟨ws, rfl, hregains⟩ := hcompiled
    exact .inl ⟨e, ws, hregains, h⟩
  · rw [hc] at hcompiled
    obtain ⟨ws, rfl, hpage⟩ := hcompiled
    have hstaged := staged_runPage hs hpage (hself page _ hc)
    rw [hr] at hstaged
    rw [aside_of_sprouts (hpage.sprouts hs.tree).1] at h
    exact .inr ⟨page, u, hstaged, h⟩

end pages

end Session

end Hypermedia
