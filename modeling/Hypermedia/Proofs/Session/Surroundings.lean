import Hypermedia.Proofs.Session.Bindings
import Hypermedia.Proofs.Session.Late
import Mathlib

/-! What scopes are inside of: the scope of a widget is inside that of the nearest widget around it at the
time when its scripts were bound, and stays there wherever the widget goes. -/
namespace Hypermedia.Session

open Effect (Moves)
open Script (World)

variable {σ : Type} {s t u : Session σ} {x : WidgetId} {id p : ScopeId} (transport : Transport σ)

/-- `p` is the scope of the nearest widget around `x` that has one, or that of the document if none has. -/
def Surrounds (s : Session σ) (x : WidgetId) (p : ScopeId) : Prop :=
  (∃ a, s.tree.NearestScope x a p) ∨
    (∀ a, s.tree.Below x a → s.tree.scope? a = none) ∧ p = s.document

theorem surrounds_iff (h : s.tree.Forest) :
    s.Surrounds x p ↔ s.scopeAmong (s.tree.ancestors x) = p := by
  have hamong : s.scopeAmong (s.tree.ancestors x) =
      ((s.tree.ancestors x).findSome? s.tree.scope?).getD s.document := rfl
  rw [Surrounds, h.exists_nearestScope_iff, h.bare_iff, hamong]
  cases (s.tree.ancestors x).findSome? s.tree.scope? with
  | none => simp [eq_comm]
  | some _ => simp

/-- In the turn that `s` takes, `u` is where `x` gets a scope: the widgets to get theirs before it have
them. -/
def BoundAt (s : Session σ) (turn : Turn σ) (x : WidgetId) (u : Session σ) : Prop :=
  ∃ before after, newcomers (prepare transport turn s).1 = before ++ x :: after ∧
    (before.forM addScope : Act σ PUnit) (prepare transport turn s).2 = (.ok ⟨⟩, u) ∧
    u.tree.contains x = true

/-- `t` can come after `s`: what was a forest is one again, and each scope is still inside the one it was
made in. -/
structure Lasts (s t : Session σ) : Prop where
  forest : s.tree.Forest → t.tree.Forest
  scopes : s.world.scopes.Extends t.world.scopes

instance : IsPreorder (Session σ) Lasts where
  refl _ := ⟨fun hs => hs, .refl _⟩
  trans _ _ _ h k := ⟨fun hs => k.forest (h.forest hs), h.scopes.trans k.scopes⟩

theorem Abides.lasts (h : s.Abides t) : s.Lasts t :=
  ⟨h.tree.forest, h.scopes⟩

section scopes

/-- The world once a widget has got the next scope, in which it is named. -/
def scopedWorld (s : Session σ) (x : WidgetId) : World :=
  let added := s.world.scopes.add (some (s.scopeAmong (s.tree.ancestors x)))
  let scopes := added.2.modify added.1 fun sc => { sc with widget := some x }
  let handle := { s.world with scopes }.addHandle (.widget x)
  { handle.2 with scopes := (handle.2.scopes.define added.1 "self" handle.1).2 }

theorem run_addScope (x : WidgetId) (s : Session σ) :
    addScope x s = match s.tree.widget x with
      | .ok _ => (.ok (), { s with
          world := s.scopedWorld x
          tree := s.tree.modify x fun w => { w with scope := some ⟨s.world.scopes.all.size⟩ } })
      | .error e => (.error (.selection e), { s with world := s.scopedWorld x }) := by
  rw [addScope, Effect.run_get_bind, run_modifyWorld_bind, widgetHandle, run_modifyWorld_bind,
    run_modifyWorld_bind, run_liveWidget_bind]
  dsimp only
  cases s.tree.widget x <;> rfl

/-- The scope that a widget gets is inside that of the nearest widget around. -/
theorem extends_scopedWorld (s : Session σ) (x : WidgetId) :
    s.world.scopes.Extends (s.scopedWorld x).scopes ∧
      s.world.scopes.all.size < (s.scopedWorld x).scopes.all.size ∧
      (s.scopedWorld x).scopes.parent? ⟨s.world.scopes.all.size⟩ = some (s.scopeAmong (s.tree.ancestors x)) := by
  let parent := s.scopeAmong (s.tree.ancestors x)
  let added := s.world.scopes.add (some parent)
  let marked := added.2.modify added.1 fun sc => { sc with widget := some x }
  have hadded : s.world.scopes.Extends added.2 := s.world.scopes.extends_add (some parent)
  have hmarked : added.2.Extends marked := Script.Scopes.extends_modify _ _ fun _ => rfl
  have hnamed : added.2.Extends (s.scopedWorld x).scopes := hmarked.trans (marked.extends_define _ _ _)
  have hlt : s.world.scopes.all.size < added.2.all.size := by simp [added, Script.Scopes.add]
  refine ⟨hadded.trans hnamed, Nat.lt_of_lt_of_le hlt hnamed.size_le, ?_⟩
  exact (hnamed.parent? added.1 hlt).trans (s.world.scopes.parent?_add (some parent))

theorem lasts_addScope (x : WidgetId) : Moves Lasts (addScope x : Act σ Unit) := by
  intro s
  have hworld := (extends_scopedWorld s x).1
  rw [run_addScope]
  split
  · exact ⟨fun hs => Tree.Forest.modify (fun _ _ => ⟨rfl, rfl, rfl⟩) hs, hworld⟩
  · exact ⟨fun hs => hs, hworld⟩

theorem lasts_giveScopes (ids : List WidgetId) (s : Session σ) : s.Lasts (giveScopes ids s) :=
  Effect.moves_forM ids (fun x _ => lasts_addScope x) s

theorem forM_addScope_cons (y : WidgetId) (rest : List WidgetId) (s : Session σ) :
    ((y :: rest).forM addScope : Act σ PUnit) s = match addScope y s with
      | (.ok _, t) => (rest.forM addScope : Act σ PUnit) t
      | (.error e, t) => (.error e, t) := by
  change (addScope y >>= fun _ => rest.forM addScope : Act σ PUnit) s = _
  rw [Effect.run_bind]
  cases addScope y s with
  | mk result t => cases result <;> rfl

/-- A widget that has a scope had it before, or it got it in its turn. -/
theorem scope_of_giveScopes {ids : List WidgetId} (h : (giveScopes ids s).tree.scope? x = some id) :
    s.tree.scope? x = some id ∨ ∃ before after u, ids = before ++ x :: after ∧
      (before.forM addScope : Act σ PUnit) s = (.ok ⟨⟩, u) ∧ u.tree.contains x = true ∧
      id.index < (giveScopes ids s).world.scopes.all.size ∧
      (giveScopes ids s).world.scopes.parent? id = some (u.scopeAmong (u.tree.ancestors x)) := by
  induction ids generalizing s with
  | nil => exact .inl h
  | cons y rest ih =>
    obtain ⟨-, hlt, hparent⟩ := extends_scopedWorld s y
    cases hw : s.tree.widget y with
    | error e =>
      have hgive : giveScopes (y :: rest) s = { s with world := s.scopedWorld y } := by
        rw [giveScopes, forM_addScope_cons, run_addScope, hw]
      rw [hgive] at h
      exact .inl h
    | ok w =>
      let next : Session σ := { s with
        world := s.scopedWorld y
        tree := s.tree.modify y fun w => { w with scope := some ⟨s.world.scopes.all.size⟩ } }
      have hnext : addScope y s = (.ok (), next) := by rw [run_addScope, hw]
      have hgive : giveScopes (y :: rest) s = giveScopes rest next := by
        rw [giveScopes, forM_addScope_cons, hnext, giveScopes]
      rw [hgive] at h ⊢
      rcases ih h with hold | ⟨before, after, u, rfl, hbefore, hu⟩
      · by_cases hxy : x = y
        · subst hxy
          have hget := Tree.widget_eq_ok.mp hw
          have hid : id = ⟨s.world.scopes.all.size⟩ := by
            simpa [next, Tree.scope?, Tree.get?_modify, hget, eq_comm] using hold
          have hlater := (lasts_giveScopes rest next).scopes
          refine .inr ⟨[], rest, s, rfl, rfl, Tree.contains_iff.mpr ⟨w, hget⟩, ?_, ?_⟩
          · exact hid ▸ Nat.lt_of_lt_of_le hlt hlater.size_le
          · rw [hid]
            exact (hlater.parent? ⟨s.world.scopes.all.size⟩ hlt).trans hparent
        · refine .inl ?_
          simpa [next, Tree.scope?, Tree.get?_modify, hxy] using hold
      · refine .inr ⟨y :: before, after, u, rfl, ?_, hu⟩
        rw [forM_addScope_cons, hnext]
        exact hbefore

end scopes

section turns

theorem lasts_after (turn : Turn σ) (s : Session σ) : s.Lasts (s.after transport turn) := by
  obtain ⟨hbefore, hafter⟩ := prepares_after transport turn s
  exact IsTrans.trans _ _ _ hbefore.lasts (IsTrans.trans _ _ _ (lasts_giveScopes _ _) hafter.lasts)

theorem lasts_afterAll (turns : List (Turn σ)) (s : Session σ) :
    s.Lasts (s.afterAll transport turns) := by
  induction turns generalizing s with
  | nil => exact Std.Refl.refl s
  | cons turn turns ih => exact IsTrans.trans _ _ _ (lasts_after transport turn s) (ih _)

variable {transport}

theorem BoundAt.forest {turn : Turn σ} (h : s.BoundAt transport turn x u) (hs : s.tree.Forest) :
    u.tree.Forest := by
  obtain ⟨before, after, -, hrun, -⟩ := h
  have hprepared := (prepares_after transport turn s).before.lasts
  have hgiven := lasts_giveScopes before (prepare transport turn s).2
  rw [giveScopes, hrun] at hgiven
  exact hgiven.forest (hprepared.forest hs)

/-- `x` was given the scope `id` in some turn of a run, and this is inside the scope that was around `x`
then. -/
theorem scope_of_after {turn : Turn σ} (h : (s.after transport turn).tree.scope? x = some id) :
    s.tree.scope? x = some id ∨ ∃ u, s.BoundAt transport turn x u ∧
      id.index < (s.after transport turn).world.scopes.all.size ∧
      (s.after transport turn).world.scopes.parent? id = some (u.scopeAmong (u.tree.ancestors x)) := by
  obtain ⟨hbefore, hafter⟩ := prepares_after transport turn s
  rcases scope_of_giveScopes (hafter.tree.scope? x id h) with hold |
    ⟨before, after, u, hids, hrun, hlive, hlt, hparent⟩
  · exact .inl (hbefore.tree.scope? x id hold)
  · refine .inr ⟨u, ⟨before, after, hids, hrun, hlive⟩, ?_, ?_⟩
    · exact Nat.lt_of_lt_of_le hlt hafter.scopes.size_le
    · exact (hafter.scopes.parent? id hlt).trans hparent

theorem scope_of_afterAll {turns : List (Turn σ)}
    (h : (s.afterAll transport turns).tree.scope? x = some id) :
    s.tree.scope? x = some id ∨ ∃ done turn rest u, turns = done ++ turn :: rest ∧
      (s.afterAll transport done).BoundAt transport turn x u ∧
      id.index < (s.afterAll transport turns).world.scopes.all.size ∧
      (s.afterAll transport turns).world.scopes.parent? id =
        some (u.scopeAmong (u.tree.ancestors x)) := by
  induction turns generalizing s with
  | nil => exact .inl h
  | cons turn turns ih =>
    rcases ih h with hold | ⟨done, later, rest, u, rfl, hbound, hparent⟩
    · rcases scope_of_after hold with hold | ⟨u, hbound, hlt, hparent⟩
      · exact .inl hold
      · have hlater := (lasts_afterAll transport turns (s.after transport turn)).scopes
        refine .inr ⟨[], turn, turns, u, rfl, hbound, Nat.lt_of_lt_of_le hlt hlater.size_le, ?_⟩
        exact (hlater.parent? id hlt).trans hparent
    · exact .inr ⟨turn :: done, later, rest, u, rfl, hbound, hparent⟩

end turns

theorem start_empty {config : Config} {network : σ} (h : start config network = .ok s) :
    s.tree = {} ∧ s.registry = {} := by
  obtain ⟨url, -, rfl⟩ := start_eq_ok h
  exact ⟨rfl, rfl⟩

/-- Scopes stay where they were made. In every run of a session a widget that has a scope got it in one of
the turns, where it had just been placed, and that scope is inside the scope of the widget that was then
the nearest around it to have one, or of the document if none had; it is so for good, wherever the widget
and those around it are put later. -/
theorem scope_stays_inside (config : Config) (network : σ) (first : Session σ)
    (hstart : start config network = .ok first) (turns : List (Turn σ)) (x : WidgetId) (id : ScopeId)
    (h : (first.afterAll transport turns).tree.scope? x = some id) :
    ∃ done turn rest u p, turns = done ++ turn :: rest ∧
      (first.afterAll transport done).BoundAt transport turn x u ∧ u.Surrounds x p ∧
      ∀ more, (first.afterAll transport (turns ++ more)).world.scopes.parent? id = some p := by
  have hbare : first.tree.scope? x ≠ some id := by
    rw [(start_empty hstart).1]
    nofun
  obtain ⟨done, turn, rest, u, rfl, hbound, hlt, hparent⟩ := (scope_of_afterAll h).resolve_left hbare
  have hforest : (first.afterAll transport done).tree.Forest :=
    (sound_afterAll transport (sound_start hstart) done).intact.tree.forest
  refine ⟨done, turn, rest, u, _, rfl, hbound, (surrounds_iff (hbound.forest hforest)).mpr rfl, ?_⟩
  intro more
  have hlater := (lasts_afterAll transport more (first.afterAll transport (done ++ turn :: rest))).scopes
  rw [afterAll, List.foldl_append]
  exact (hlater.parent? id hlt).trans hparent

section examples

/-- A server that answers every request with the same document. -/
def serving (body : String) : Transport Unit where
  send _ s := s
  reply r s := (some (.ok { url := r.url.text, status := 200, body }), s)

def strayingSource : String :=
  "timeout(function() find(\"#b\"):append(find(\"text\")) end, 0)"

/-- A page with a text beside a tower into which it goes after a time. -/
def strayingText : String :=
  "<celx><page><tower><tower eid=\"b\"/><text/></tower><script>" ++ strayingSource ++
    "</script></page></celx>"

def strayingDocument : Node :=
  .mk "celx" [] none [.mk "page" [] none [
    .mk "tower" [] none [.mk "tower" [("eid", "b")] none [] none, .ofTag "text"] none,
    .mk "script" [] (some strayingSource) [] none] none] none

def strayingPage : Markup.Page :=
  { properties := [], title := none, scripts := [strayingSource]
    content := some { root := ⟨0⟩, rules := {}, widgets := [⟨0⟩, ⟨1⟩, ⟨2⟩] } }

def strayingTree : Tree :=
  { slots := #[some { kind := .tower, children := [⟨1⟩, ⟨2⟩] },
      some { kind := .tower, eid := some "b", parent := some ⟨0⟩ },
      some { kind := .text, parent := some ⟨0⟩ }] }

theorem compilePage_straying :
    (Markup.compilePage strayingDocument).run {} = (.ok strayingPage, { tree := strayingTree }) := by
  cbv

theorem run_lift_ok_bind {ε α β : Type} (into : ε → Error) (a : α) (f : α → Act σ β) (s : Session σ) :
    (lift into (.ok a) >>= f) s = f a s := rfl

/-- A document without resources is found as it was sent. -/
theorem fetched_serving {body destination : String} {s : Session Unit} {n : Node} {url : Url}
    (hurl : resolveEndpoint s.url destination = .ok url)
    (hrequest : (Network.Request.ofText .get url.text).toOption.isSome)
    (hparse : Markup.parse body = .ok n)
    (hinlined : inlined (serving body) url n s = (.ok n, s)) :
    fetched (serving body) destination s = (.ok (url, n), s) := by
  cases hr : Network.Request.ofText .get url.text with
  | error e =>
    rw [hr] at hrequest
    cases hrequest
  | ok request =>
    have hdocument : fetchDocument (serving body) url s =
        (.ok { url := request.url.text, status := 200, body }, s) := by
      rw [fetchDocument, hr]
      rfl
    rw [fetched, Effect.run_get_bind, hurl, run_lift_ok_bind, Effect.run_bind, hdocument]
    dsimp only
    rw [readMarkup, hparse, run_lift_ok_bind, Effect.run_bind, hinlined]
    rfl

section first

variable {body : String} {n : Node} {page : Markup.Page} {tree : Tree} {first : Session Unit}
  (hstart : start {} () = .ok first) (hurl : (resolveEndpoint first.url "/").toOption = some first.url)
  (hrequest : (Network.Request.ofText .get first.url.text).toOption.isSome) (hparse : Markup.parse body = .ok n)
  (hinlined : inlined (serving body) first.url n first = (.ok n, first))
  (hcompiled : (Markup.compilePage n).run {} = (.ok page, { tree }))

include hurl hrequest hparse hinlined in
/-- At the address of a new session the document is found. -/
theorem fetched_first : fetched (serving body) "/" first = (.ok (first.url, n), first) := by
  have hresolved : resolveEndpoint first.url "/" = .ok first.url := by
    cases hr : resolveEndpoint first.url "/" with
    | error e =>
      rw [hr] at hurl
      cases hurl
    | ok url =>
      rw [hr] at hurl
      exact congrArg Except.ok (Option.some.inj hurl)
  exact fetched_serving hresolved hrequest hparse hinlined

include hstart hcompiled in
theorem compiled_first :
    compiled (Markup.compilePage n) first = (.ok page, { first with registry := {}, tree }) := by
  obtain ⟨htree, hregistry⟩ := start_empty hstart
  have hrun : (Markup.compilePage n).run { registry := first.registry, tree := first.tree } = (.ok page, { tree }) := by
    rw [htree, hregistry]
    exact hcompiled
  exact compiled_of_run hrun

include hstart hurl hrequest hparse hinlined hcompiled in
/-- The page at the address of a new session, once it is shown. -/
theorem after_serving : first.after (serving body) (.route "/" true) =
    ({ first with registry := {}, tree }.presented first.url page).2 := by
  have hvisited : visit (serving body) "/" first =
      { first with registry := {}, tree }.presented first.url page := by
    rw [visit_eq, Effect.run_bind, fetched_first hurl hrequest hparse hinlined]
    dsimp only
    rw [install_eq, compiled_first hstart hcompiled]
    rfl
  exact congrArg Prod.snd hvisited

end first

/-- The page with the straying text, once it is shown. -/
def shownStraying (s : Session Unit) : Session Unit :=
  ({ s with registry := {}, tree := strayingTree }.presented s.url strayingPage).2

theorem after_straying {first : Session Unit} (hstart : start {} () = .ok first)
    (hurl : (resolveEndpoint first.url "/").toOption = some first.url)
    (hrequest : (Network.Request.ofText .get first.url.text).toOption.isSome) :
    first.after (serving strayingText) (.route "/" true) = first.shownStraying :=
  after_serving hstart hurl hrequest (n := strayingDocument) (by cbv) (by cbv) compilePage_straying

/-- The text has gone into the tower, and its scope is still inside that of the widget around both. -/
theorem straying_state : ∃ first, start {} () = .ok first ∧
    let s := first.afterAll (serving strayingText) [.route "/" true, .timers]
    s.tree.isAttached ⟨2⟩ = true ∧ s.tree.scope? ⟨2⟩ = some ⟨4⟩ ∧
      s.world.scopes.parent? ⟨4⟩ = some ⟨2⟩ ∧ s.scopeAmong (s.tree.ancestors ⟨2⟩) = ⟨3⟩ := by
  obtain ⟨first, hstart, hurl, hrequest, hstate⟩ := exists_start (p := fun first =>
    (resolveEndpoint first.url "/").toOption = some first.url ∧
    (Network.Request.ofText .get first.url.text).toOption.isSome ∧
    let s := first.shownStraying.fireTimers
    s.tree.isAttached ⟨2⟩ = true ∧ s.tree.scope? ⟨2⟩ = some ⟨4⟩ ∧
      s.world.scopes.parent? ⟨4⟩ = some ⟨2⟩ ∧ s.scopeAmong (s.tree.ancestors ⟨2⟩) = ⟨3⟩) (by decide +kernel)
  have hshown := after_straying hstart hurl hrequest
  refine ⟨first, hstart, ?_⟩
  rw [afterAll, List.foldl_cons, hshown]
  exact hstate

/-- Scopes do not follow the tree: the widget that is now nearest around the text has another scope than
that which the scope of the text is inside of. -/
theorem straying_scope : ∃ first, start {} () = .ok first ∧
    let s := first.afterAll (serving strayingText) [.route "/" true, .timers]
    s.tree.isAttached ⟨2⟩ = true ∧ s.tree.scope? ⟨2⟩ = some ⟨4⟩ ∧
      s.world.scopes.parent? ⟨4⟩ = some ⟨2⟩ ∧ s.Surrounds ⟨2⟩ ⟨3⟩ ∧ ¬ s.Surrounds ⟨2⟩ ⟨2⟩ := by
  obtain ⟨first, hstart, hattached, hscope, hparent, haround⟩ := straying_state
  have hforest : (first.afterAll (serving strayingText) [.route "/" true, .timers]).tree.Forest :=
    (sound_afterAll _ (sound_start hstart) _).intact.tree.forest
  refine ⟨first, hstart, hattached, hscope, hparent, ?_, ?_⟩
  · exact (surrounds_iff hforest).mpr haround
  · rw [surrounds_iff hforest, haround]
    decide

/-- The text got its scope with the page, when the widget around both was the nearest around it. -/
theorem straying_stays_inside : ∃ first, start {} () = .ok first ∧
    let turns : List (Turn Unit) := [.route "/" true, .timers]
    let s := first.afterAll (serving strayingText) turns
    s.tree.scope? ⟨2⟩ = some ⟨4⟩ ∧ ∃ done turn rest u, turns = done ++ turn :: rest ∧
      (first.afterAll (serving strayingText) done).BoundAt (serving strayingText) turn ⟨2⟩ u ∧
      u.Surrounds ⟨2⟩ ⟨2⟩ ∧ ∀ more, (first.afterAll (serving strayingText)
        (turns ++ more)).world.scopes.parent? ⟨4⟩ = some ⟨2⟩ := by
  obtain ⟨first, hstart, -, hscope, hparent, -⟩ := straying_state
  obtain ⟨done, turn, rest, u, p, hturns, hbound, haround, hstays⟩ := scope_stays_inside
    (serving strayingText) {} () first hstart [.route "/" true, .timers] ⟨2⟩ ⟨4⟩ hscope
  obtain rfl : p = ⟨2⟩ := Option.some.inj ((hstays []).symm.trans hparent)
  exact ⟨first, hstart, hscope, done, turn, rest, u, hturns, hbound, haround, hstays⟩

end examples

end Hypermedia.Session
