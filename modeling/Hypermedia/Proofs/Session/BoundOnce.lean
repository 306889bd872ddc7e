import Hypermedia.Proofs.Session.Heedful
import Hypermedia.Proofs.Session.Surroundings

/-! Fragments are bound once: the first edit that places a widget of one keeps what comes along, drops the rest
and gives what is kept its scopes, and nothing later gives them others or takes them for a rest. -/
namespace Hypermedia.Session

open Effect (Moves)

variable {σ : Type} {s t u v w : Session σ} {x y result target : WidgetId} {p : WidgetId × List WidgetId}
  {edit : Edit} {tree : Tree} {roots : List WidgetId} (transport : Transport σ)

/-- A fragment waits for a place with all that is below its root, and nothing of it has a scope. -/
def Waits (s : Session σ) (p : WidgetId × List WidgetId) : Prop :=
  (∀ x, x ∈ p.2 ↔ x ∈ s.tree.descendants p.1) ∧
    ∀ x ∈ p.2, s.tree.scope? x = none ∧ ∀ i, s.world.scopes.owner? i ≠ some x

/-- From `s` an edit that has led to `tree` prepares `u`, where the rest of the fragment is gone, and what is
kept of it gets its scopes, parents first. -/
structure Parts (s : Session σ) (p : WidgetId × List WidgetId) (result : WidgetId) (tree : Tree) (u : Session σ) :
    Prop where
  pending : u.pending = s.pending.filter (·.1 != p.1)
  contains_iff : ∀ y, u.tree.contains y = true ↔ tree.contains y = true ∧ (y ∈ p.2 → y ∈ s.kept p result)
  live : ∀ y ∈ s.kept p result, u.tree.contains y = true
  bare : ∀ y ∈ s.kept p result, u.tree.scope? y = none ∧ ∀ i, u.world.scopes.owner? i ≠ some y
  nodup : (s.kept p result).Nodup
  ordered : (s.kept p result).Pairwise fun x y => ¬ u.tree.Below x y

/-- What is dropped of fragments, when their lists or their page have ended, is not this widget. -/
def Outlasts (s : Session σ) (y : WidgetId) : Prop :=
  s.tree.contains y = true → s.cancelInFlight.tree.contains y = true ∧
    ∀ roots, (s.releaseFragments roots).tree.contains y = true

/-- A widget has a scope of its own, will not get another, and is never again what is left of a fragment. -/
structure Bound (s : Session σ) (y : WidgetId) : Prop where
  one : ∃! i, s.world.scopes.owner? i = some y
  once : ∀ turn, y ∉ newcomers (prepare transport turn s).1
  apart : ∀ p ∈ s.pending, y ∉ p.2
  kept : s.Outlasts y
  /-- Where a turn shows a page, this is where the page before goes. -/
  ever : ∀ turn, ((prepare transport turn >>= bindScripts) s).2.Outlasts y

theorem Reticent.waits (hs : s.Reticent) (hp : p ∈ s.pending) : s.Waits p := by
  refine ⟨fun x => ?_, fun x hx => ⟨?_, fun i hi => ?_⟩⟩
  · rw [(hs.spans p hp).mem_iff, hs.forest.mem_descendants_iff]
  · have hbare := hs.bare x ⟨p, hp, hx⟩
    rw [Tree.scope?]
    cases hw : s.tree.get? x with
    | none => rfl
    | some w => exact (hbare w hw).scope
  · exact (hs.owners x (Script.Scopes.mem_owners_iff.mpr ⟨i, hi⟩)).2 ⟨p, hp, hx⟩

section outlasts

theorem contains_releaseFragment (hs : s.Secluded) (hy : ¬ s.Withheld y) (root : WidgetId)
    (hlive : s.tree.contains y = true) : (s.releaseFragment root).tree.contains y = true := by
  unfold releaseFragment
  split
  · next hroot =>
    obtain ⟨ids, hids⟩ := Option.isSome_iff_exists.mp hroot
    have hmem := mem_of_lookup hids
    refine hs.forest.contains_remove_iff.mpr ⟨hlive, fun hw => hy ⟨_, hmem, ?_⟩⟩
    exact ((hs.spans _ hmem).mem_iff y).mpr ⟨hlive, hw⟩
  · exact hlive

theorem Reticent.outlasts (hs : s.Reticent) (hy : s.Open y) : s.Outlasts y := by
  intro hlive
  constructor
  · refine hs.forest.contains_removeAll_iff.mpr ⟨hlive, fun r hr hw => ?_⟩
    obtain ⟨p, hp, rfl⟩ := List.mem_map.mp hr
    exact hy.2 ⟨p, hp, ((hs.spans p hp).mem_iff y).mpr ⟨hlive, hw⟩⟩
  · intro roots
    induction roots generalizing s with
    | nil => exact hlive
    | cons root roots ih =>
      have hfirst : s.Heeds (s.releaseFragment root) := .of_respects hs (respects_releaseFragment root)
      exact ih hfirst.reticent (hfirst.opened y hy) (contains_releaseFragment hs.toSecluded hy.2 root hlive)

end outlasts

/-- What has got a scope has it for good. -/
theorem Heedful.bound (hh : s.Heedful) (hs : s.Sound) (hy : y ∈ s.world.scopes.owners) : s.Bound transport y := by
  have hopen := hh.owners y hy
  obtain ⟨i, hi⟩ := Script.Scopes.mem_owners_iff.mp hy
  refine ⟨⟨i, hi, fun j hj => Script.Scopes.eq_of_owner? hh.nodup_owners hj hi⟩, fun turn hmem => ?_,
    fun p hp hmem => hopen.2 ⟨p, hp, hmem⟩, hh.toReticent.outlasts hopen, fun turn => ?_⟩
  · exact ((completes_after transport hs hh turn).before.new y hmem).2 hopen
  · obtain ⟨hbound, hretains⟩ := (completes_bindScripts hh.toReticent
      (completes_after transport hs hh turn).before).retains hh.toReticent
    exact hbound.outlasts (hretains.opened y hopen)

theorem mem_kept_iff (hs : s.Secluded) (hp : p ∈ s.pending) (hy : y ∈ p.2) :
    y ∈ s.kept p result ↔ s.tree.Within y result := by
  rw [kept, List.mem_filter, List.contains_iff_mem, hs.forest.mem_descendants_iff]
  exact ⟨fun h => h.2.2, fun h => ⟨hy, hs.live ⟨p, hp, hy⟩, h⟩⟩

/-- What an edit keeps of a fragment has got no scope on the way. -/
theorem sheds_withoutRest (t : Tree) (root part : WidgetId) : t.Sheds (t.withoutRest root part) := by
  unfold Tree.withoutRest
  split
  · exact .refl t
  · exact t.sheds_removeAll [root]

theorem Reticent.parts (hs : s.Reticent) (htarget : ¬ s.Withheld target) (hp : p ∈ s.pending)
    (hresult : result ∈ p.2) (hplace : s.tree.place result target edit = (.ok (), tree)) (inbox : List Message) :
    s.Parts p result tree { s with
      inbox
      tree := tree.withoutRest p.1 result
      pending := s.pending.filter (·.1 != p.1) } := by
  have hspans := hs.spans p hp
  have hregrafts : Tree.Regrafts p.2 result s.tree (s.tree.place result target edit).2 :=
    (hs.encloses_fragment hp).regrafts_place hresult (fun ht => htarget ⟨p, hp, ht⟩) (by rw [hplace])
  have hplaced := s.tree.sheds_place result target edit
  rw [hplace] at hregrafts hplaced
  obtain ⟨hlive, hordered⟩ := hregrafts.kept hs.forest hspans hresult
  refine ⟨rfl, fun y => ?_, hlive, fun y hy => ⟨?_, ?_⟩, hspans.nodup.filter _, hordered⟩
  · refine (hregrafts.contains_withoutRest_iff hs.forest hspans hresult).trans (and_congr_right fun _ => ?_)
    exact forall_congr' fun hy => (mem_kept_iff hs.toSecluded hp hy).symm
  · have hnone := ((hs.waits hp).2 y (List.mem_of_mem_filter hy)).1
    refine Option.eq_none_iff_forall_not_mem.mpr fun i hi => ?_
    cases hnone.symm.trans ((hplaced.trans (sheds_withoutRest tree p.1 result)).scope? y i hi)
  · exact ((hs.waits hp).2 y (List.mem_of_mem_filter hy)).2

section edits

variable (hh : s.Heedful) (h : s.nextEdit? = some (result, target, edit))

include hh h

/-- An edit that fails, or that moves a widget of no fragment, gives no scope and drops nothing. -/
theorem Heedful.after_edit_alone {outcome : Except SelectionError Unit}
    (hplace : s.tree.place result target edit = (outcome, tree)) (halone : outcome = .ok () → ¬ s.Withheld result) :
    ∃ id f, s.after transport .message = { s with inbox := s.inbox.tail, tree }.modifyWorker id f := by
  obtain ⟨id, f, heq⟩ := handleNext_of_edit transport h
  refine ⟨id, f, heq.trans ?_⟩
  rw [applyEdit_eq_prepareEdit, Effect.run_bind]
  cases outcome with
  | error e =>
    have hfails : prepareEdit result target edit { s with inbox := s.inbox.tail } =
        (.error (.selection e), { s with inbox := s.inbox.tail, tree }) := by
      rw [prepareEdit_eq, hplace]
    rw [hfails]
  | ok _ =>
    have hdropped : s.Heeds { s with inbox := s.inbox.tail } :=
      .of_respects hh.toReticent (respects_of_eq rfl rfl rfl rfl)
    rw [prepareEdit_of_not_withheld hdropped.reticent.toSecluded (halone rfl) hplace]
    rfl

/-- An edit that places a widget of a fragment readies what is kept of it, gives this its scopes, and only then
runs its scripts. -/
theorem Heedful.after_edit_of_mem (hplace : s.tree.place result target edit = (.ok (), tree)) (hp : p ∈ s.pending)
    (hresult : result ∈ p.2) : ∃ u, prepare transport .message s = (.ok (s.kept p result), u) ∧
      s.Parts p result tree u ∧
      ((s.kept p result).forM addScope : Act σ PUnit) u = (.ok ⟨⟩, giveScopes (s.kept p result) u) ∧
      u.Gave (s.kept p result) (giveScopes (s.kept p result) u) ∧
      ∃ id f, s.after transport .message = ((do
        (s.kept p result).forM runOwnScript
        (s.kept p result).reverse.forM bindOwnHandlers : Act σ PUnit)
          (giveScopes (s.kept p result) u)).2.modifyWorker id f := by
  have hdropped : s.Heeds { s with inbox := s.inbox.tail } :=
    .of_respects hh.toReticent (respects_of_eq rfl rfl rfl rfl)
  let u : Session σ := { s with
    inbox := s.inbox.tail
    tree := tree.withoutRest p.1 result
    pending := s.pending.filter (·.1 != p.1) }
  have hedit : prepareEdit result target edit { s with inbox := s.inbox.tail } = (.ok (s.kept p result), u) :=
    prepareEdit_of_mem hdropped.reticent.toSecluded hp hresult hplace
  have hprepare : prepare transport .message s = (.ok (s.kept p result), u) := by
    rw [prepare, prepareMessage, Effect.run_get_bind, h]
    exact hedit
  have hparts : s.Parts p result tree u :=
    hh.toReticent.parts (aims_of_nextEdit? hh h).2.2 hp hresult hplace s.inbox.tail
  obtain ⟨hgive, hgave⟩ := giveScopes_of_live hparts.live hparts.nodup
  obtain ⟨id, f, heq⟩ := handleNext_of_edit transport h
  refine ⟨u, hprepare, hparts, hgive, hgave, id, f, heq.trans ?_⟩
  rw [applyEdit_eq_prepareEdit, Effect.run_bind, hedit]
  dsimp only
  rw [bindScripts, Effect.run_bind, hgive]

end edits

/-- A widget that is bound gets no scope later. -/
theorem scope_of_bound {turns : List (Turn σ)} {i : ScopeId} (hs : s.Sound) (hh : s.Heedful)
    (hy : y ∈ s.world.scopes.owners) (h : (s.afterAll transport turns).tree.scope? y = some i) :
    s.tree.scope? y = some i := by
  rcases scope_of_afterAll h with hold | ⟨done, turn, rest, u, rfl, ⟨before, after, hnew, -⟩, -⟩
  · exact hold
  · obtain ⟨hdone, hretains⟩ := heedful_afterAll transport hs hh done
    have hbound := hdone.bound transport (sound_afterAll transport hs done) (hretains.owners.subset hy)
    exact absurd (by simp [hnew]) (hbound.once turn)

/-- Fragments are bound once. In every state of a session, however its turns and those of its action lists are
mixed, a fragment that waits has all that is below its root and no scope. An edit that fails, or that moves a
widget which is in no such fragment, places that widget and does nothing else. The first edit that places a
widget of a fragment takes the fragment from those that wait, keeps what is below the widget and drops the rest;
then it gives what it keeps one scope each, parents first, and only then runs its scripts. No later turn gives
any of it another scope or takes it for what is left of a fragment. -/
theorem fragments_bound_once (config : Config) (network : σ) (first : Session σ)
    (hstart : start config network = .ok first) (turns : List (Turn σ)) :
    let s := first.afterAll transport turns
    (∀ p ∈ s.pending, s.Waits p) ∧
    ∀ result target edit, s.nextEdit? = some (result, target, edit) →
      (∀ outcome tree, s.tree.place result target edit = (outcome, tree) →
        (outcome = .ok () → ∀ p ∈ s.pending, result ∉ p.2) →
          ∃ id f, s.after transport .message = { s with inbox := s.inbox.tail, tree }.modifyWorker id f) ∧
      ∀ tree, s.tree.place result target edit = (.ok (), tree) → ∀ p ∈ s.pending, result ∈ p.2 → ∃ u v,
        prepare transport .message s = (.ok (s.kept p result), u) ∧ s.Parts p result tree u ∧
        ((s.kept p result).forM addScope : Act σ PUnit) u = (.ok ⟨⟩, v) ∧ u.Gave (s.kept p result) v ∧
        (∃ id f, s.after transport .message = ((do
          (s.kept p result).forM runOwnScript
          (s.kept p result).reverse.forM bindOwnHandlers : Act σ PUnit) v).2.modifyWorker id f) ∧
        ∀ more, let w := first.afterAll transport (turns ++ .message :: more)
          ∀ y ∈ s.kept p result, w.Bound transport y ∧ ∀ i, w.tree.scope? y = some i → v.tree.scope? y = some i := by
  intro s
  have hs : s.Sound := sound_afterAll transport (sound_start hstart) turns
  have hh : s.Heedful := (heedful_afterAll transport (sound_start hstart) (heedful_start hstart) turns).1
  refine ⟨fun p hp => hh.waits hp, fun result target edit h => ⟨fun outcome tree hplace halone => ?_, ?_⟩⟩
  · exact hh.after_edit_alone transport h hplace fun hok ⟨p, hp, hmem⟩ => halone hok p hp hmem
  intro tree hplace p hp hresult
  obtain ⟨u, hprepare, hparts, hgive, hgave, id, f, hafter⟩ := hh.after_edit_of_mem transport h hplace hp hresult
  refine ⟨u, _, hprepare, hparts, hgive, hgave, ⟨id, f, hafter⟩, ?_⟩
  intro more w y hy
  let edited := s.after transport .message
  have hedited : edited.Sound := sound_after transport hs .message
  have hheedful : edited.Heedful := (heedful_after transport hs hh .message).1
  have hcompletes := (completes_after transport hs hh .message).after
  have habides := (prepares_after transport .message s).after
  rw [hprepare] at hcompletes habides
  have howned : y ∈ edited.world.scopes.owners := by
    have howners : edited.world.scopes.owners = (giveScopes (s.kept p result) u).world.scopes.owners :=
      hcompletes.owners
    rw [howners, hgave.owners]
    exact List.mem_append_right _ hy
  have hw : w = edited.afterAll transport more := by
    simp only [w, edited, s, afterAll, List.foldl_append, List.foldl_cons]
  obtain ⟨hlast, hretains⟩ := heedful_afterAll transport hedited hheedful more
  rw [hw]
  refine ⟨hlast.bound transport (sound_afterAll transport hedited more) (hretains.owners.subset howned),
    fun i hi => ?_⟩
  exact habides.tree.scope? y i (scope_of_bound transport hedited hheedful howned hi)

section examples

/-- The element that a response without markup stands for. -/
def textNode (text : String) : Node :=
  (Node.ofTag "text").withText (some text)

/-- A text becomes one widget. -/
theorem buildFragment_text (text : String) (tree : Tree) :
    Markup.buildFragment {} tree (textNode text) =
      (.ok { root := ⟨tree.slots.size⟩, rules := {}, widgets := [⟨tree.slots.size⟩] },
        (tree.construct { kind := .text }).2.modify ⟨tree.slots.size⟩ fun _ =>
          { kind := .text, content := Markup.widgetContent (textNode text) }) := by
  have hempty : ({} : Registry).get? "text" = none := rfl
  have hkind : Widget.Kind.ofTag? "text" = some .text := by decide
  have hchildren : ∀ id, Markup.buildChildren {} 0 id Widget.Kind.text.isContainer [] = pure () := by
    intro id
    rw [Markup.buildChildren]
  rw [Markup.buildFragment, textNode, Node.ofTag, Node.withText, Markup.buildNode]
  simp only [Node.tag, Node.attributes, Node.children, Node.tail, hempty, hkind, hchildren]
  rfl

/-- The session without components in which a text waits for a place. -/
def loadedText (s : Session σ) (text : String) : Session σ :=
  let root : WidgetId := ⟨s.tree.slots.size⟩
  { s with
    registry := {}
    tree := (s.tree.construct { kind := .text }).2.modify root fun _ =>
      { kind := .text, content := Markup.widgetContent (textNode text) }
    pending := s.pending ++ [(root, [root])] }

theorem loadFragment_text (s : Session σ) {r : Network.Response} (hmarkup : r.isMarkup = false)
    (hregistry : s.registry = {}) :
    loadFragment transport r s = (.ok ⟨s.tree.slots.size⟩, s.loadedText r.body) := by
  have hnode : Action.responseNode r = .ok (textNode r.body) := by
    rw [Action.responseNode, hmarkup]
    rfl
  have hinlined : ∀ base, inlined transport base (textNode r.body) s = (.ok (textNode r.body), s) :=
    fun _ => rfl
  have hcompiled : (Markup.compileFragment (textNode r.body)).run { registry := s.registry, tree := s.tree } =
      (.ok { root := ⟨s.tree.slots.size⟩, rules := {}, widgets := [⟨s.tree.slots.size⟩] },
        { tree := (s.loadedText r.body).tree }) := by
    have htag : (textNode r.body).tag = "text" := rfl
    rw [Markup.compileFragment, htag, if_pos (by decide), hregistry]
    change (Markup.buildContent (textNode r.body)) { tree := s.tree } = _
    rw [Markup.buildContent, Effect.run_get_bind, buildFragment_text]
    rfl
  rw [loadFragment, hnode, run_lift_ok_bind, Effect.run_get_bind, Effect.run_bind, hinlined]
  dsimp only
  rw [Effect.run_bind, compiled, Effect.run_get_bind, hcompiled]
  rfl

/-- What comes of a message that asks to make a fragment of a response without markup. -/
def loadingText? (s : Session σ) : Option (Session σ) :=
  match s.inbox with
  | [] => none
  | m :: inbox =>
    match m.task, s.workers.find? (·.id = m.sender) with
    | .answer, some w =>
      match w.phase with
      | .asking (.loadFragment r) k =>
        if s.generation = m.started ∧ s.registry.entries = [] ∧ r.isMarkup = false then
          let root : WidgetId := ⟨s.tree.slots.size⟩
          some (({ s with inbox }.loadedText r.body).modifyWorker m.sender fun w =>
            { w with loaded := w.loaded ++ [root], phase := .ready (k root) })
        else none
      | _ => none
    | _, _ => none

theorem after_loadingText (h : s.loadingText? = some t) : s.after transport .message = t := by
  change s.handleNext transport = t
  unfold loadingText? at h
  split at h
  · cases h
  next m inbox hinbox =>
  split at h
  next w htask hw =>
    split at h
    next r k hphase =>
      split at h
      next hload =>
        obtain ⟨hcurrent, hregistry, hmarkup⟩ := hload
        cases h
        have hw' : { s with inbox }.workers.find? (·.id = m.sender) = some w := hw
        rw [handleNext, hinbox]
        dsimp only
        rw [handle, htask]
        dsimp only
        rw [answerWorker, hw']
        dsimp only
        rw [hphase]
        dsimp only
        rw [answerCurrent_eq, if_pos hcurrent, answer,
          loadFragment_text transport { s with inbox } hmarkup (congrArg Dict.mk hregistry)]
        rfl
      · cases h
    · cases h
  · cases h

/-- A list asks for the document once more and to make a fragment of it, which is a text as the answer is not
said to be markup. -/
def loading : List (Turn Unit) :=
  [.start [{ verb := .get, argument := "/" },
    { verb := .append, argument := "#b", modifier := some "in" }] ⟨0⟩,
    .worker 0, .worker 0, .message, .worker 0, .worker 0, .worker 0]

/-- It asks for the text to be put into the tower of the page. -/
def placing : List (Turn Unit) :=
  [.worker 0, .worker 0, .message, .worker 0, .message, .worker 0]

/-- The text that was loaded, about to be put into the tower. -/
structure Placing (s : Session Unit) : Prop where
  pending : s.pending = [(⟨3⟩, [⟨3⟩])]
  edit : s.nextEdit? = some (⟨3⟩, ⟨1⟩, .append)
  placed : (s.tree.place ⟨3⟩ ⟨1⟩ .append).1.isOk
  kept : ⟨3⟩ ∈ s.kept (⟨3⟩, [⟨3⟩]) ⟨3⟩
  before : s.world.scopes.owners = [⟨0⟩, ⟨1⟩, ⟨2⟩]
  after : (s.after (serving strayingText) .message).world.scopes.owners = [⟨0⟩, ⟨1⟩, ⟨2⟩, ⟨3⟩]

theorem placing_loaded : ∃ first, start {} () = .ok first ∧
    (first.afterAll (serving strayingText) (.route "/" true :: (loading ++ .message :: placing))).Placing := by
  obtain ⟨first, hstart, hurl, hrequest, loaded, hloaded, hpending, hedit, hplaced, hkept, hbefore, hafter⟩ :=
    exists_start (p := fun first => (resolveEndpoint first.url "/").toOption = some first.url ∧
      (Network.Request.ofText .get first.url.text).toOption.isSome ∧
      ∃ u ∈ (first.shownStraying.afterAll (serving strayingText) loading).loadingText?,
        let s := u.afterAll (serving strayingText) placing
        s.pending = [(⟨3⟩, [⟨3⟩])] ∧ s.nextEdit? = some (⟨3⟩, ⟨1⟩, .append) ∧
          (s.tree.place ⟨3⟩ ⟨1⟩ .append).1.isOk ∧ ⟨3⟩ ∈ s.kept (⟨3⟩, [⟨3⟩]) ⟨3⟩ ∧
          s.world.scopes.owners = [⟨0⟩, ⟨1⟩, ⟨2⟩] ∧
          (s.after (serving strayingText) .message).world.scopes.owners = [⟨0⟩, ⟨1⟩, ⟨2⟩, ⟨3⟩])
      (by decide +kernel)
  have hturns : first.afterAll (serving strayingText) (.route "/" true :: (loading ++ .message :: placing)) =
      loaded.afterAll (serving strayingText) placing := by
    rw [← after_loadingText (serving strayingText) hloaded, ← after_straying hstart hurl hrequest]
    simp only [afterAll, List.foldl_cons, List.foldl_append]
  refine ⟨first, hstart, ?_⟩
  rw [hturns]
  exact ⟨hpending, hedit, hplaced, hkept, hbefore, hafter⟩

/-- The text that is put into the tower is bound. -/
theorem loaded_bound_once : ∃ first, start {} () = .ok first ∧
    let turns := .route "/" true :: (loading ++ .message :: placing)
    (first.afterAll (serving strayingText) turns).Placing ∧
      ∀ more, (first.afterAll (serving strayingText) (turns ++ .message :: more)).Bound
        (serving strayingText) ⟨3⟩ := by
  obtain ⟨first, hstart, hplacing⟩ := placing_loaded
  refine ⟨first, hstart, hplacing, fun more => ?_⟩
  obtain ⟨-, hbinds⟩ := fragments_bound_once (serving strayingText) {} () first hstart
    (.route "/" true :: (loading ++ .message :: placing))
  generalize first.afterAll (serving strayingText) (.route "/" true :: (loading ++ .message :: placing)) = s at *
  have hok := hplacing.placed
  cases hplace : s.tree.place ⟨3⟩ ⟨1⟩ .append with
  | mk outcome tree =>
    rw [hplace] at hok
    cases outcome with
    | error e => cases hok
    | ok =>
      obtain ⟨u, v, -, -, -, -, -, hlater⟩ := (hbinds ⟨3⟩ ⟨1⟩ .append hplacing.edit).2 tree hplace
        (⟨3⟩, [⟨3⟩]) (by simp [hplacing.pending]) (by simp)
      exact (hlater more ⟨3⟩ hplacing.kept).1

end examples

end Hypermedia.Session
