import Hypermedia.Proofs.Session.Abiding
import Hypermedia.Proofs.Session.Sound

/-! When the scripts of widgets are bound: what each turn does before it gives scopes to the widgets that
it has placed, and that it gives no others. -/
namespace Hypermedia.Session

open Effect (Moves)
open Hypermedia.Action (Ask)

variable {σ : Type} (transport : Transport σ)

/-- A page up to where the scripts of its widgets are bound; gives the widgets. -/
def preparePage (page : Markup.Page) : Act σ (List WidgetId) := do
  let document := (← get).document
  page.scripts.forM fun source => runScript source document "Page"
  addRules page.rules
  return (page.content.map (·.widgets)).getD []

def prepareInstall (n : Node) : Act σ (List WidgetId) := do
  let page ← compiled (Markup.compilePage n)
  modify fun s => s.stage (page.content.map (·.root))
  preparePage page

def prepareVisit (destination : String) : Act σ (List WidgetId) := do
  let found ← fetched transport destination
  prepareInstall found.2

def prepareRoute (destination : String) (suppressHistory : Bool) : Act σ (List WidgetId) := do
  if !suppressHistory then
    modify fun s => { s with history := s.history.push destination }
  prepareVisit transport destination

def prepareRevisit (move : History → History) : Act σ (List WidgetId) := do
  let s ← get
  let history := move s.history
  set { s with history }
  if s.history.entries.isEmpty then return []
  match history.current? with
  | some destination => prepareRoute transport destination true
  | none => return []

/-- Takes note that a fragment or a part of it has a place, and drops the rest; gives the widgets that have
one. -/
def prepareHouse (fragment : Option WidgetId) (result : WidgetId) (placed : List WidgetId) :
    Act σ (List WidgetId) :=
  match fragment with
  | none => return []
  | some root => do
    let (widgets, s) := (← get).takePending root
    set (if root = result then s else { s with tree := s.tree.remove root })
    return widgets.filter placed.contains

/-- An edit up to where the scripts of what it has placed are bound; gives the widgets that are new. -/
def prepareEdit (result target : WidgetId) (edit : Edit) : Act σ (List WidgetId) := do
  let s ← get
  let (outcome, tree) := s.tree.place result target edit
  set { s with tree }
  lift .selection outcome
  prepareHouse ((s.tree.lineage result).find? fun id => (s.pending.lookup id).isSome) result
    (s.tree.descendants result)

/-- The edit that the next message asks for, unless the page has changed since its sender was started. -/
def nextEdit? (s : Session σ) : Option (WidgetId × WidgetId × Edit) :=
  match s.inbox with
  | [] => none
  | m :: _ =>
    match m.task, s.workers.find? (·.id = m.sender) with
    | .answer, some w =>
      match w.phase with
      | .asking (.edit result target edit) _ =>
        if s.generation = m.started then some (result, target, edit) else none
      | _ => none
    | _, _ => none

def prepareMessage : Act σ (List WidgetId) := do
  match (← get).nextEdit? with
  | none => return []
  | some (result, target, edit) =>
    modify fun s => { s with inbox := s.inbox.tail }
    prepareEdit result target edit

/-- A turn up to where it gives scopes to widgets; gives these widgets, in the order in which they get
their scopes. -/
def prepare : Turn σ → Act σ (List WidgetId)
  | .message => prepareMessage
  | .route destination suppressHistory => prepareRoute transport destination suppressHistory
  | .back => prepareRevisit transport History.back
  | .forward => prepareRevisit transport History.forward
  | .refresh => do prepareRoute transport (← get).url.text true
  | .timers | .worker _ | .dispatch _ _ | .start _ _ | .report _ | .takeErrors | .wait _ | .network _ =>
    return []

/-- The widgets to which a step gives scopes, if it comes so far. -/
def newcomers (r : Except Error (List WidgetId)) : List WidgetId :=
  r.toOption.getD []

def giveScopes (ids : List WidgetId) (s : Session σ) : Session σ :=
  ((ids.forM addScope : Act σ PUnit) s).2

/-- From `s` the preparation `r`, scopes for what it gives and nothing else that gives scopes lead to `t`. -/
structure Prepares (s : Session σ) (r : Act σ (List WidgetId)) (t : Session σ) : Prop where
  before : s.Abides (r s).2
  after : (giveScopes (newcomers (r s).1) (r s).2).Abides t

variable {s t u : Session σ}

section prepares

variable {r r' : Act σ (List WidgetId)}

/-- A step that gives no scopes. -/
theorem Abides.prepares (h : s.Abides t) : s.Prepares (pure []) t :=
  ⟨.refl s, h⟩

theorem Prepares.trans (h : s.Prepares r t) (k : t.Abides u) : s.Prepares r u :=
  ⟨h.before, h.after.trans k⟩

/-- What is prepared after a step that gives no scopes is prepared by both. -/
theorem Prepares.head (h : s.Abides t) (k : t.Prepares r u) (heq : r' s = r t) : s.Prepares r' u where
  before := heq ▸ h.trans k.before
  after := heq ▸ k.after

theorem prepares_bind {α β : Type} {p : Act σ α} {r : α → Act σ (List WidgetId)} {f : α → Act σ β}
    (hp : Moves Abides p) (hf : ∀ a (s : Session σ), s.Prepares (r a) (f a s).2) (s : Session σ) :
    s.Prepares (p >>= r) ((p >>= f) s).2 := by
  have hs := hp s
  rw [Effect.run_bind p f]
  cases h : p s with
  | mk result t =>
    rw [h] at hs
    cases result with
    | ok a =>
      refine (hf a t).head hs ?_
      rw [Effect.run_bind, h]
    | error e =>
      have hfails : (p >>= r) s = (.error e, t) := by rw [Effect.run_bind, h]
      exact ⟨hfails ▸ hs, hfails ▸ .refl t⟩

/-- Where the scripts of what a step gives are bound, nothing else gives scopes. -/
theorem prepares_bindScripts (hr : Moves Abides r) (s : Session σ) :
    s.Prepares r ((r >>= bindScripts) s).2 := by
  have hrest (ids : List WidgetId) :
      Moves Abides (do ids.forM runOwnScript; ids.reverse.forM bindOwnHandlers : Act σ Unit) :=
    (abides_carries.runWidgets fun _ _ => trivial).moves fun _ => trivial
  refine ⟨hr s, ?_⟩
  rw [Effect.run_bind]
  cases r s with
  | mk result t =>
    cases result with
    | error e => exact .refl t
    | ok ids =>
      change (giveScopes ids t).Abides (bindScripts ids t).2
      unfold bindScripts giveScopes
      rw [Effect.run_bind]
      cases (ids.forM addScope : Act σ PUnit) t with
      | mk outcome u =>
        cases outcome with
        | ok _ => exact hrest ids u
        | error e => exact .refl u

theorem bindScripts_nil : (bindScripts [] : Act σ Unit) = pure () := rfl

theorem bindHandlers_append (id : WidgetId) (scope : ScopeId) (query source : String)
    (before rest : List (String × Script.Value)) :
    (bindHandlers id scope query source (before ++ rest) : Act σ Unit) =
      bindHandlers id scope query source before >>= fun _ => bindHandlers id scope query source rest := by
  induction before with
  | nil => rfl
  | cons binding before ih =>
    obtain ⟨name, value⟩ := binding
    cases value with
    | function f =>
      rw [List.cons_append, bindHandlers, bindHandlers, ih]
      split
      · simp only [bind_assoc]
      split
      · split
        · simp only [bind_assoc]
        · rfl
      · rfl
    | _ =>
      rw [List.cons_append, bindHandlers, bindHandlers, ih]
      all_goals nofun

end prepares

section pages

theorem runPage_eq (page : Markup.Page) :
    (runPage page : Act σ Unit) = preparePage page >>= bindScripts := by
  simp only [runPage, preparePage, bind_assoc, pure_bind]
  cases page.content <;> simp [bindScripts_nil]

theorem abides_preparePage (page : Markup.Page) :
    Moves Abides (preparePage page : Act σ (List WidgetId)) := by
  refine Effect.moves_get_bind fun s => ?_
  have hscripts : Moves Abides (page.scripts.forM fun source => runScript source s.document "Page" :
      Act σ PUnit) :=
    Effect.moves_forM _ fun source _ =>
      (abides_carries.runScript source s.document "Page").moves fun _ => trivial
  refine Effect.moves_bind_at (hscripts s) fun _ => ?_
  exact Effect.moves_bind (moves_addRules abides_carries.rules page.rules) fun _ => Effect.moves_pure _

theorem prepares_install (url : Url) (n : Node) (s : Session σ) :
    s.Prepares (prepareInstall n) (install url n s).2 := by
  have hcompiled := abides_compiled (σ := σ) (Markup.compiling_sheds.compilePage n) s
  obtain ⟨e, t, hc, h⟩ | ⟨page, t, u, hc, hr, h⟩ := install_outcomes url n s
  · rw [hc] at hcompiled
    have hfails : (prepareInstall n : Act σ (List WidgetId)) s = (.error e, t) := by
      rw [prepareInstall, Effect.run_bind, hc]
    rw [h]
    exact ⟨hfails ▸ hcompiled, hfails ▸ .refl t⟩
  · rw [hc] at hcompiled
    have hrun := prepares_bindScripts (abides_preparePage page)
      (t.stage (page.content.map Markup.Fragment.root))
    have heq : (prepareInstall n : Act σ (List WidgetId)) s =
        preparePage page (t.stage (page.content.map Markup.Fragment.root)) := by
      rw [prepareInstall, Effect.run_bind, hc]
      dsimp only
      rw [Effect.run_modify_bind]
    have hprepared := hrun.head (hcompiled.trans (abides_stage _)) heq
    rw [← runPage_eq, hr] at hprepared
    rcases h with h | ⟨e, h⟩ <;> rw [h]
    · exact hprepared.trans (abides_commit _ _ _)
    · exact hprepared.trans (abides_rollback _)

theorem prepares_visit (destination : String) (s : Session σ) :
    s.Prepares (prepareVisit transport destination) (visit transport destination s).2 := by
  have hfetched := (fetches_fetched transport destination).mono fun _ _ h => h.abides
  rw [visit_eq]
  exact prepares_bind hfetched (fun found => prepares_install found.1 found.2) s

theorem prepares_route (destination : String) (suppressHistory : Bool) (s : Session σ) :
    s.Prepares (prepareRoute transport destination suppressHistory)
      (route transport destination suppressHistory s).2 := by
  cases suppressHistory with
  | true => exact prepares_visit transport destination s
  | false =>
    have hpushed : s.Abides { s with history := s.history.push destination } := abides_of_eq rfl rfl
    exact (prepares_visit transport destination _).head hpushed rfl

/-- A step through the history goes nowhere and has nothing to prepare, or it visits a page and prepares that
visit. -/
theorem revisit_outcomes (move : History → History) (s : Session σ) :
    (revisit transport move s = (.ok (), { s with history := move s.history }) ∧
      prepareRevisit transport move s = (.ok [], { s with history := move s.history })) ∨
    ∃ destination,
      revisit transport move s = route transport destination true { s with history := move s.history } ∧
      prepareRevisit transport move s =
        prepareRoute transport destination true { s with history := move s.history } := by
  rw [revisit, prepareRevisit, Effect.run_get_bind, Effect.run_set_bind, Effect.run_get_bind, Effect.run_set_bind]
  by_cases hempty : s.history.entries.isEmpty
  · rw [if_pos hempty, if_pos hempty]
    exact .inl ⟨rfl, rfl⟩
  · rw [if_neg hempty, if_neg hempty]
    cases (move s.history).current? with
    | none => exact .inl ⟨rfl, rfl⟩
    | some destination => exact .inr ⟨destination, rfl, rfl⟩

theorem prepares_revisit (move : History → History) (s : Session σ) :
    s.Prepares (prepareRevisit transport move) (revisit transport move s).2 := by
  have hmoved : s.Abides { s with history := move s.history } := abides_of_eq rfl rfl
  obtain ⟨h, hprepare⟩ | ⟨destination, h, hprepare⟩ := revisit_outcomes transport move s
  · rw [h]
    exact (Abides.refl _).prepares.head hmoved hprepare
  · rw [h]
    exact (prepares_route transport destination true _).head hmoved hprepare

theorem prepare_refresh (s : Session σ) :
    prepare transport .refresh s = prepareRoute transport s.url.text true s := by
  rw [prepare, Effect.run_get_bind]

end pages

section messages

theorem house_eq (fragment : Option WidgetId) (result : WidgetId) (placed : List WidgetId) :
    (house fragment result placed : Act σ Unit) =
      prepareHouse fragment result placed >>= bindScripts := by
  cases fragment with
  | none => rfl
  | some root => simp only [house, prepareHouse, bind_assoc, pure_bind]

theorem prepareEdit_eq (result target : WidgetId) (edit : Edit) (s : Session σ) :
    prepareEdit result target edit s = match s.tree.place result target edit with
      | (.error e, tree) => (.error (.selection e), { s with tree })
      | (.ok (), tree) =>
        prepareHouse ((s.tree.lineage result).find? fun id => (s.pending.lookup id).isSome) result
          (s.tree.descendants result) { s with tree } := by
  rw [prepareEdit, Effect.run_get_bind]
  cases s.tree.place result target edit with
  | mk outcome tree => cases outcome <;> rfl

theorem applyEdit_eq_prepareEdit (result target : WidgetId) (edit : Edit) (s : Session σ) :
    applyEdit result target edit s = (prepareEdit result target edit >>= bindScripts) s := by
  rw [applyEdit_eq, Effect.run_bind, prepareEdit_eq]
  cases s.tree.place result target edit with
  | mk outcome tree =>
    cases outcome with
    | ok _ =>
      dsimp only
      rw [house_eq, Effect.run_bind]
    | error e => rfl

theorem abides_prepareHouse (fragment : Option WidgetId) (result : WidgetId) (placed : List WidgetId) :
    Moves Abides (prepareHouse fragment result placed : Act σ (List WidgetId)) := by
  cases fragment with
  | none => exact Effect.moves_pure _
  | some root =>
    refine Effect.moves_get_bind fun s => ?_
    refine Effect.moves_set_bind ?_ (Effect.moves_pure _)
    split
    · exact abides_of_eq rfl rfl
    · exact ⟨s.tree.sheds_removeAll [root], .refl _⟩

theorem abides_prepareEdit (result target : WidgetId) (edit : Edit) :
    Moves Abides (prepareEdit result target edit : Act σ (List WidgetId)) := by
  intro s
  have hplaced := s.tree.sheds_place result target edit
  rw [prepareEdit_eq]
  cases hr : s.tree.place result target edit with
  | mk outcome tree =>
    rw [hr] at hplaced
    have hmoved : s.Abides { s with tree } := ⟨hplaced, .refl _⟩
    cases outcome with
    | ok _ => exact hmoved.trans (abides_prepareHouse _ _ _ _)
    | error e => exact hmoved

/-- Only the answers that edit the document give scopes. -/
theorem abides_answer {q : Ask} (hq : ∀ result target edit, q ≠ .edit result target edit) :
    Moves Abides (answer transport q) := by
  cases q with
  | requestBody caller selector => exact Effect.moves_get_bind fun s => moves_lift _ _ s
  | loadFragment response => exact abides_loadFragment transport response
  | select selector within => exact Effect.moves_get_bind fun s => moves_lift _ _ s
  | isContainer id => exact Effect.moves_get_bind fun s => moves_lift _ _ s
  | query id => exact Effect.moves_get_bind fun s => Effect.moves_pure _ s
  | edit result target edit => exact absurd rfl (hq result target edit)

/-- What a message does that asks for no edit. -/
theorem handleNext_cases (h : s.nextEdit? = none) : s.handleNext transport = s ∨ ∃ inbox,
    let t := { s with inbox }
    s.handleNext transport = t ∨
    (∃ id f, s.handleNext transport = t.modifyWorker id f) ∨
    (∃ q id f, (∀ result target edit, q ≠ .edit result target edit) ∧
      s.handleNext transport = (answer transport q t).2.modifyWorker id f) ∨
    (∃ roots, s.handleNext transport = t.releaseFragments roots) ∨
    ∃ e, s.handleNext transport = t.report e := by
  obtain ⟨-, heq⟩ | ⟨m, inbox, hinbox, ⟨htask, heq⟩ | ⟨roots, -, heq⟩ | ⟨e, -, heq⟩⟩ :=
    handleNext_outcomes transport s
  · exact .inl heq
  · refine .inr ⟨inbox, ?_⟩
    dsimp only
    obtain ⟨-, hanswered⟩ | ⟨w, q, k, hw, hphase, hanswered⟩ :=
      answerWorker_outcomes transport { s with inbox } m.sender m.started
    · exact .inl (heq.trans hanswered)
    · rw [heq, hanswered, answerCurrent_eq]
      by_cases hcurrent : { s with inbox }.generation = m.started
      · rw [if_pos hcurrent]
        refine .inr (.inr (.inl ⟨q, _, _, fun result target edit hq => ?_, rfl⟩))
        subst hq
        have hw' : s.workers.find? (·.id = m.sender) = some w := hw
        have hcurrent' : s.generation = m.started := hcurrent
        simp [nextEdit?, hinbox, htask, hw', hphase, hcurrent'] at h
      · rw [if_neg hcurrent]
        exact .inr (.inl ⟨_, _, rfl⟩)
  · exact .inr ⟨inbox, .inr (.inr (.inr (.inl ⟨roots, heq⟩)))⟩
  · exact .inr ⟨inbox, .inr (.inr (.inr (.inr ⟨e, heq⟩)))⟩

/-- A message that asks for no edit gives no scopes. -/
theorem abides_handleNext (h : s.nextEdit? = none) : s.Abides (s.handleNext transport) := by
  have hinbox (inbox : List Message) : s.Abides { s with inbox } := abides_of_eq rfl rfl
  have hworkers (t : Session σ) (id : Nat) (f : Worker → Worker) : t.Abides (t.modifyWorker id f) :=
    abides_of_eq rfl rfl
  rcases handleNext_cases transport h with heq | ⟨inbox, heq | ⟨id, f, heq⟩ | ⟨q, id, f, hq, heq⟩ |
    ⟨roots, heq⟩ | ⟨e, heq⟩⟩ <;> rw [heq]
  · exact .refl s
  · exact hinbox inbox
  · exact (hinbox inbox).trans (hworkers _ id f)
  · exact (hinbox inbox).trans ((abides_answer transport hq _).trans (hworkers _ id f))
  · exact (hinbox inbox).trans (abides_releaseFragments roots)
  · exact (hinbox inbox).trans (abides_report e)

/-- A message that asks for an edit is answered by it. -/
theorem handleNext_of_edit {result target : WidgetId} {edit : Edit}
    (h : s.nextEdit? = some (result, target, edit)) : ∃ id f, s.handleNext transport =
      (applyEdit result target edit { s with inbox := s.inbox.tail }).2.modifyWorker id f := by
  unfold nextEdit? at h
  split at h
  · cases h
  · next m inbox hinbox =>
    split at h
    · next w htask hw =>
      split at h
      · next k hphase =>
        split at h
        · next hcurrent =>
          cases h
          rw [handleNext, hinbox]
          dsimp only
          rw [handle, htask]
          dsimp only
          have hw' : { s with inbox }.workers.find? (·.id = m.sender) = some w := hw
          rw [answerWorker, hw']
          dsimp only
          rw [hphase]
          dsimp only
          rw [answerCurrent_eq, if_pos hcurrent]
          exact ⟨_, _, rfl⟩
        · cases h
      · cases h
    · cases h

theorem prepares_handleNext (s : Session σ) : s.Prepares prepareMessage (s.handleNext transport) := by
  cases h : s.nextEdit? with
  | none =>
    refine (abides_handleNext transport h).prepares.head (.refl s) ?_
    rw [prepareMessage, Effect.run_get_bind, h]
  | some edit =>
    obtain ⟨result, target, edit⟩ := edit
    obtain ⟨id, f, heq⟩ := handleNext_of_edit transport h
    rw [heq]
    have hdropped : s.Abides { s with inbox := s.inbox.tail } := abides_of_eq rfl rfl
    have hedited := prepares_bindScripts (abides_prepareEdit result target edit)
      { s with inbox := s.inbox.tail }
    rw [← applyEdit_eq_prepareEdit] at hedited
    refine (hedited.head hdropped ?_).trans (abides_of_eq rfl rfl)
    rw [prepareMessage, Effect.run_get_bind, h]
    dsimp only
    rw [Effect.run_modify_bind]

end messages

/-- Whatever a turn does, it gives scopes to the widgets that its preparation gives and to no others. -/
theorem prepares_after (turn : Turn σ) (s : Session σ) :
    s.Prepares (prepare transport turn) (s.after transport turn) := by
  cases turn with
  | message => exact prepares_handleNext transport s
  | timers =>
    have hfired : s.Abides s.fireTimers := abides_carries.fireTimers (fun _ => abides_report)
      (fun _ _ => abides_of_eq rfl rfl) s
    exact hfired.prepares
  | worker id =>
    obtain ⟨network, workers, inbox, h⟩ := takeTurn_frame transport (s := s) id
    have htaken : s.Abides (s.takeTurn transport id).1 := h ▸ abides_of_eq rfl rfl
    exact htaken.prepares
  | route destination suppressHistory => exact prepares_route transport destination suppressHistory s
  | back => exact prepares_revisit transport History.back s
  | forward => exact prepares_revisit transport History.forward s
  | refresh =>
    rw [after, refresh_eq]
    exact (prepares_route transport s.url.text true s).head (.refl s) (prepare_refresh transport s)
  | dispatch id event =>
    have hdispatched : Moves Abides (Session.dispatch id event : Act σ Bool) :=
      abides_carries.dispatch (fun _ => abides_report) (fun _ _ _ _ => abides_of_eq rfl rfl) id event
    exact (hdispatched s).prepares
  | report error => exact (abides_report error).prepares
  | start actions caller =>
    have hstarted : s.Abides (s.startActions actions caller) := abides_of_eq rfl rfl
    exact hstarted.prepares
  | takeErrors =>
    have htaken : s.Abides s.takeErrors.2 := abides_of_eq rfl rfl
    exact htaken.prepares
  | wait clock =>
    have hwaited : s.Abides { s with clock } := abides_of_eq rfl rfl
    exact hwaited.prepares
  | network network => exact (Fetches.abides ⟨network, rfl⟩).prepares

end Hypermedia.Session
