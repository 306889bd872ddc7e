import Hypermedia.Proofs.Session.Awaiting

/-! Heedful sessions: between turns neither scripts nor action lists name what they could do harm to in a
fragment that waits for a place, and every turn leaves it so. -/
namespace Hypermedia.Session

open Hypermedia.Action (Ask)

variable {σ : Type} {s t u : Session σ} {x result target : WidgetId} {edit : Edit} (transport : Transport σ)

/-- Action lists place what they load or find at widgets that are open. -/
structure Heedful (s : Session σ) : Prop extends Reticent s where
  aims : ∀ w ∈ s.workers, w.AimsAt s.Known s.Open

section answers

variable {q : Ask}

theorem open_of_layer (hs : s.Secluded) {a : WidgetId} (ha : a ∈ s.tree.layers) (hx : s.Known x)
    (hw : s.tree.Within x a) : s.Open x :=
  ⟨hx, fun hwithheld => hs.encloses.not_layer ha ((hs.encloses.within hw).mp hwithheld)⟩

theorem aims_of_nextEdit? (hs : s.Heedful) (h : s.nextEdit? = some (result, target, edit)) :
    s.Known result ∧ s.Open target := by
  unfold nextEdit? at h
  split at h
  · cases h
  · next m inbox hinbox =>
    split at h
    · next w htask hw =>
      obtain ⟨hmem, -⟩ := worker_of_find? hw
      split at h
      · next k hphase =>
        split at h
        · cases h
          have haims := (hs.aims w hmem).phase
          rw [hphase] at haims
          exact haims.1
        · cases h
      · cases h
    · cases h

/-- An answer that edits nothing. -/
theorem heeds_answer (hs : s.Reticent) (hi : s.Intact) (hq : ∀ result target edit, q ≠ .edit result target edit) :
    s.Heeds (answer transport q s).2 := by
  have hlift {ε α : Type} (into : ε → Error) (r : Except ε α) : s.Heeds (lift into r s : _ × Session σ).2 :=
    .of_respects hs (moves_lift into r s)
  cases q with
  | requestBody caller selector => exact hlift _ _
  | loadFragment response => exact heeds_loadFragment transport hs hi response
  | select selector within => exact hlift _ _
  | isContainer id => exact hlift _ _
  | query id => exact hs.heeds
  | edit result target edit => exact absurd rfl (hq result target edit)

/-- An edit that asks for a widget that is open gives scopes to what it makes ready. -/
theorem completes_applyEdit (hs : s.Reticent) (htarget : s.Open target) :
    s.Completes (prepareEdit result target edit) (applyEdit result target edit s).2 := by
  rw [applyEdit_eq_prepareEdit]
  exact completes_bindScripts hs (readies_prepareEdit hs htarget.2)

theorem retains_answerCurrent (hs : s.Reticent) (hi : s.Intact) (hq : q.Relies s.Known s.Open) (started : Nat) :
    (answerCurrent transport started q s).2.Reticent ∧ s.Retains (answerCurrent transport started q s).2 := by
  have hheeds {t : Session σ} (h : s.Heeds t) : t.Reticent ∧ s.Retains t := ⟨h.reticent, h.retains⟩
  rw [answerCurrent_eq]
  split
  · cases q with
    | edit result target edit => exact (completes_applyEdit hs hq.2).retains hs
    | _ => exact hheeds (heeds_answer transport hs hi nofun)
  · exact hheeds hs.heeds

end answers

section messages

theorem completes_handleNext (hs : s.Sound) (hh : s.Heedful) :
    s.Completes prepareMessage (s.handleNext transport) := by
  have hinbox (inbox : List Message) : s.Heeds { s with inbox } :=
    .of_respects hh.toReticent (respects_of_eq rfl rfl rfl rfl)
  have hworkers (t : Session σ) (ht : t.Reticent) (id : Nat) (f : Worker → Worker) : t.Heeds (t.modifyWorker id f) :=
    .of_respects ht (respects_of_eq rfl rfl rfl rfl)
  cases h : s.nextEdit? with
  | none =>
    have hheeds : s.Heeds (s.handleNext transport) := by
      rcases handleNext_cases transport h with heq | ⟨inbox, heq | ⟨id, f, heq⟩ | ⟨q, id, f, hq, heq⟩ |
        ⟨roots, heq⟩ | ⟨e, heq⟩⟩ <;> rw [heq]
      · exact hh.toReticent.heeds
      · exact hinbox inbox
      · exact (hinbox inbox).trans (hworkers _ (hinbox inbox).reticent id f)
      · have hanswered := heeds_answer transport (hinbox inbox).reticent (sound_dropMessage hs inbox).intact hq
        exact (hinbox inbox).trans (hanswered.trans (hworkers _ hanswered.reticent id f))
      · exact (hinbox inbox).trans (.of_respects (hinbox inbox).reticent (respects_releaseFragments roots))
      · exact (hinbox inbox).trans (.of_respects (hinbox inbox).reticent (respects_report e))
    refine Completes.head hh.toReticent.heeds (hheeds.completes hh.toReticent) ?_
    rw [prepareMessage, Effect.run_get_bind, h]
  | some asked =>
    obtain ⟨result, target, edit⟩ := asked
    obtain ⟨id, f, heq⟩ := handleNext_of_edit transport h
    have hdropped := hinbox s.inbox.tail
    have hopen := hdropped.opened target (aims_of_nextEdit? hh h).2
    have hedited : Completes _ (prepareEdit result target edit) (applyEdit result target edit _).2 :=
      completes_applyEdit hdropped.reticent hopen
    rw [heq]
    refine (Completes.head hdropped hedited ?_).trans (hworkers _ hedited.after.reticent id f)
    rw [prepareMessage, Effect.run_get_bind, h]
    dsimp only
    rw [Effect.run_modify_bind]

end messages

section turns

/-- Whatever a turn does, it makes ready what it gives scopes to, and leaves the fragments that go on waiting
alone. -/
theorem completes_after (hs : s.Sound) (hh : s.Heedful) (turn : Turn σ) :
    s.Completes (prepare transport turn) (s.after transport turn) := by
  have hnone {t : Session σ} (h : s.Respects (fun _ => False) t) : s.Completes (pure []) t :=
    (Heeds.of_respects hh.toReticent h).completes hh.toReticent
  have htree := hs.intact.tree
  cases turn with
  | message => exact completes_handleNext transport hs hh
  | timers => exact hnone respects_fireTimers
  | worker id =>
    obtain ⟨network, workers, inbox, h⟩ := takeTurn_frame transport (s := s) id
    have htaken : s.Respects (fun _ => False) (s.takeTurn transport id).1 := h ▸ respects_of_eq rfl rfl rfl rfl
    exact hnone htaken
  | route destination suppressHistory =>
    exact completes_route transport hh.toReticent htree destination suppressHistory
  | back => exact completes_revisit transport hh.toReticent htree History.back
  | forward => exact completes_revisit transport hh.toReticent htree History.forward
  | refresh =>
    rw [after, refresh_eq]
    exact Completes.head hh.toReticent.heeds (completes_route transport hh.toReticent htree s.url.text true)
      (prepare_refresh transport s)
  | dispatch id event => exact hnone (respects_dispatch id event s)
  | start actions caller => exact hnone (respects_startActions actions caller)
  | report error => exact hnone (respects_report error)
  | takeErrors => exact hnone (respects_of_eq rfl rfl rfl rfl)
  | wait clock => exact hnone (respects_of_eq rfl rfl rfl rfl)
  | network network => exact hnone (respects_of_eq rfl rfl rfl rfl)

/-- Where lists aim at what was open before, they aim at what is. -/
theorem Retains.heedful (h : s.Retains t) (ht : t.Reticent) (ha : ∀ w ∈ t.workers, w.AimsAt s.Known s.Open) :
    t.Heedful :=
  ⟨ht, fun w hw => (ha w hw).mono (fun _ => known_later h.size_le) h.opened⟩

theorem Heedful.quiet (hh : s.Heedful) (h : s.Heeds t) (hquiet : s.Quiet t) : t.Heedful :=
  h.retains.heedful h.reticent (hquiet.aimsAt hh.aims)

theorem aims_answerWorker (hs : s.Sound) (hh : s.Heedful) (id started : Nat) :
    ∀ v ∈ (s.answerWorker transport id started).workers,
      v.AimsAt (s.answerWorker transport id started).Known (s.answerWorker transport id started).Open := by
  obtain ⟨-, h⟩ | ⟨w, q, k, hfind, hphase, h⟩ := answerWorker_outcomes transport s id started <;> rw [h]
  · exact hh.aims
  · obtain ⟨hw, -⟩ := worker_of_find? hfind
    have hask := (hh.aims w hw).ask hphase
    have hquiet : s.Quiet (answerCurrent transport started q s).2 :=
      (moves_answerCurrent transport started q s).2
    obtain ⟨hreticent, hretains⟩ := retains_answerCurrent transport hh.toReticent hs.intact hask.1 started
    cases hr : answerCurrent transport started q s with
    | mk result t =>
      rw [hr] at hquiet hreticent hretains
      have hallows (answer : q.Answer) (hanswer : result = .ok answer) : q.Allows t.Known t.Open answer :=
        allows_answerCurrent transport hs.intact.tree.forest (hanswer ▸ hr) fun _ ha _ =>
          open_of_layer hreticent.toSecluded ha
      exact aimsAt_answered (fun _ => known_later hretains.size_le) hretains.opened hquiet hh.aims hw hphase
        hallows id _

theorem aims_handleNext (hs : s.Sound) (hh : s.Heedful) :
    ∀ v ∈ (s.handleNext transport).workers, v.AimsAt (s.handleNext transport).Known (s.handleNext transport).Open := by
  obtain ⟨-, h⟩ | ⟨m, inbox, -, hcases⟩ := handleNext_outcomes transport s
  · rw [h]
    exact hh.aims
  · have hrest : Sound { s with inbox } := sound_dropMessage hs inbox
    have hdropped : s.Heeds { s with inbox } := .of_respects hh.toReticent (respects_of_eq rfl rfl rfl rfl)
    have hh' : Heedful { s with inbox } := hdropped.retains.heedful hdropped.reticent hh.aims
    obtain ⟨-, h⟩ | ⟨roots, -, h⟩ | ⟨e, -, h⟩ := hcases <;> rw [h]
    · exact aims_answerWorker transport hrest hh' _ _
    · exact (hh'.quiet (.of_respects hh'.toReticent (respects_releaseFragments _))
        (keeps_releaseFragments _).quiet).aims
    · exact (hh'.quiet (.of_respects hh'.toReticent (respects_report _)) (acts_report _).2).aims

theorem heedful_after (hs : s.Sound) (hh : s.Heedful) (turn : Turn σ) :
    (s.after transport turn).Heedful ∧ s.Retains (s.after transport turn) := by
  obtain ⟨hreticent, hretains⟩ := (completes_after transport hs hh turn).retains hh.toReticent
  refine ⟨?_, hretains⟩
  cases turn with
  | message => exact ⟨hreticent, aims_handleNext transport hs hh⟩
  | worker id => exact hretains.heedful hreticent (aimsAt_takeTurn transport hh.aims id)
  | _ => exact hretains.heedful hreticent ((acts_after transport (by simp) (by simp)).2.aimsAt hh.aims)

/-- Every session that turns lead to is heedful. -/
theorem heedful_afterAll (hs : s.Sound) (hh : s.Heedful) (turns : List (Turn σ)) :
    (s.afterAll transport turns).Heedful ∧ s.Retains (s.afterAll transport turns) := by
  induction turns generalizing s with
  | nil => exact ⟨hh, .refl s⟩
  | cons turn turns ih =>
    obtain ⟨hafter, hretains⟩ := heedful_after transport hs hh turn
    obtain ⟨hlast, hlater⟩ := ih (sound_after transport hs turn) hafter
    exact ⟨hlast, hretains.trans hlater⟩

theorem owners_initial : Script.World.initial.scopes.owners = [] := by
  obtain ⟨-, -, -, hsize, -⟩ := Script.World.initial_names_none
  rw [Script.Scopes.owners, Array.eq_empty_of_size_eq_zero hsize]
  rfl

theorem heedful_start {config : Config} {network : σ} (h : start config network = .ok s) : s.Heedful := by
  obtain ⟨url, -, rfl⟩ := start_eq_ok h
  have howners : (Script.World.initial.scopes.add none).2.owners = [] :=
    (Script.Scopes.owners_add _ none).trans owners_initial
  have hconfined {P : WidgetId → Prop} := Script.World.confined_initial (P := P)
  refine ⟨⟨secluded_of_pending Tree.forest_empty rfl, ?_, howners ▸ .nil, fun x hx => ?_⟩,
    fun w hw => absurd hw List.not_mem_nil⟩
  · exact Script.World.confined_withScopes hconfined (Script.Scopes.confined_add hconfined.scopes none)
  · have hnone : x ∈ ([] : List WidgetId) := howners ▸ hx
    cases hnone

end turns

end Hypermedia.Session
