import Hypermedia.Proofs.Session.Answer

/-! Turns keep the books of a session in order, whatever the network does and in whatever order they
are taken. -/
namespace Hypermedia.Session

open Effect (Moves)
open Hypermedia.Action (Ask Plan)

variable {σ : Type} {s t : Session σ} {w : Worker} {m : Message} {root : WidgetId}
  (transport : Transport σ)

section workers

theorem Worker.fragments_farewell (w : Worker) (error : Option Error) :
    (w.farewell error).flatMap Notice.fragments ⊆ w.loaded := by
  intro root hroot
  obtain ⟨notice, hnotice, hroot⟩ := List.mem_flatMap.mp hroot
  rcases List.mem_append.mp hnotice with hrelease | hreport
  · split at hrelease
    · cases hrelease
    · obtain rfl := List.mem_singleton.mp hrelease
      exact hroot
  · obtain ⟨e, -, rfl⟩ := List.mem_map.mp hreport
    cases hroot

theorem leads_finish (w : Worker) (error : Option Error) : s.Leads (s.finish w error) := by
  refine leads_modifyWorker fun v _ _ => ⟨rfl, rfl, fun _ => rfl, fun root hroot => .inl ?_⟩
  exact List.mem_append_left _ (v.fragments_farewell error hroot)

theorem leads_advance (hw : w ∈ s.workers) (plan : Plan (Option WidgetId)) :
    s.Leads (s.advance transport w plan) := by
  cases plan with
  | fail e => exact leads_finish w (some e)
  | done result =>
    rw [advance]
    split
    · exact leads_finish w none
    · refine leads_modifyWorker fun v _ _ => ⟨rfl, rfl, ?_, fun root hroot => .inl ?_⟩
      · intro hv
        simp [hv]
      · rw [Worker.fragments, Phase.fragments, List.append_nil] at hroot
        exact List.mem_append_left _ hroot
  | fetch call k =>
    rw [advance]
    split
    · exact leads_finish w _
    · exact (keeps_network _).leads.trans
        (leads_modifyWorker fun v _ _ => .phase (List.nil_subset _))
  | ask q k =>
    have hpost := leads_post hw .answer (List.nil_subset _)
    exact hpost.trans (leads_modifyWorker fun v _ _ => .phase (List.nil_subset _))

/-- What comes of a request under way: only the network moves, or the list goes on with its reply. -/
theorem receive_outcomes (s : Session σ) (w : Worker) (request : Network.Request)
    (k : Network.Response → Plan (Option WidgetId)) :
    let t : Session σ := { s with network := (transport.reply request s.network).2 }
    (s.receive transport w request k).1 = t ∨
    ∃ reply, (transport.reply request s.network).1 = some reply ∧
      (s.receive transport w request k).1 = t.modifyWorker w.id fun v =>
        { v with phase := .ready (.resume k (t.received w reply)) } := by
  unfold receive
  dsimp only
  split
  · exact .inl rfl
  · next reply hreply => exact .inr ⟨reply, hreply, rfl⟩

/-- What comes of the turn of a list: nothing, or what its phase has it do. -/
theorem takeTurn_outcomes (s : Session σ) (id : Nat) :
    (s.takeTurn transport id).1 = s ∨
    ∃ w ∈ s.workers, w.id = id ∧
      ((∃ plan, w.phase = .ready plan ∧ (s.takeTurn transport id).1 = s.advance transport w plan) ∨
        (∃ request k, w.phase = .fetching request k ∧
          (s.takeTurn transport id).1 = (s.receive transport w request k).1) ∨
        ∃ notices, w.phase = .leaving notices ∧ (s.takeTurn transport id).1 = s.leave w notices) := by
  unfold takeTurn
  split
  · exact .inl rfl
  · next w hfind =>
    obtain ⟨hw, hid⟩ := worker_of_find? hfind
    split
    · next plan hphase => exact .inr ⟨w, hw, hid, .inl ⟨plan, hphase, rfl⟩⟩
    · next request k hphase => exact .inr ⟨w, hw, hid, .inr (.inl ⟨request, k, hphase, rfl⟩)⟩
    · exact .inl rfl
    · next notices hphase => exact .inr ⟨w, hw, hid, .inr (.inr ⟨notices, hphase, rfl⟩)⟩

theorem leads_receive (w : Worker) (request : Network.Request)
    (k : Network.Response → Plan (Option WidgetId)) :
    s.Leads (s.receive transport w request k).1 := by
  obtain h | ⟨reply, -, h⟩ := receive_outcomes transport s w request k <;> rw [h]
  · exact (keeps_network _).leads
  · exact (keeps_network _).leads.trans
      (leads_modifyWorker fun v _ _ => .phase (List.nil_subset _))

theorem leads_leave (hw : w ∈ s.workers) {notices : List Notice}
    (hphase : w.phase = .leaving notices) : s.Leads (s.leave w notices) := by
  cases notices with
  | nil => exact leads_dismissWorker w.id
  | cons notice rest =>
    intro hs
    have hhas : ∀ n ∈ notice :: rest, n.fragments ⊆ w.fragments := by
      intro n hn root hroot
      refine List.mem_append_right _ ?_
      rw [hphase]
      exact List.mem_flatMap.mpr ⟨n, hn, hroot⟩
    have hpost := leads_post hw (.notice notice) (hhas notice List.mem_cons_self)
    refine (hpost.trans (leads_modifyWorker fun v hv hid => .phase ?_)) hs
    rw [hs.eq_of_id hv hw hid]
    intro root hroot
    obtain ⟨n, hn, hroot⟩ := List.mem_flatMap.mp hroot
    exact hhas n (List.mem_cons_of_mem _ hn) hroot

theorem leads_takeTurn (id : Nat) : s.Leads (s.takeTurn transport id).1 := by
  obtain h | ⟨w, hw, -, ⟨plan, -, h⟩ | ⟨request, k, -, h⟩ | ⟨notices, hphase, h⟩⟩ :=
    takeTurn_outcomes transport s id <;> rw [h]
  · exact .refl s
  · exact leads_advance transport hw plan
  · exact leads_receive transport w request k
  · exact leads_leave hw hphase

end workers

section messages

theorem moves_answerCurrent (started : Nat) (q : Ask) :
    Moves Acts (answerCurrent transport started q) := by
  refine Effect.moves_get_bind fun s => ?_
  split
  · exact moves_answer transport q s
  · exact Effect.moves_throw _ s

/-- An answer that brings a fragment is one to a list of the page that is shown. -/
theorem fragmentOf_answerCurrent {started : Nat} {q : Ask}
    (h : root ∈ fragmentOf q (answerCurrent transport started q s).1) :
    (answerCurrent transport started q s).2.generation = started ∧
      root.index < (answerCurrent transport started q s).2.tree.slots.size := by
  cases q with
  | loadFragment response =>
    by_cases hg : s.generation = started
    · have hrun : answerCurrent transport started (.loadFragment response) s =
          loadFragment transport response s := by
        rw [answerCurrent, Effect.run_get_bind, if_pos hg]
        rfl
      rw [hrun] at h ⊢
      have hkeeps := keeps_loadFragment transport response s
      have hgives := gives_loadFragment transport response s
      cases hr : loadFragment transport response s with
      | mk result t =>
        rw [hr] at h hkeeps
        cases result with
        | error e => cases h
        | ok id =>
          obtain rfl := List.mem_singleton.mp h
          exact ⟨hkeeps.generation.trans hg, hgives root t hr⟩
    · rw [answerCurrent, Effect.run_get_bind, if_neg hg] at h
      cases h
  | _ => cases h

/-- What comes of a question: nothing where its list asks none, and else the list goes on with the answer. -/
theorem answerWorker_outcomes (s : Session σ) (id started : Nat) :
    ((∀ w q k, s.workers.find? (·.id = id) = some w → w.phase ≠ .asking q k) ∧
      s.answerWorker transport id started = s) ∨
    ∃ w q k, s.workers.find? (·.id = id) = some w ∧ w.phase = .asking q k ∧
      s.answerWorker transport id started =
        (answerCurrent transport started q s).2.modifyWorker id fun v =>
          { v with
            loaded := v.loaded ++ fragmentOf q (answerCurrent transport started q s).1
            phase := .ready (.resume k (answerCurrent transport started q s).1) } := by
  unfold answerWorker
  split
  · next hnone =>
    refine .inl ⟨fun w q k hw => ?_, rfl⟩
    cases hnone.symm.trans hw
  · next w hfind =>
    split
    · next q k hphase => exact .inr ⟨w, q, k, hfind, hphase, rfl⟩
    · next hphase =>
      refine .inl ⟨fun v q k hv => ?_, rfl⟩
      obtain rfl := Option.some.inj (hfind.symm.trans hv)
      exact hphase q k

/-- What comes of the first message under way. -/
theorem handleNext_outcomes (s : Session σ) :
    (s.inbox = [] ∧ s.handleNext transport = s) ∨
    ∃ m inbox, s.inbox = m :: inbox ∧
      ((m.task = .answer ∧
          s.handleNext transport = { s with inbox }.answerWorker transport m.sender m.started) ∨
        (∃ roots, m.task = .notice (.release roots) ∧
          s.handleNext transport = { s with inbox }.releaseFragments roots) ∨
        ∃ e, m.task = .notice (.report e) ∧ s.handleNext transport = { s with inbox }.report e) := by
  unfold handleNext
  split
  · next hempty => exact .inl ⟨hempty, rfl⟩
  · next m inbox hinbox =>
    refine .inr ⟨m, inbox, hinbox, ?_⟩
    unfold handle
    split
    · next htask => exact .inl ⟨htask, rfl⟩
    · next roots htask => exact .inr (.inl ⟨roots, htask, rfl⟩)
    · next e htask => exact .inr (.inr ⟨e, htask, rfl⟩)

theorem leads_answerWorker {id started : Nat} (hid : id < s.nextWorker)
    (hstarted : ∀ w ∈ s.workers, w.id = id → w.generation = started) :
    s.Leads (s.answerWorker transport id started) := by
  obtain ⟨-, h⟩ | ⟨w, q, k, -, -, h⟩ := answerWorker_outcomes transport s id started <;> rw [h]
  · exact .refl s
  · intro hs
    have hanswered : Leads s (answerCurrent transport started q s).2 :=
      (moves_answerCurrent transport started q s).1
    obtain ⟨-, hfollows⟩ := hanswered hs
    refine hanswered.trans (leads_modifyWorker fun v hv hvid => ?_) hs
    refine ⟨rfl, rfl, fun h => h, fun root hroot => ?_⟩
    rw [Worker.fragments, Phase.fragments, List.append_nil] at hroot
    rcases List.mem_append.mp hroot with hold | hnew
    · exact .inl (List.mem_append_left _ hold)
    · obtain ⟨hgeneration, hlt⟩ := fragmentOf_answerCurrent transport hnew
      refine .inr ⟨?_, hlt⟩
      rcases hfollows.origin v hv with ⟨w, hw, hwid, hwg⟩ | hfresh
      · rw [← hwg, hstarted w hw (hwid.trans hvid)]
        exact hgeneration.symm
      · exact absurd hid (Nat.not_lt_of_le (hvid ▸ hfresh))

theorem leads_handleNext : s.Leads (s.handleNext transport) := by
  obtain ⟨-, h⟩ | ⟨m, inbox, hinbox, hcases⟩ := handleNext_outcomes transport s
  · rw [h]
    exact .refl s
  · intro hs
    have hm : m ∈ s.inbox := hinbox ▸ List.mem_cons_self
    refine (leads_dropMessage hinbox).trans ?_ hs
    obtain ⟨-, h⟩ | ⟨roots, -, h⟩ | ⟨e, -, h⟩ := hcases <;> rw [h]
    · exact leads_answerWorker transport (hs.sender_lt m hm) (hs.sender m hm)
    · exact (keeps_releaseFragments _).leads
    · exact (acts_report _).1

theorem acts_fireTimers : s.Acts s.fireTimers :=
  acts_carries.fireTimers (fun _ => acts_report)
    (fun _ _ => Keeps.acts ⟨rfl, rfl, rfl, rfl, Nat.le_refl _, fun _ _ h => h⟩) s

end messages

/-- Every turn but those of messages and action lists is an act of the session alone. -/
theorem acts_after {turn : Turn σ} (hm : turn ≠ .message) (hw : ∀ id, turn ≠ .worker id) :
    s.Acts (s.after transport turn) := by
  cases turn with
  | message => exact absurd rfl hm
  | timers => exact acts_fireTimers
  | worker id => exact absurd rfl (hw id)
  | route destination suppressHistory => exact acts_navigates.route transport destination suppressHistory s
  | back => exact acts_navigates.revisit transport History.back s
  | forward => exact acts_navigates.revisit transport History.forward s
  | refresh => exact acts_navigates.refresh transport s
  | dispatch id event => exact moves_dispatch id event s
  | start actions caller => exact acts_startActions actions caller
  | report error => exact acts_report error
  | takeErrors => exact Keeps.acts ⟨rfl, rfl, rfl, rfl, Nat.le_refl _, fun _ _ h => h⟩
  | wait clock => exact Keeps.acts ⟨rfl, rfl, rfl, rfl, Nat.le_refl _, fun _ _ h => h⟩
  | network network => exact (keeps_network network).acts

theorem leads_after (turn : Turn σ) : s.Leads (s.after transport turn) := by
  cases turn with
  | message => exact leads_handleNext transport
  | worker id => exact leads_takeTurn transport id
  | _ => exact (acts_after transport (by simp) (by simp)).1

theorem leads_afterAll (turns : List (Turn σ)) : s.Leads (s.afterAll transport turns) := by
  induction turns generalizing s with
  | nil => exact .refl s
  | cons turn turns ih => exact (leads_after transport turn).trans ih

theorem consistent_start {config : Config} {network : σ} (h : start config network = .ok s) :
    s.Consistent := by
  obtain ⟨hworkers, hinbox⟩ := idle_start h
  exact consistent_of_idle hworkers hinbox

section schedule

/-- Turns lead from one session to the other. -/
def Reaches (s t : Session σ) : Prop :=
  ∃ turns, s.afterAll transport turns = t

theorem Reaches.refl (s : Session σ) : Reaches transport s s := ⟨[], rfl⟩

variable {transport}

theorem Reaches.trans {u : Session σ} (h : Reaches transport s t) (k : Reaches transport t u) :
    Reaches transport s u := by
  obtain ⟨turns, rfl⟩ := h
  obtain ⟨more, rfl⟩ := k
  exact ⟨turns ++ more, List.foldl_append⟩

variable (transport)

theorem reaches_after (turn : Turn σ) : Reaches transport s (s.after transport turn) :=
  ⟨[turn], rfl⟩

theorem reaches_pump : Reaches transport s (s.pump transport) := by
  have hdrain : Reaches transport s (s.drain transport) := by
    refine ⟨s.inbox.map fun _ => .message, ?_⟩
    rw [afterAll, List.foldl_map]
    rfl
  exact hdrain.trans (reaches_after transport .timers)

theorem reaches_takeTurns (ids : List Nat) :
    Reaches transport s (s.takeTurns transport ids).1 := by
  induction ids generalizing s with
  | nil => exact .refl transport s
  | cons id ids ih => exact (reaches_after transport (.worker id)).trans ih

theorem reaches_round : Reaches transport s (s.round transport).1 :=
  (reaches_pump transport).trans (reaches_takeTurns transport _)

theorem reaches_settle (rounds : Nat) : Reaches transport s (s.settle transport rounds) := by
  induction rounds generalizing s with
  | zero => exact .refl transport s
  | succ rounds ih =>
    have hround : Reaches transport s (s.round transport).1 := reaches_round transport
    rw [settle]
    dsimp only
    split
    · exact hround.trans ih
    · exact hround

theorem reaches_idleWithin (waits : Nat) : Reaches transport s (s.idleWithin transport waits) := by
  induction waits generalizing s with
  | zero => exact .refl transport s
  | succ waits ih =>
    have hsettle : Reaches transport s (s.settle transport maxRounds) := reaches_settle transport _
    rw [idleWithin]
    split
    · next due _ => exact hsettle.trans ((reaches_after transport (.wait due)).trans ih)
    · exact hsettle

/-- Going on until nothing is left to do is one of the ways to mix the turns. -/
theorem reaches_runUntilIdle : Reaches transport s (s.runUntilIdle transport) :=
  reaches_idleWithin transport _

end schedule

end Hypermedia.Session
