import Hypermedia.Proofs.Session.Turns

/-! Questions: a list that waits for an answer has one question under way, and no other list has any. -/
namespace Hypermedia.Session

open Hypermedia.Action (Ask Plan)

variable {σ : Type} {s t : Session σ} {w v : Worker} {m : Message} (transport : Transport σ)

/-- Whether a message is a question of the list with an id. -/
def Message.asks (id : Nat) (m : Message) : Bool :=
  m.sender == id && match m.task with
    | .answer => true
    | .notice _ => false

/-- The questions of a list under way are as many as it waits for: one or none. -/
def Asked (s : Session σ) (w : Worker) : Prop :=
  s.inbox.countP (·.asks w.id) = w.phase.isAsking.toNat

section acts

theorem not_asks_of_ne {id : Nat} (h : m.sender ≠ id) : m.asks id = false := by
  simp [Message.asks, h]

theorem not_asks_notice {id sender started : Nat} {notice : Notice} :
    Message.asks id ⟨sender, started, .notice notice⟩ = false := by
  simp [Message.asks]

/-- A list that is yet to be started has asked nothing. -/
theorem countP_asks_new (hlt : ∀ m ∈ s.inbox, m.sender < s.nextWorker) {id : Nat}
    (hid : s.nextWorker ≤ id) : s.inbox.countP (·.asks id) = 0 := by
  rw [List.countP_eq_zero]
  intro m hm
  rw [not_asks_of_ne (Nat.ne_of_lt (Nat.lt_of_lt_of_le (hlt m hm) hid))]
  exact Bool.false_ne_true

/-- What the session does by itself leaves the questions of lists as they are. -/
theorem Quiet.asked (h : s.Quiet t) (hlt : ∀ m ∈ s.inbox, m.sender < s.nextWorker)
    (hv : v ∈ t.workers) (ha : ∀ w ∈ s.workers, w.id = v.id → s.Asked w) : t.Asked v := by
  unfold Asked at *
  rw [h.inbox]
  rcases h.origin v hv with ⟨w, hw, hvw⟩ | hnew
  · rw [hvw] at ha ⊢
    exact ha w hw rfl
  · rw [countP_asks_new hlt hnew.id, hnew.phase]
    rfl

end acts

section workers

/-- Lists that change but wait for an answer exactly if they did before. -/
theorem asked_modifyWorker (ha : ∀ w ∈ s.workers, s.Asked w) {id : Nat} {f : Worker → Worker}
    (hf : ∀ w ∈ s.workers, w.id = id →
      (f w).id = w.id ∧ (f w).phase.isAsking = w.phase.isAsking) :
    ∀ w ∈ (s.modifyWorker id f).workers, (s.modifyWorker id f).Asked w := by
  refine List.forall_mem_map.mpr fun w hw => ?_
  have hasked := ha w hw
  unfold Asked at *
  split
  · next hid =>
    obtain ⟨hfid, hfphase⟩ := hf w hw hid
    rw [hfid, hfphase]
    exact hasked
  · exact hasked

theorem asked_post_notice (ha : ∀ w ∈ s.workers, s.Asked w) (sender : Worker) (notice : Notice) :
    ∀ w ∈ s.workers, (s.post sender (.notice notice)).Asked w := by
  intro w hw
  have hasked := ha w hw
  unfold Asked at *
  rw [post, List.countP_append, hasked]
  simp [not_asks_notice]

variable (hs : s.Consistent) (ha : ∀ w ∈ s.workers, s.Asked w)

include hs ha

/-- A list that is at work goes on to something else than a question. -/
theorem asked_phase (hw : w ∈ s.workers) (hphase : w.phase.isAsking = false)
    {f : Worker → Worker} (hf : ∀ v, (f v).id = v.id ∧ (f v).phase.isAsking = false) :
    ∀ v ∈ (s.modifyWorker w.id f).workers, (s.modifyWorker w.id f).Asked v := by
  refine asked_modifyWorker ha fun v hv hid => ⟨(hf v).1, ?_⟩
  rw [(hf v).2, hs.eq_of_id hv hw hid, hphase]

theorem asked_ask (hw : w ∈ s.workers) (hphase : w.phase.isAsking = false) (q : Ask)
    (k : q.Answer → Plan (Option WidgetId)) :
    let t := (s.post w .answer).modifyWorker w.id fun w => { w with phase := .asking q k }
    ∀ v ∈ t.workers, t.Asked v := by
  intro t
  refine List.forall_mem_map.mpr fun v hv => ?_
  have hasked := ha v hv
  unfold Asked at *
  change (s.inbox ++ [(⟨w.id, w.generation, .answer⟩ : Message)]).countP _ = _
  by_cases hid : v.id = w.id
  · obtain rfl := hs.eq_of_id hv hw hid
    have hask : Message.asks v.id ⟨v.id, v.generation, .answer⟩ = true := by
      simp [Message.asks]
    rw [hphase] at hasked
    rw [if_pos rfl, List.countP_append, hasked, List.countP_singleton, hask]
    rfl
  · have hne : Message.asks v.id ⟨w.id, w.generation, .answer⟩ = false :=
      not_asks_of_ne (Ne.symm hid)
    simp [List.countP_append, hasked, hid, hne]

theorem asked_advance (hw : w ∈ s.workers) {plan : Plan (Option WidgetId)}
    (hphase : w.phase = .ready plan) :
    ∀ v ∈ (s.advance transport w plan).workers, (s.advance transport w plan).Asked v := by
  have hnot : w.phase.isAsking = false := by
    rw [hphase]
    rfl
  cases plan with
  | fail e => exact asked_phase hs ha hw hnot fun v => ⟨rfl, rfl⟩
  | done result =>
    rw [advance]
    split <;> exact asked_phase hs ha hw hnot fun v => ⟨rfl, rfl⟩
  | fetch call k =>
    rw [advance]
    split <;> exact asked_phase hs ha hw hnot fun v => ⟨rfl, rfl⟩
  | ask q k => exact asked_ask hs ha hw hnot q k

theorem asked_receive (hw : w ∈ s.workers) {request : Network.Request}
    {k : Network.Response → Plan (Option WidgetId)} (hphase : w.phase = .fetching request k) :
    ∀ v ∈ (s.receive transport w request k).1.workers,
      (s.receive transport w request k).1.Asked v := by
  have hnot : w.phase.isAsking = false := by
    rw [hphase]
    rfl
  obtain h | ⟨reply, -, h⟩ := receive_outcomes transport s w request k <;> rw [h]
  · exact ha
  · exact asked_phase hs ha hw hnot fun v => ⟨rfl, rfl⟩

theorem asked_leave (hw : w ∈ s.workers) {notices : List Notice}
    (hphase : w.phase = .leaving notices) :
    ∀ v ∈ (s.leave w notices).workers, (s.leave w notices).Asked v := by
  cases notices with
  | nil => exact fun v hv => ha v (List.mem_of_mem_filter hv)
  | cons notice rest =>
    refine asked_modifyWorker (asked_post_notice ha w _) fun v hv hid => ⟨rfl, ?_⟩
    rw [hs.eq_of_id hv hw hid, hphase]
    rfl

theorem asked_takeTurn (id : Nat) : ∀ v ∈ (s.takeTurn transport id).1.workers,
    (s.takeTurn transport id).1.Asked v := by
  obtain h | ⟨w, hw, -, ⟨plan, hphase, h⟩ | ⟨request, k, hphase, h⟩ | ⟨notices, hphase, h⟩⟩ :=
    takeTurn_outcomes transport s id <;> rw [h]
  · exact ha
  · exact asked_advance transport hs ha hw hphase
  · exact asked_receive transport hs ha hw hphase
  · exact asked_leave hs ha hw hphase

end workers

section messages

theorem asked_drop {inbox : List Message} (h : s.inbox = m :: inbox) (hm : m.asks w.id = false)
    (ha : s.Asked w) : { s with inbox }.Asked w := by
  unfold Asked at *
  rw [h, List.countP_cons_of_neg (by simp [hm])] at ha
  exact ha

/-- Who sends a question waits for its answer, and has asked nothing else. -/
theorem isAsking_of_asks {inbox : List Message} (h : s.inbox = m :: inbox) (ha : s.Asked w)
    (hm : m.asks w.id = true) :
    w.phase.isAsking = true ∧ inbox.countP (·.asks w.id) = 0 := by
  unfold Asked at ha
  rw [h, List.countP_cons_of_pos hm] at ha
  cases hasking : w.phase.isAsking with
  | false =>
    rw [hasking] at ha
    cases ha
  | true =>
    rw [hasking] at ha
    exact ⟨rfl, Nat.succ.inj ha⟩

/-- An act that answers the one question of a list leaves those of the others. -/
theorem asked_answered {id : Nat} (hlt : ∀ m ∈ s.inbox, m.sender < s.nextWorker) (h : s.Quiet t)
    (hid : s.inbox.countP (·.asks id) = 0) (ha : ∀ w ∈ s.workers, w.id ≠ id → s.Asked w)
    {f : Worker → Worker} (hf : ∀ v, (f v).id = v.id ∧ (f v).phase.isAsking = false) :
    ∀ v ∈ (t.modifyWorker id f).workers, (t.modifyWorker id f).Asked v := by
  refine List.forall_mem_map.mpr fun v hv => ?_
  split
  · next hvid =>
    unfold Asked
    rw [(hf v).1, (hf v).2, hvid]
    exact (congrArg _ h.inbox).trans hid
  · next hne => exact h.asked hlt hv fun w hw hwid => ha w hw (hwid ▸ hne)

variable (hs : s.Consistent) (ha : ∀ w ∈ s.workers, s.Asked w)

include hs ha

theorem asked_answerWorker {inbox : List Message} (h : s.inbox = m :: inbox)
    (htask : m.task = .answer) :
    ∀ v ∈ ({ s with inbox }.answerWorker transport m.sender m.started).workers,
      ({ s with inbox }.answerWorker transport m.sender m.started).Asked v := by
  have hothers : ∀ w ∈ s.workers, w.id ≠ m.sender → { s with inbox }.Asked w := fun w hw hne =>
    asked_drop h (not_asks_of_ne (Ne.symm hne)) (ha w hw)
  have hlt := ((leads_dropMessage h) hs).1.sender_lt
  -- the list that the question comes from waits for its answer, and has no other under way
  have hsender (w : Worker) (hw : w ∈ s.workers) (hid : w.id = m.sender) :
      w.phase.isAsking = true ∧ inbox.countP (·.asks w.id) = 0 :=
    isAsking_of_asks h (ha w hw) (by simp [Message.asks, hid, htask])
  obtain ⟨hnone, heq⟩ | ⟨w, q, k, hfind, -, heq⟩ :=
    answerWorker_outcomes transport { s with inbox } m.sender m.started <;> rw [heq]
  · refine fun v hv => hothers v hv fun hid => ?_
    have hfind := ((leads_dropMessage h) hs).1.find?_worker hv
    rw [hid] at hfind
    obtain ⟨hasking, -⟩ := hsender v hv hid
    cases hp : v.phase with
    | asking q k => exact hnone v q k hfind hp
    | _ => simp [hp, Phase.isAsking] at hasking
  · obtain ⟨hw, hid⟩ := worker_of_find? hfind
    obtain ⟨-, hcount⟩ := hsender w hw hid
    have hquiet : { s with inbox }.Quiet (answerCurrent transport m.started q { s with inbox }).2 :=
      (moves_answerCurrent transport m.started q _).2
    exact asked_answered hlt hquiet (hid ▸ hcount) hothers fun v => ⟨rfl, rfl⟩

/-- A notice is no question. -/
theorem asked_quiet {inbox : List Message} (h : s.inbox = m :: inbox) {notice : Notice}
    (htask : m.task = .notice notice) (hquiet : { s with inbox }.Quiet t) :
    ∀ v ∈ t.workers, t.Asked v := by
  have hlt := ((leads_dropMessage h) hs).1.sender_lt
  intro v hv
  refine hquiet.asked hlt hv fun w hw _ => asked_drop h ?_ (ha w hw)
  simp [Message.asks, htask]

theorem asked_handleNext : ∀ v ∈ (s.handleNext transport).workers,
    (s.handleNext transport).Asked v := by
  obtain ⟨-, heq⟩ | ⟨m, inbox, h, ⟨htask, heq⟩ | ⟨roots, htask, heq⟩ | ⟨e, htask, heq⟩⟩ :=
    handleNext_outcomes transport s <;> rw [heq]
  · exact ha
  · exact asked_answerWorker transport hs ha h htask
  · exact asked_quiet hs ha h htask (keeps_releaseFragments _).quiet
  · exact asked_quiet hs ha h htask (acts_report _).2

end messages

theorem asked_after (hs : s.Consistent) (ha : ∀ w ∈ s.workers, s.Asked w) (turn : Turn σ) :
    ∀ v ∈ (s.after transport turn).workers, (s.after transport turn).Asked v := by
  cases turn with
  | message => exact asked_handleNext transport hs ha
  | worker id => exact asked_takeTurn transport hs ha id
  | _ =>
    intro v hv
    exact (acts_after transport (by simp) (by simp)).2.asked hs.sender_lt hv fun w hw _ => ha w hw

theorem asked_start {config : Config} {network : σ} (h : start config network = .ok s) :
    ∀ w ∈ s.workers, s.Asked w := by
  simp [(idle_start h).1]

theorem asked_afterAll (hs : s.Consistent) (ha : ∀ w ∈ s.workers, s.Asked w)
    (turns : List (Turn σ)) :
    ∀ v ∈ (s.afterAll transport turns).workers, (s.afterAll transport turns).Asked v := by
  induction turns generalizing s with
  | nil => exact ha
  | cons turn turns ih =>
    exact ih ((leads_after transport turn) hs).1 (asked_after transport hs ha turn)

end Hypermedia.Session
