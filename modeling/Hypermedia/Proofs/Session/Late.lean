import Hypermedia.Proofs.Session.Stale

/-! Errors that come late: when an action list of a page that is no longer shown still disturbs the page
that took its place. -/
namespace Hypermedia.Session

open Hypermedia.Action (Ask Call Plan)

variable {σ : Type} {s t : Session σ} {w v : Worker} {m : Message} {g : Nat}
  (transport : Transport σ)

/-- Nothing is noted or halted, no page changes, and the lists and timers of the page go on. -/
structure Undisturbed (s t : Session σ) : Prop where
  errors : t.errors = s.errors
  halted : t.halted = s.halted
  generation : t.generation = s.generation
  timers : t.timers = s.timers
  workers : ∀ w ∈ s.workers, w.generation = s.generation → w ∈ t.workers

/-- The network can answer a request with an error of its own. -/
def Transport.CanFail (request : Network.Request) : Prop :=
  ∃ network e, (transport.reply request network).1 = some (.error e) ∧ e ≠ .cancelled

/-- An action list that takes no further step but may still end with an error. -/
def Worker.Overdue (w : Worker) : Prop :=
  match w.phase with
  | .ready (.fail e) => ¬ e.isCancellation
  | .ready (.fetch call _) =>
    match requestOf w.base call with
    | .error e => e ≠ .cancelled
    | .ok request => transport.CanFail request
  | .fetching request _ => transport.CanFail request
  | .leaving notices => ∃ e, .report e ∈ notices ∧ ¬ e.isCancellation
  | .ready (.done _) | .ready (.ask _ _) | .asking _ _ => False

/-- A message reports an error that is not a cancellation. -/
def Message.Complains (m : Message) : Prop :=
  ∃ e, m.task = .notice (.report e) ∧ ¬ e.isCancellation

/-- Of the lists started before page change `g` none has reported an error or may come to one. -/
structure Spent (g : Nat) (s : Session σ) : Prop where
  workers : ∀ w ∈ s.workers, w.generation < g → ¬ w.Overdue transport
  inbox : ∀ m ∈ s.inbox, m.started < g → ¬ m.Complains

theorem isCancellation_network {e : NetworkError} :
    (Error.network e).isCancellation = true ↔ e = .cancelled := by
  cases e <;> simp [Error.isCancellation]

section spent

variable {transport}

/-- What the session does by itself brings no list to an error. -/
theorem Quiet.spent (h : s.Quiet t) (hg : g ≤ s.generation) (hs : Spent transport g s) :
    Spent transport g t where
  workers v hv hlt := by
    rcases h.origin v hv with ⟨w, hw, hvw⟩ | hnew
    · rw [hvw] at hlt ⊢
      exact hs.workers w hw hlt
    · exact absurd (Nat.lt_of_lt_of_le hlt hg) (Nat.not_lt_of_le hnew.generation)
  inbox := by
    rw [h.inbox]
    exact hs.inbox

theorem spent_modifyWorker (hs : Spent transport g s) {id : Nat} {f : Worker → Worker}
    (hf : ∀ w ∈ s.workers, w.id = id → (f w).generation = w.generation ∧
      (w.generation < g → ¬ (f w).Overdue transport)) : Spent transport g (s.modifyWorker id f) where
  workers := by
    refine List.forall_mem_map.mpr fun w hw => ?_
    split
    · next hid =>
      intro hlt
      obtain ⟨hgeneration, hover⟩ := hf w hw hid
      exact hover (hgeneration ▸ hlt)
    · exact hs.workers w hw
  inbox := hs.inbox

theorem spent_post (hs : Spent transport g s) {task : Task}
    (h : w.generation < g → ¬ Message.Complains ⟨w.id, w.generation, task⟩) :
    Spent transport g (s.post w task) where
  workers := hs.workers
  inbox := List.forall_mem_append.mpr ⟨hs.inbox, List.forall_mem_singleton.mpr h⟩

theorem spent_network (hs : Spent transport g s) (network : σ) :
    Spent transport g { s with network } :=
  ⟨hs.workers, hs.inbox⟩

theorem spent_drop (hs : Spent transport g s) {inbox : List Message} (h : s.inbox = m :: inbox) :
    Spent transport g { s with inbox } :=
  ⟨hs.workers, fun n hn => hs.inbox n (h ▸ List.mem_cons_of_mem m hn)⟩

/-- A list that ends without an error, or with a cancellation, is not overdue. -/
theorem not_overdue_farewell {error : Option Error} (hv : v.phase = .leaving (w.farewell error))
    (h : ∀ e, error = some e → e.isCancellation) : ¬ v.Overdue transport := by
  rw [Worker.Overdue, hv]
  rintro ⟨e, he, hcancel⟩
  rcases List.mem_append.mp he with hrelease | hreport
  · split at hrelease
    · cases hrelease
    · cases List.mem_singleton.mp hrelease
  · obtain ⟨e', he', heq⟩ := List.mem_map.mp hreport
    cases heq
    exact hcancel (h e (Option.mem_toList.mp he'))

end spent

section turns

theorem Consistent.steps_of_lt (hs : s.Consistent) (hg : g ≤ s.generation) (hw : w ∈ s.workers)
    (hlt : w.generation < g) : w.steps = [] :=
  hs.cleared w hw (Nat.ne_of_lt (Nat.lt_of_lt_of_le hlt hg))

variable (hs : s.Consistent) (hg : g ≤ s.generation) (hspent : Spent transport g s)

/-- A list changes in a way that leaves it without an error if it had none. -/
theorem spent_phase (hs : s.Consistent) (hspent : Spent transport g s) (hw : w ∈ s.workers)
    {f : Worker → Worker} (hgeneration : (f w).generation = w.generation)
    (hf : w.generation < g → ¬ w.Overdue transport → ¬ (f w).Overdue transport) :
    Spent transport g (s.modifyWorker w.id f) := by
  refine spent_modifyWorker hspent fun v hv hid => ?_
  rw [hs.eq_of_id hv hw hid]
  exact ⟨hgeneration, fun hlt => hf hlt (hspent.workers w hw hlt)⟩

include hs hg hspent

theorem spent_advance (hw : w ∈ s.workers) {plan : Plan (Option WidgetId)}
    (hphase : w.phase = .ready plan) : Spent transport g (s.advance transport w plan) := by
  cases plan with
  | fail e =>
    refine spent_phase transport hs hspent hw rfl fun _ hover => ?_
    refine not_overdue_farewell (w := w) rfl fun e' he => ?_
    cases he
    simpa [Worker.Overdue, hphase] using hover
  | done result =>
    rw [advance]
    split
    · exact spent_phase transport hs hspent hw rfl fun _ _ => not_overdue_farewell (w := w) rfl fun _ he => by cases he
    · next i rest hsteps =>
      refine spent_phase transport hs hspent hw rfl fun hlt _ => ?_
      rw [hs.steps_of_lt hg hw hlt] at hsteps
      cases hsteps
  | fetch call k =>
    rw [advance]
    split
    · next e he =>
      refine spent_phase transport hs hspent hw rfl fun _ hover => ?_
      refine not_overdue_farewell (w := w) rfl fun e' he' => ?_
      cases he'
      simpa [Worker.Overdue, hphase, he, isCancellation_network] using hover
    · next request hrequest =>
      have hsent := spent_network hspent (transport.send request s.network)
      refine spent_modifyWorker hsent fun v hv hid => ?_
      rw [hs.eq_of_id hv hw hid]
      refine ⟨rfl, fun hlt => ?_⟩
      have hover := hspent.workers w hw hlt
      simpa [Worker.Overdue, hphase, hrequest] using hover
  | ask q k =>
    have hposted : Spent transport g (s.post w .answer) := by
      refine spent_post hspent fun _ hover => ?_
      obtain ⟨_, hnotice, -⟩ := hover
      cases hnotice
    exact spent_modifyWorker hposted fun v _ _ => ⟨rfl, fun _ hover => hover⟩

theorem spent_receive (hw : w ∈ s.workers) {request : Network.Request}
    {k : Network.Response → Plan (Option WidgetId)} (hphase : w.phase = .fetching request k) :
    Spent transport g (s.receive transport w request k).1 := by
  have hnetwork := spent_network hspent (transport.reply request s.network).2
  obtain h | ⟨reply, hreply, h⟩ := receive_outcomes transport s w request k <;> rw [h]
  · exact hnetwork
  · refine spent_modifyWorker hnetwork fun v hv hid => ?_
    rw [hs.eq_of_id hv hw hid]
    refine ⟨rfl, fun hlt => ?_⟩
    have hover : ¬ transport.CanFail request := by
      have := hspent.workers w hw hlt
      rwa [Worker.Overdue, hphase] at this
    cases reply with
    | error e =>
      by_contra hfail
      refine hover ⟨s.network, e, hreply, fun he => hfail ?_⟩
      rw [he]
      rfl
    | ok response =>
      have hstale : s.generation ≠ w.generation := Nat.ne_of_gt (Nat.lt_of_lt_of_le hlt hg)
      simp [received, hstale, Worker.Overdue, Plan.resume, Error.isCancellation]

omit hg in
theorem spent_leave (hw : w ∈ s.workers) {notices : List Notice}
    (hphase : w.phase = .leaving notices) : Spent transport g (s.leave w notices) := by
  cases notices with
  | nil => exact ⟨fun v hv => hspent.workers v (List.mem_of_mem_filter hv), hspent.inbox⟩
  | cons notice rest =>
    have hover : w.generation < g → ∀ e, .report e ∈ notice :: rest → e.isCancellation := by
      intro hlt e he
      have := hspent.workers w hw hlt
      rw [Worker.Overdue, hphase] at this
      by_contra hfail
      exact this ⟨e, he, hfail⟩
    have hposted : Spent transport g (s.post w (.notice notice)) := by
      refine spent_post hspent fun hlt => ?_
      rintro ⟨e, he, hfail⟩
      cases he
      exact hfail (hover hlt e List.mem_cons_self)
    refine spent_modifyWorker hposted fun v hv hid => ⟨rfl, fun hlt => ?_⟩
    rw [hs.eq_of_id hv hw hid] at hlt
    rintro ⟨e, he, hfail⟩
    exact hfail (hover hlt e (List.mem_cons_of_mem _ he))

theorem spent_takeTurn (id : Nat) : Spent transport g (s.takeTurn transport id).1 := by
  obtain h | ⟨w, hw, -, ⟨plan, hphase, h⟩ | ⟨request, k, hphase, h⟩ | ⟨notices, hphase, h⟩⟩ :=
    takeTurn_outcomes transport s id <;> rw [h]
  · exact hspent
  · exact spent_advance transport hs hg hspent hw hphase
  · exact spent_receive transport hs hg hspent hw hphase
  · exact spent_leave transport hs hspent hw hphase

theorem spent_answerWorker {id started : Nat} (hid : id < s.nextWorker)
    (hstarted : ∀ w ∈ s.workers, w.id = id → w.generation = started) :
    Spent transport g (s.answerWorker transport id started) := by
  by_cases hstale : s.generation = started
  · obtain ⟨-, heq⟩ | ⟨w, q, k, -, -, heq⟩ := answerWorker_outcomes transport s id started <;> rw [heq]
    · exact hspent
    · have hacts : Acts s (answerCurrent transport started q s).2 :=
        moves_answerCurrent transport started q s
      have hfollows := (hacts.1 hs).2
      refine spent_modifyWorker (hacts.2.spent hg hspent) fun v hv hvid => ⟨rfl, fun hlt => ?_⟩
      -- a list of the page that is shown is not one of an earlier page
      rcases hfollows.origin v hv with ⟨w, hw, hwid, hwg⟩ | hfresh
      · have hv : v.generation = s.generation := by
          rw [← hwg, hstarted w hw (hwid.trans hvid), hstale]
        exact absurd (hv ▸ hlt) (Nat.not_lt_of_le hg)
      · exact absurd hid (Nat.not_lt_of_le (hvid ▸ hfresh))
  · rw [answerWorker_of_stale transport hs hstale]
    refine spent_modifyWorker hspent fun w hw _ => ?_
    have hover := hspent.workers w hw
    unfold Worker.cancelled
    split
    · exact ⟨rfl, fun _ h => h rfl⟩
    · exact ⟨rfl, hover⟩

theorem spent_handleNext : Spent transport g (s.handleNext transport) := by
  obtain ⟨-, heq⟩ | ⟨m, inbox, hinbox, hcases⟩ := handleNext_outcomes transport s
  · rw [heq]
    exact hspent
  · have hm : m ∈ s.inbox := hinbox ▸ List.mem_cons_self
    have hdrop := spent_drop hspent hinbox
    obtain ⟨-, heq⟩ | ⟨roots, -, heq⟩ | ⟨e, -, heq⟩ := hcases <;> rw [heq]
    · have hrest := ((leads_dropMessage hinbox) hs).1
      exact spent_answerWorker transport hrest hg hdrop (hs.sender_lt m hm) (hs.sender m hm)
    · exact (keeps_releaseFragments _).quiet.spent hg hdrop
    · exact (acts_report _).2.spent hg hdrop

theorem spent_after (turn : Turn σ) : Spent transport g (s.after transport turn) := by
  cases turn with
  | message => exact spent_handleNext transport hs hg hspent
  | worker id => exact spent_takeTurn transport hs hg hspent id
  | _ => exact (acts_after transport (by simp) (by simp)).2.spent hg hspent

/-- Where no list of an earlier page can come to an error, none ever will. -/
theorem spent_afterAll (turns : List (Turn σ)) :
    Spent transport g (s.afterAll transport turns) := by
  induction turns generalizing s with
  | nil => exact hspent
  | cons turn turns ih =>
    obtain ⟨hnext, hfollows⟩ := leads_after transport turn hs
    exact ih hnext (Nat.le_trans hg hfollows.generation_le) (spent_after transport hs hg hspent turn)

end turns

section undisturbed

variable (hs : s.Consistent)

/-- An action list alone leaves the other lists as they are. -/
theorem mem_takeTurn {id : Nat} (hv : v ∈ s.workers) (hid : v.id ≠ id) :
    v ∈ (s.takeTurn transport id).1.workers := by
  have hmodified {s : Session σ} {w : Worker} (hv : v ∈ s.workers) (hne : v.id ≠ w.id)
      (f : Worker → Worker) : v ∈ (s.modifyWorker w.id f).workers :=
    List.mem_map.mpr ⟨v, hv, if_neg hne⟩
  obtain h | ⟨w, -, rfl, ⟨plan, -, h⟩ | ⟨request, k, -, h⟩ | ⟨notices, -, h⟩⟩ :=
    takeTurn_outcomes transport s id <;> rw [h]
  · exact hv
  · cases plan with
    | fail e => exact hmodified hv hid _
    | done result =>
      rw [advance]
      split <;> exact hmodified hv hid _
    | fetch call k =>
      rw [advance]
      split
      · exact hmodified hv hid _
      · exact hmodified (s := { s with network := _ }) hv hid _
    | ask q k => exact hmodified (s := s.post w .answer) hv hid _
  · obtain h | ⟨reply, -, h⟩ := receive_outcomes transport s w request k <;> rw [h]
    · exact hv
    · exact hmodified (s := { s with network := _ }) hv hid _
  · cases notices with
    | nil => exact List.mem_filter.mpr ⟨hv, by simpa using hid⟩
    | cons notice rest => exact hmodified (s := s.post w (.notice notice)) hv hid _

include hs

theorem undisturbed_takeTurn (hw : w ∈ s.workers) (hstale : w.generation < s.generation) :
    s.Undisturbed (s.takeTurn transport w.id).1 := by
  have hmem : ∀ v ∈ s.workers, v.generation = s.generation →
      v ∈ (s.takeTurn transport w.id).1.workers := by
    intro v hv hcurrent
    refine mem_takeTurn transport hv fun hid => ?_
    rw [hs.eq_of_id hv hw hid] at hcurrent
    exact Nat.ne_of_lt hstale hcurrent
  obtain ⟨network, workers, inbox, h⟩ := takeTurn_frame transport (s := s) w.id
  rw [h] at hmem ⊢
  exact ⟨rfl, rfl, rfl, rfl, hmem⟩

theorem undisturbed_handleNext {inbox : List Message} (h : s.inbox = m :: inbox)
    (hstale : m.started < s.generation) (hm : ¬ m.Complains) :
    s.Undisturbed (s.handleNext transport) := by
  have hmem : m ∈ s.inbox := h ▸ List.mem_cons_self
  by_cases hreport : ∃ e, m.task = .notice (.report e)
  · obtain ⟨e, he⟩ := hreport
    have hcancel : e.isCancellation = true := by
      by_contra hfail
      exact hm ⟨e, he, hfail⟩
    have hnext : s.handleNext transport = { s with inbox } := by
      simp [handleNext, h, handle, he, report, hcancel]
    rw [hnext]
    exact ⟨rfl, rfl, rfl, rfl, fun _ hw _ => hw⟩
  · rw [handleNext_of_stale transport hs h (Nat.ne_of_lt hstale) fun e he => hreport ⟨e, he⟩]
    refine ⟨rfl, rfl, rfl, rfl, fun w hw hcurrent => List.mem_map.mpr ⟨w, hw, ?_⟩⟩
    have hother : w.id ≠ m.sender := fun hid =>
      Nat.ne_of_lt hstale ((hs.sender m hmem w hw hid).symm.trans hcurrent)
    unfold Message.cancel
    split
    · exact if_neg hother
    · rfl

end undisturbed

section disturbed

theorem inbox_answerWorker (id started : Nat) :
    (s.answerWorker transport id started).inbox = s.inbox := by
  obtain ⟨-, heq⟩ | ⟨w, q, k, -, -, heq⟩ := answerWorker_outcomes transport s id started <;> rw [heq]
  exact (moves_answerCurrent transport started q s).2.inbox

theorem inbox_handleNext {inbox : List Message} (h : s.inbox = m :: inbox) :
    (s.handleNext transport).inbox = inbox := by
  obtain ⟨hnone, -⟩ | ⟨n, rest, hinbox, hcases⟩ := handleNext_outcomes transport s
  · cases hnone.symm.trans h
  · cases hinbox.symm.trans h
    obtain ⟨-, heq⟩ | ⟨roots, -, heq⟩ | ⟨e, -, heq⟩ := hcases <;> rw [heq]
    · exact inbox_answerWorker transport _ _
    · exact (keeps_releaseFragments _).inbox
    · exact (acts_report _).2.inbox

/-- Every message that is under way comes to be the next. -/
theorem reaches_message (hm : m ∈ s.inbox) :
    ∃ t, Reaches transport s t ∧ ∃ inbox, t.inbox = m :: inbox := by
  obtain ⟨before, after, h⟩ := List.append_of_mem hm
  induction before generalizing s with
  | nil => exact ⟨s, .refl transport s, after, h⟩
  | cons n before ih =>
    have hnext := inbox_handleNext transport (s := s) h
    obtain ⟨t, ht, hinbox⟩ := ih (s := s.handleNext transport) (hnext ▸ by simp) hnext
    exact ⟨t, (reaches_after transport .message).trans ht, hinbox⟩

/-- A complaint of a list started after page change `g` is under way. -/
def Complaint (g : Nat) (s : Session σ) : Prop :=
  ∃ m ∈ s.inbox, m.started = g ∧ m.Complains

theorem mem_modifyWorker (hw : w ∈ s.workers) (f : Worker → Worker) :
    f w ∈ (s.modifyWorker w.id f).workers :=
  List.mem_map.mpr ⟨w, hw, if_pos rfl⟩

theorem takeTurn_of_mem (hs : s.Consistent) (hw : w ∈ s.workers) :
    (s.takeTurn transport w.id).1 = match w.phase with
      | .ready plan => s.advance transport w plan
      | .fetching request k => (s.receive transport w request k).1
      | .asking _ _ => s
      | .leaving notices => s.leave w notices := by
  unfold takeTurn
  rw [hs.find?_worker hw]
  dsimp only
  cases w.phase <;> rfl

theorem complains_of_leaving (hs : s.Consistent) (hw : w ∈ s.workers) {notices : List Notice}
    (hphase : w.phase = .leaving notices) {e : Error} (he : .report e ∈ notices)
    (hfail : ¬ e.isCancellation) : ∃ t, Reaches transport s t ∧ Complaint w.generation t := by
  induction notices generalizing s w with
  | nil => cases he
  | cons notice rest ih =>
    have hturn : (s.takeTurn transport w.id).1 =
        (s.post w (.notice notice)).modifyWorker w.id fun w => { w with phase := .leaving rest } := by
      rw [takeTurn_of_mem transport hs hw, hphase]
      rfl
    have hreach := reaches_after transport (s := s) (.worker w.id)
    rcases List.mem_cons.mp he with rfl | he
    · refine ⟨_, hreach, ⟨w.id, w.generation, .notice (.report e)⟩, ?_, rfl, e, rfl, hfail⟩
      rw [after, hturn]
      exact List.mem_append_right _ (List.mem_singleton.mpr rfl)
    · have hleft : { w with phase := .leaving rest } ∈ (s.takeTurn transport w.id).1.workers := by
        rw [hturn]
        exact mem_modifyWorker (s := s.post w (.notice notice)) hw _
      obtain ⟨t, ht, hcomplaint⟩ := ih (leads_takeTurn transport w.id hs).1 hleft rfl he
      exact ⟨t, hreach.trans ht, hcomplaint⟩

theorem complains_of_failing (hs : s.Consistent) (hw : w ∈ s.workers) {e : Error}
    (hfail : ¬ e.isCancellation) (hturn : (s.takeTurn transport w.id).1 = s.finish w (some e)) :
    ∃ t, Reaches transport s t ∧ Complaint w.generation t := by
  have hleft : { w with steps := [], loaded := [], phase := .leaving (w.farewell (some e)) } ∈
      (s.takeTurn transport w.id).1.workers := by
    rw [hturn]
    exact mem_modifyWorker hw _
  have hreport : .report e ∈ w.farewell (some e) := by simp [Worker.farewell]
  obtain ⟨t, ht, hcomplaint⟩ := complains_of_leaving transport (leads_takeTurn transport w.id hs).1
    hleft rfl hreport hfail
  exact ⟨t, (reaches_after transport (.worker w.id)).trans ht, hcomplaint⟩

theorem complains_of_fail (hs : s.Consistent) (hw : w ∈ s.workers) {e : Error}
    (hphase : w.phase = .ready (.fail e)) (hfail : ¬ e.isCancellation) :
    ∃ t, Reaches transport s t ∧ Complaint w.generation t := by
  refine complains_of_failing transport hs hw hfail ?_
  rw [takeTurn_of_mem transport hs hw, hphase]
  rfl

theorem complains_of_fetching (hs : s.Consistent) (hw : w ∈ s.workers) {request : Network.Request}
    {k : Network.Response → Plan (Option WidgetId)} (hphase : w.phase = .fetching request k)
    (hfail : transport.CanFail request) :
    ∃ t, Reaches transport s t ∧ Complaint w.generation t := by
  obtain ⟨network, e, hreply, he⟩ := hfail
  have hnetwork : (s.after transport (.network network)).Consistent :=
    (leads_after transport (.network network) hs).1
  let failed : Worker := { w with phase := .ready (.fail (.network e)) }
  have hfailed : failed ∈
      ((s.after transport (.network network)).takeTurn transport w.id).1.workers := by
    rw [takeTurn_of_mem transport hnetwork hw, hphase]
    dsimp only [after, receive]
    rw [hreply]
    exact mem_modifyWorker (s := { s with network := _ }) hw _
  obtain ⟨t, ht, hcomplaint⟩ := complains_of_fail transport
    (leads_takeTurn transport w.id hnetwork).1 hfailed rfl (isCancellation_network.not.mpr he)
  have hreach := (reaches_after transport (s := s) (.network network)).trans
    (reaches_after transport (.worker w.id))
  exact ⟨t, hreach.trans ht, hcomplaint⟩

/-- A list that is overdue may come to send its error. -/
theorem complains_of_overdue (hs : s.Consistent) (hw : w ∈ s.workers) (hover : w.Overdue transport) :
    ∃ t, Reaches transport s t ∧ Complaint w.generation t := by
  cases hphase : w.phase with
  | asking q k =>
    rw [Worker.Overdue, hphase] at hover
    cases hover
  | fetching request k =>
    rw [Worker.Overdue, hphase] at hover
    exact complains_of_fetching transport hs hw hphase hover
  | leaving notices =>
    rw [Worker.Overdue, hphase] at hover
    obtain ⟨e, he, hfail⟩ := hover
    exact complains_of_leaving transport hs hw hphase he hfail
  | ready plan =>
    rw [Worker.Overdue, hphase] at hover
    have hturn : (s.takeTurn transport w.id).1 = s.advance transport w plan := by
      rw [takeTurn_of_mem transport hs hw, hphase]
    cases plan with
    | done result => cases hover
    | ask q k => cases hover
    | fail e => exact complains_of_fail transport hs hw hphase hover
    | fetch call k =>
      rw [advance] at hturn
      dsimp only at hover
      cases hrequest : requestOf w.base call with
      | error e =>
        rw [hrequest] at hover hturn
        exact complains_of_failing transport hs hw (isCancellation_network.not.mpr hover) hturn
      | ok request =>
        rw [hrequest] at hover hturn
        have hsent : { w with phase := .fetching request k } ∈
            (s.takeTurn transport w.id).1.workers := by
          rw [hturn]
          exact mem_modifyWorker (s := { s with network := _ }) hw _
        obtain ⟨t, ht, hcomplaint⟩ := complains_of_fetching transport
          (leads_takeTurn transport w.id hs).1 hsent rfl hover
        exact ⟨t, (reaches_after transport (.worker w.id)).trans ht, hcomplaint⟩

/-- A complaint adds an entry to the errors of the session that takes it. -/
theorem disturbed_of_complains {inbox : List Message} (h : s.inbox = m :: inbox)
    (hm : m.Complains) : ¬ s.Undisturbed (s.handleNext transport) := by
  obtain ⟨e, he, hfail⟩ := hm
  intro hundisturbed
  have herrors : (s.handleNext transport).errors = s.errors ++ [e] := by
    rw [handleNext, h]
    dsimp only
    rw [handle, he]
    dsimp only
    rw [report, if_neg hfail]
    dsimp only
    split <;> rfl
  have := hundisturbed.errors
  rw [herrors] at this
  simp at this

end disturbed

/-- At all times of a session, however its turns and those of its action lists are mixed: by themselves
the lists of earlier pages do not disturb the page that is shown, and their messages never will exactly
if none of these lists has reported an error, has met one, or waits for a request that can fail. -/
theorem late_lists_harmless_iff (config : Config) (network : σ) (first : Session σ)
    (hstart : start config network = .ok first) (turns : List (Turn σ)) :
    let s := first.afterAll transport turns
    (∀ more, let t := s.afterAll transport more
      ∀ w ∈ t.workers, w.generation < s.generation →
        t.Undisturbed (t.after transport (.worker w.id))) ∧
    ((∀ more m inbox, let t := s.afterAll transport more
      t.inbox = m :: inbox → m.started < s.generation →
        t.Undisturbed (t.after transport .message)) ↔
      Spent transport s.generation s) := by
  intro s
  have hs : s.Consistent := (leads_afterAll transport turns (consistent_start hstart)).1
  refine ⟨?_, ?_, ?_⟩
  · intro more t w hw hstale
    obtain ⟨ht, hfollows⟩ := leads_afterAll transport more hs
    exact undisturbed_takeTurn transport ht hw (Nat.lt_of_lt_of_le hstale hfollows.generation_le)
  · intro hharmless
    refine ⟨fun w hw hstale hover => ?_, fun m hm hstale hcomplains => ?_⟩
    · obtain ⟨t, ⟨more, rfl⟩, m, hm, hstarted, hcomplains⟩ :=
        complains_of_overdue transport hs hw hover
      obtain ⟨u, ⟨others, rfl⟩, inbox, hinbox⟩ := reaches_message transport hm
      refine disturbed_of_complains transport hinbox hcomplains ?_
      have hboth : (s.afterAll transport more).afterAll transport others =
          s.afterAll transport (more ++ others) := List.foldl_append.symm
      rw [hboth] at hinbox ⊢
      exact hharmless _ m inbox hinbox (hstarted ▸ hstale)
    · obtain ⟨t, ⟨more, rfl⟩, inbox, hinbox⟩ := reaches_message transport hm
      exact disturbed_of_complains transport hinbox hcomplains (hharmless more m inbox hinbox hstale)
  · intro hspent more m inbox t hinbox hstale
    obtain ⟨ht, hfollows⟩ := leads_afterAll transport more hs
    have hlater : Spent transport s.generation t :=
      spent_afterAll transport hs (Nat.le_refl _) hspent more
    have hm : m ∈ t.inbox := hinbox ▸ List.mem_cons_self
    exact undisturbed_handleNext transport ht hinbox
      (Nat.lt_of_lt_of_le hstale hfollows.generation_le) (hlater.inbox m hm hstale)

section examples

theorem exists_start {p : Session Unit → Prop} (h : ∃ s ∈ (start {} ()).toOption, p s) :
    ∃ first, start {} () = .ok first ∧ p first := by
  obtain ⟨first, hfirst, hp⟩ := h
  cases hstart : start {} () with
  | error e =>
    rw [hstart] at hfirst
    cases hfirst
  | ok s =>
    rw [hstart] at hfirst
    cases hfirst
    exact ⟨first, rfl, hp⟩

/-- A server with empty pages; `fault` says which requests fail. -/
def server (fault : Url → Bool) : Transport Unit where
  send _ s := s
  reply r s :=
    if fault r.url then (some (.error (.transport "connection reset")), s)
    else (some (.ok { url := r.url.text, status := 200, body := "<celx><page/></celx>" }), s)

/-- The server loses the connection when it is asked for something slow. -/
def resetting : Transport Unit :=
  server fun url => url.path.render == "/slow".toList

/-- A list of the first page has sent its request when the second page is shown. -/
def overtaken : List (Turn Unit) :=
  [.route "/p" false, .start [{ verb := .get, argument := "/slow" }] ⟨0⟩, .worker 0, .worker 0,
    .message, .worker 0, .route "/q" false]

/-- With a server that never fails the list of the first page cannot disturb the second. -/
theorem overtaken_harmless : ∃ first, start {} () = .ok first ∧
    let steady := server fun _ => false
    let s := first.afterAll steady overtaken
    s.generation = 2 ∧ s.workers.map (·.generation) = [1] ∧
      (∀ more, let t := s.afterAll steady more
        ∀ w ∈ t.workers, w.generation < 2 → t.Undisturbed (t.after steady (.worker w.id))) ∧
      ∀ more m inbox, let t := s.afterAll steady more
        t.inbox = m :: inbox → m.started < 2 → t.Undisturbed (t.after steady .message) := by
  obtain ⟨first, hstart, hgeneration, hworkers, hfetching, hinbox⟩ := exists_start (p := fun first =>
    let s := first.afterAll (server fun _ => false) overtaken
    s.generation = 2 ∧ s.workers.map (·.generation) = [1] ∧
      (∀ w ∈ s.workers, (w.phase matches .fetching _ _) = true) ∧ s.inbox.isEmpty) (by decide +kernel)
  have hspent : Spent (server fun _ => false) 2
      (first.afterAll (server fun _ => false) overtaken) := by
    refine ⟨fun w hw _ hover => ?_, ?_⟩
    · have hwaits := hfetching w hw
      cases hphase : w.phase with
      | fetching request k =>
        rw [Worker.Overdue, hphase] at hover
        obtain ⟨_, e, hreply, -⟩ := hover
        cases hreply
      | _ =>
        rw [hphase] at hwaits
        cases hwaits
    · rw [List.isEmpty_iff.mp hinbox]
      exact List.forall_mem_nil _
  obtain ⟨hturns, hmessages⟩ :=
    late_lists_harmless_iff (server fun _ => false) {} () first hstart overtaken
  rw [hgeneration] at hturns hmessages
  exact ⟨first, hstart, hgeneration, hworkers, hturns, hmessages.mpr hspent⟩

/-- The request of the first page fails after the page change, and the second page is halted. -/
theorem late_error_halts : ∃ first, start {} () = .ok first ∧
    let s := first.afterAll resetting overtaken
    let t := s.afterAll resetting [.worker 0, .worker 0, .worker 0]
    s.generation = 2 ∧ s.workers.map (·.generation) = [1] ∧
      t.inbox.map (·.started) = [1] ∧ t.errors = [] ∧ t.halted = false ∧
      (t.after resetting .message).errors = [.network (.transport "connection reset")] ∧
      (t.after resetting .message).halted = true ∧ (t.after resetting .message).generation = 3 := by
  exact exists_start (by decide +kernel)

end examples

end Hypermedia.Session
