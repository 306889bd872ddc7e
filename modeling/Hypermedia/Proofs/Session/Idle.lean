import Hypermedia.Proofs.Session.Late
import Hypermedia.Session.Loop

/-! Idle means done: when the loop ends, whatever steps action lists took in between, every list has
ended, and all that was sent has been handled. -/
namespace Hypermedia.Session

open Hypermedia.Action (Plan)

variable {σ : Type} {s t : Session σ} {w v : Worker} {m : Message} {l : Loop σ}
  (transport : Transport σ)

section turns

/-- A list that takes a turn adds to what is under way, if anything. -/
theorem inbox_advance (w : Worker) (plan : Plan (Option WidgetId)) :
    ∃ sent, (s.advance transport w plan).inbox = s.inbox ++ sent := by
  have hnone : ∃ sent, s.inbox = s.inbox ++ sent := ⟨[], by simp⟩
  cases plan with
  | fail e => exact hnone
  | done result =>
    rw [advance]
    split <;> exact hnone
  | fetch call k =>
    rw [advance]
    split <;> exact hnone
  | ask q k => exact ⟨_, rfl⟩

theorem inbox_takeTurn (id : Nat) :
    ∃ sent, (s.takeTurn transport id).1.inbox = s.inbox ++ sent := by
  have hnone : ∃ sent, s.inbox = s.inbox ++ sent := ⟨[], by simp⟩
  obtain h | ⟨w, -, -, ⟨plan, -, h⟩ | ⟨request, k, -, h⟩ | ⟨notices, -, h⟩⟩ :=
    takeTurn_outcomes transport s id <;> rw [h]
  · exact hnone
  · exact inbox_advance transport w plan
  · obtain h | ⟨reply, -, h⟩ := receive_outcomes transport s w request k <;> rw [h] <;> exact hnone
  · cases notices with
    | nil => exact hnone
    | cons notice rest => exact ⟨_, rfl⟩

theorem takeTurn_of_idle (h : s.workers = []) (id : Nat) : (s.takeTurn transport id).1 = s := by
  simp [takeTurn, h]

theorem fireTimers_of_nil (h : s.timers = []) : s.fireTimers = s := by
  have heta : { s with timers := [] } = s := by rw [← h]
  unfold fireTimers
  rw [h]
  split <;> exact heta

/-- What a message asks for is done with it. -/
theorem inbox_of_handleNext (hne : s.inbox.isEmpty = false) :
    s.inbox.take 1 ++ (s.handleNext transport).inbox = s.inbox := by
  cases h : s.inbox with
  | nil =>
    rw [h] at hne
    cases hne
  | cons m inbox =>
    rw [inbox_handleNext transport h]
    rfl

end turns

section owed

/-- A message is under way, or a list that has ended is about to send it. -/
def Owes (s : Session σ) (m : Message) : Prop :=
  m ∈ s.inbox ∨ ∃ w ∈ s.workers, ∃ notices, w.phase = .leaving notices ∧
    ∃ notice ∈ notices, m = ⟨w.id, w.generation, .notice notice⟩

/-- What the session does by itself leaves alone what lists are about to send. -/
theorem Quiet.owes (h : s.Quiet t) (ho : s.Owes m) : t.Owes m := by
  rcases ho with hm | ⟨w, hw, notices, hphase, hnotice⟩
  · exact .inl (h.inbox ▸ hm)
  · obtain ⟨v, hv, hvw⟩ := h.kept w hw
    rw [hvw] at hv
    exact .inr ⟨_, hv, notices, hphase, hnotice⟩

/-- Lists other than one that is still at work stay as they are. -/
theorem owes_modifyWorker {f : Worker → Worker} (hs : s.Consistent) (hw : w ∈ s.workers)
    (hphase : ∀ notices, w.phase ≠ .leaving notices) (ho : s.Owes m) :
    (s.modifyWorker w.id f).Owes m := by
  rcases ho with hm | ⟨v, hv, notices, hleaving, hnotice⟩
  · exact .inl hm
  · have hne : v.id ≠ w.id := by
      intro hid
      rw [hs.eq_of_id hv hw hid] at hleaving
      exact hphase notices hleaving
    exact .inr ⟨v, List.mem_map.mpr ⟨v, hv, if_neg hne⟩, notices, hleaving, hnotice⟩

theorem owes_post (w : Worker) (task : Task) (ho : s.Owes m) : (s.post w task).Owes m :=
  ho.imp_left fun hm => List.mem_append_left _ hm

theorem owes_advance (hs : s.Consistent) (hw : w ∈ s.workers) {plan : Plan (Option WidgetId)}
    (hphase : w.phase = .ready plan) (ho : s.Owes m) : (s.advance transport w plan).Owes m := by
  have hnot : ∀ notices, w.phase ≠ .leaving notices := by
    rw [hphase]
    nofun
  cases plan with
  | fail e => exact owes_modifyWorker hs hw hnot ho
  | done result =>
    rw [advance]
    split <;> exact owes_modifyWorker hs hw hnot ho
  | fetch call k =>
    rw [advance]
    split
    · exact owes_modifyWorker hs hw hnot ho
    · exact owes_modifyWorker (s := { s with network := _ }) ((keeps_network _).leads hs).1 hw hnot ho
  | ask q k =>
    have hpost := (leads_post hw .answer (List.nil_subset _) hs).1
    exact owes_modifyWorker hpost hw hnot (owes_post w .answer ho)

theorem owes_leave (hs : s.Consistent) (hw : w ∈ s.workers) {notices : List Notice}
    (hphase : w.phase = .leaving notices) (ho : s.Owes m) : (s.leave w notices).Owes m := by
  rcases ho with hm | ⟨v, hv, others, hleaving, notice, hnotice, rfl⟩
  · cases notices with
    | nil => exact .inl hm
    | cons => exact .inl (List.mem_append_left _ hm)
  by_cases hid : v.id = w.id
  · -- the list whose turn it is: what it sends is the first of its notices
    obtain rfl := hs.eq_of_id hv hw hid
    obtain rfl : notices = others := by simpa [hphase] using hleaving
    cases notices with
    | nil => cases hnotice
    | cons first rest =>
      rcases List.mem_cons.mp hnotice with rfl | hrest
      · exact .inl (List.mem_append_right _ (List.mem_singleton.mpr rfl))
      · refine .inr ⟨{ v with phase := .leaving rest }, ?_, rest, rfl, notice, hrest, rfl⟩
        exact mem_modifyWorker (s := s.post v (.notice first)) hv _
  · refine .inr ⟨v, ?_, others, hleaving, notice, hnotice, rfl⟩
    cases notices with
    | nil => exact List.mem_filter.mpr ⟨hv, by simpa using hid⟩
    | cons first rest => exact List.mem_map.mpr ⟨v, hv, if_neg hid⟩

theorem owes_takeTurn (hs : s.Consistent) (ho : s.Owes m) (id : Nat) :
    (s.takeTurn transport id).1.Owes m := by
  obtain h | ⟨w, hw, -, ⟨plan, hphase, h⟩ | ⟨request, k, hphase, h⟩ | ⟨notices, hphase, h⟩⟩ :=
    takeTurn_outcomes transport s id <;> rw [h]
  · exact ho
  · exact owes_advance transport hs hw hphase ho
  · have hnot : ∀ notices, w.phase ≠ .leaving notices := by
      rw [hphase]
      nofun
    obtain h | ⟨reply, -, h⟩ := receive_outcomes transport s w request k <;> rw [h]
    · exact ho
    · exact owes_modifyWorker (s := { s with network := _ }) ((keeps_network _).leads hs).1 hw hnot ho
  · exact owes_leave hs hw hphase ho

theorem owes_answerWorker (hs : s.Consistent) {id started : Nat} (ho : s.Owes m) :
    (s.answerWorker transport id started).Owes m := by
  obtain ⟨-, heq⟩ | ⟨w, q, k, hfind, hphase, heq⟩ := answerWorker_outcomes transport s id started <;> rw [heq]
  · exact ho
  · obtain ⟨hw, rfl⟩ := worker_of_find? hfind
    obtain ⟨hleads, hquiet⟩ := moves_answerCurrent transport started q s
    obtain ⟨v, hv, hvw⟩ := hquiet.kept w hw
    have hid : w.id = v.id := by rw [hvw]
    rw [hid]
    refine owes_modifyWorker (hleads hs).1 hv ?_ (hquiet.owes ho)
    rw [hvw, hphase]
    nofun

/-- A message is under way or to be sent until it is handled. -/
theorem owes_handleNext (hs : s.Consistent) (ho : s.Owes m) :
    m ∈ s.inbox.take 1 ∨ (s.handleNext transport).Owes m := by
  obtain ⟨-, heq⟩ | ⟨first, inbox, h, hcases⟩ := handleNext_outcomes transport s
  · rw [heq]
    exact .inr ho
  · by_cases hfirst : m = first
    · exact .inl (by simp [h, hfirst])
    have hrest : { s with inbox }.Owes m := by
      rcases ho with hm | hw
      · rw [h] at hm
        exact .inl (List.mem_of_ne_of_mem hfirst hm)
      · exact .inr hw
    refine .inr ?_
    obtain ⟨-, heq⟩ | ⟨roots, -, heq⟩ | ⟨e, -, heq⟩ := hcases <;> rw [heq]
    · exact owes_answerWorker transport (leads_dropMessage h hs).1 hrest
    · exact (keeps_releaseFragments _).quiet.owes hrest
    · exact (acts_report _).2.owes hrest

end owed

section seen

/-- What the loop has seen to be done where it stands: each look at lists, timers and messages still
holds when the next one is taken. -/
def Stand.Seen : Stand → Session σ → Prop
  | .looking, s => s.workers = []
  | .draining true 0, s => s.workers = [] ∧ s.timers = []
  | .firing true 0, s => s.workers = [] ∧ s.timers = [] ∧ s.inbox = []
  | .idle, s => s.workers = [] ∧ s.timers = [] ∧ s.inbox = []
  | .draining _ _, _ | .firing _ _, _ | .counting, _ | .waiting, _ => True

theorem Stand.seen_draining (again : Bool) (handled : Nat) :
    (Stand.draining again (handled + 1)).Seen s := by
  cases again <;> trivial

/-- What is done stays done while only lists that are there take steps. -/
theorem Stand.Seen.mono {stand : Stand} (h : stand.Seen s) (hw : s.workers = [] → t.workers = [])
    (ht : t.timers = s.timers) (hm : s.workers = [] → t.inbox = s.inbox) : stand.Seen t :=
  match stand, h with
  | .looking, h => hw h
  | .draining true 0, ⟨hworkers, htimers⟩ => ⟨hw hworkers, ht.trans htimers⟩
  | .firing true 0, ⟨hworkers, htimers, hinbox⟩
  | .idle, ⟨hworkers, htimers, hinbox⟩ =>
    ⟨hw hworkers, ht.trans htimers, (hm hworkers).trans hinbox⟩
  | .draining again (handled + 1), _ => seen_draining again handled
  | .draining false 0, _ | .firing false _, _ | .firing true (_ + 1), _ | .counting, _
  | .waiting, _ => trivial

end seen

namespace Loop

section seen

/-- The loop has seen to be done what it goes on from. -/
def Seen (l : Loop σ) : Prop :=
  l.stand.Seen l.session

theorem seen_step (h : l.Seen) : (l.step transport).Seen := by
  unfold Seen at h
  unfold step
  split
  · next again handled hstand =>
    rw [hstand] at h
    split
    · next hinbox =>
      match again, handled with
      | true, 0 => exact ⟨h.1, h.2, List.isEmpty_iff.mp hinbox⟩
      | true, _ + 1 => trivial
      | false, _ => trivial
    · exact Stand.seen_draining again handled
  · next again handled hstand =>
    rw [hstand] at h
    match again, handled with
    | false, _ => trivial
    | true, n + 1 =>
      simp [Seen, Stand.Seen]
    | true, 0 =>
      obtain ⟨hworkers, htimers, hinbox⟩ := h
      have hdue : l.session.dueCount = 0 := by simp [dueCount, htimers]
      rw [fireTimers_of_nil htimers, hdue]
      exact ⟨hworkers, htimers, hinbox⟩
  · split
    · next hworkers => exact List.isEmpty_iff.mp hworkers
    · trivial
  · next hstand =>
    rw [hstand] at h
    split
    · next htimers => exact ⟨h, List.isEmpty_iff.mp htimers⟩
    · trivial
  · split
    · exact h
    · trivial
  · exact h

theorem seen_after (h : l.Seen) (move : Move σ) : (l.after transport move).Seen := by
  cases move with
  | step => exact seen_step transport h
  | giveUp =>
    dsimp only [after]
    split
    · trivial
    · exact h
  | worker id =>
    obtain ⟨network, workers, inbox, hframe⟩ := takeTurn_frame transport (s := l.session) id
    refine Stand.Seen.mono h (fun hw => ?_) ?_ fun hw => ?_
    · rw [after, takeTurn_of_idle transport hw, hw]
    · rw [after, hframe]
    · rw [after, takeTurn_of_idle transport hw]
  | wait clock => exact Stand.Seen.mono h (fun hw => hw) rfl fun _ => rfl
  | network network => exact Stand.Seen.mono h (fun hw => hw) rfl fun _ => rfl

end seen

section moves

/-- What a move does apart from where the loop stands. -/
theorem after_cases {P : Loop σ → Prop} (stays : ∀ stand, P { l with stand })
    (handles : l.session.inbox.isEmpty = false → ∀ stand, P (l.handleNext transport stand))
    (fires : ∀ stand, P { l with session := l.session.fireTimers, stand })
    (turns : ∀ id, P (l.after transport (.worker id)))
    (changes : ∀ clock network, P { l with session := { l.session with clock, network } })
    (move : Move σ) : P (l.after transport move) := by
  cases move with
  | step =>
    dsimp only [after]
    unfold step
    split
    · split
      · exact stays _
      · next hne => exact handles (by simpa using hne) _
    · exact fires _
    · exact stays _
    · exact stays _
    · split
      · exact stays l.stand
      · next hne => exact handles (by simpa using hne) _
    · exact stays l.stand
  | giveUp =>
    dsimp only [after]
    split
    · exact stays _
    · exact stays l.stand
  | worker id => exact turns id
  | wait clock => exact changes clock l.session.network
  | network network => exact changes l.session.clock network

theorem leads_after (move : Move σ) : l.session.Leads (l.after transport move).session := by
  refine after_cases transport (P := fun k => l.session.Leads k.session) (fun _ => .refl _)
    (fun _ _ => leads_handleNext transport) (fun _ => acts_fireTimers.1)
    (leads_takeTurn transport) (fun clock network => ?_) move
  have hwait : l.session.Leads { l.session with clock } := Session.leads_after transport (.wait clock)
  exact hwait.trans (Session.leads_after transport (.network network))

end moves

section log

variable {before : List Message}

/-- What was under way before and what was sent since is handled or under way, in the order in which it
was sent. -/
def Logs (before : List Message) (l : Loop σ) : Prop :=
  before ++ l.sent = l.handled ++ l.session.inbox

theorem logs_after (h : l.Logs before) (move : Move σ) : (l.after transport move).Logs before := by
  refine after_cases transport (fun _ => h) (fun hne _ => ?_) (fun _ => ?_) (fun id => ?_)
    (fun _ _ => h) move <;> unfold Logs at *
  · rw [handleNext]
    dsimp only
    rw [h, List.append_assoc, inbox_of_handleNext transport hne]
  · exact h.trans (congrArg _ acts_fireTimers.2.inbox.symm)
  · obtain ⟨sent, hsent⟩ := inbox_takeTurn transport (s := l.session) id
    dsimp only [after]
    rw [hsent, List.drop_left, ← List.append_assoc, h, List.append_assoc]

end log

section owed

/-- A message has been handled, or it is under way or will be. -/
def Accounts (m : Message) (l : Loop σ) : Prop :=
  m ∈ l.handled ∨ l.session.Owes m

theorem accounts_after (hs : l.session.Consistent) (h : l.Accounts m) (move : Move σ) :
    (l.after transport move).Accounts m := by
  refine after_cases transport (fun _ => h) (fun _ _ => ?_) (fun _ => ?_) (fun id => ?_)
    (fun _ _ => h) move
  · rcases h with hm | ho
    · exact .inl (List.mem_append_left _ hm)
    · exact (owes_handleNext transport hs ho).imp_left fun hm => List.mem_append_right _ hm
  · exact h.imp_right acts_fireTimers.2.owes
  · exact h.imp_right fun ho => owes_takeTurn transport hs ho id

end owed

section runs

theorem leads_afterAll (moves : List (Move σ)) :
    l.session.Leads (l.afterAll transport moves).session := by
  induction moves generalizing l with
  | nil => exact .refl _
  | cons move moves ih => exact (leads_after transport move).trans ih

theorem seen_afterAll (h : l.Seen) (moves : List (Move σ)) : (l.afterAll transport moves).Seen := by
  induction moves generalizing l with
  | nil => exact h
  | cons move moves ih => exact ih (seen_after transport h move)

theorem logs_afterAll {before : List Message} (h : l.Logs before) (moves : List (Move σ)) :
    (l.afterAll transport moves).Logs before := by
  induction moves generalizing l with
  | nil => exact h
  | cons move moves ih => exact ih (logs_after transport h move)

theorem accounts_afterAll (hs : l.session.Consistent) (h : l.Accounts m) (moves : List (Move σ)) :
    (l.afterAll transport moves).Accounts m := by
  induction moves generalizing l with
  | nil => exact h
  | cons move moves ih =>
    exact ih (leads_after transport move hs).1 (accounts_after transport hs h move)

end runs

end Loop

/-- However the steps of action lists, what the network does and the loop of the session are mixed, from
any session on: when the loop ends, no list is left and none is registered, no timer is set, and what was
under way at its start and everything sent since has been handled, in the order in which it was sent.
That includes all that a list which had ended at some time still had to send. -/
theorem idle_means_done (config : Config) (network : σ) (first : Session σ)
    (hstart : start config network = .ok first) (turns : List (Turn σ)) (moves : List (Move σ)) :
    let s := first.afterAll transport turns
    let begun : Loop σ := { session := s }
    let l := begun.afterAll transport moves
    l.stand = .idle →
      l.session.workers = [] ∧ l.session.running = 0 ∧ l.session.timers = [] ∧
      l.session.inbox = [] ∧ l.handled = s.inbox ++ l.sent ∧
      ∀ earlier later, moves = earlier ++ later →
        ∀ w ∈ (begun.afterAll transport earlier).session.workers, ∀ notices,
          w.phase = .leaving notices → ∀ notice ∈ notices,
            ⟨w.id, w.generation, .notice notice⟩ ∈ l.handled := by
  intro s begun l hidle
  have hs : s.Consistent := (leads_afterAll transport turns (consistent_start hstart)).1
  have hseen : l.Seen := Loop.seen_afterAll transport (l := begun) (by trivial) moves
  unfold Loop.Seen at hseen
  rw [hidle] at hseen
  obtain ⟨hworkers, htimers, hinbox⟩ := hseen
  have hlog : l.Logs s.inbox :=
    Loop.logs_afterAll transport (l := begun) (by simp [Loop.Logs, begun]) moves
  refine ⟨hworkers, by simp [running, hworkers], htimers, hinbox, ?_, ?_⟩
  · rw [Loop.Logs, hinbox, List.append_nil] at hlog
    exact hlog.symm
  · rintro earlier later rfl w hw notices hphase notice hnotice
    have hl : l = (begun.afterAll transport earlier).afterAll transport later := List.foldl_append
    have howes : (begun.afterAll transport earlier).session.Owes
        ⟨w.id, w.generation, .notice notice⟩ :=
      .inr ⟨w, hw, notices, hphase, notice, hnotice, rfl⟩
    have haccounts := Loop.accounts_afterAll transport
      (Loop.leads_afterAll transport earlier hs).1 (.inr howes) later
    rw [← hl] at haccounts
    -- nothing is under way any more, and no list is there that could send something
    rcases haccounts with hm | hm | ⟨v, hv, -⟩
    · exact hm
    · rw [hinbox] at hm
      cases hm
    · rw [hworkers] at hv
      cases hv

section examples

/-- A list asks for its values, sends a request that fails, reports that and goes; then the loop looks
twice. -/
def lastList : List (Move Unit) :=
  List.replicate 2 (.worker 0) ++ [.step] ++ List.replicate 5 (.worker 0) ++
    List.replicate 7 .step

/-- When the loop ends, the question of the list and the report of its error have been handled. -/
theorem last_list_done : ∃ first, start {} () = .ok first ∧
    let s := first.afterAll resetting
      [.route "/p" false, .start [{ verb := .get, argument := "/slow" }] ⟨0⟩]
    let begun : Loop Unit := { session := s }
    let l := begun.afterAll resetting lastList
    l.stand = .idle ∧ l.sent.length = 2 ∧
      l.session.errors = [.network (.transport "connection reset")] ∧
      (l.session.workers = [] ∧ l.session.running = 0 ∧ l.session.timers = [] ∧
        l.session.inbox = [] ∧ l.handled = s.inbox ++ l.sent ∧
        ∀ earlier later, lastList = earlier ++ later →
          ∀ w ∈ (begun.afterAll resetting earlier).session.workers, ∀ notices,
            w.phase = .leaving notices → ∀ notice ∈ notices,
              ⟨w.id, w.generation, .notice notice⟩ ∈ l.handled) := by
  obtain ⟨first, hstart, hidle, hsent, herrors⟩ := exists_start (p := fun first =>
    let s := first.afterAll resetting
      [.route "/p" false, .start [{ verb := .get, argument := "/slow" }] ⟨0⟩]
    let l := ({ session := s } : Loop Unit).afterAll resetting lastList
    l.stand = .idle ∧ l.sent.length = 2 ∧
      l.session.errors = [.network (.transport "connection reset")]) (by decide +kernel)
  exact ⟨first, hstart, hidle, hsent, herrors,
    idle_means_done resetting {} () first hstart _ lastList hidle⟩

end examples

section schedule

/-- The loop may come to stand elsewhere, with another session. -/
def Loop.Reaches (l : Loop σ) (stand : Stand) (s : Session σ) : Prop :=
  ∃ moves, (l.afterAll transport moves).stand = stand ∧ (l.afterAll transport moves).session = s

/-- The loop may come to begin a round with a session, or to end with it. -/
def Loop.Rounds (l : Loop σ) (s : Session σ) : Prop :=
  (∃ again, l.Reaches transport (.draining again 0) s) ∨ l.Reaches transport .idle s

namespace Loop

variable {stand : Stand}

theorem Reaches.next (h : l.Reaches transport stand s) (move : Move σ) :
    ∃ k : Loop σ, k.stand = stand ∧ k.session = s ∧
      l.Reaches transport (k.after transport move).stand (k.after transport move).session := by
  obtain ⟨moves, rfl, rfl⟩ := h
  refine ⟨_, rfl, rfl, moves ++ [move], ?_, ?_⟩ <;> rw [afterAll, List.foldl_append] <;> rfl

theorem Reaches.seen (h : l.Reaches transport stand s) (hl : l.Seen) : stand.Seen s := by
  obtain ⟨moves, rfl, rfl⟩ := h
  exact seen_afterAll transport hl moves

/-- All messages are handled before timers fire. -/
theorem Reaches.drain {again : Bool} {handled : Nat}
    (h : l.Reaches transport (.draining again handled) s) :
    l.Reaches transport (.firing again (handled + s.inbox.length)) (s.drain transport) := by
  generalize hinbox : s.inbox = inbox
  induction inbox generalizing s handled with
  | nil =>
    obtain ⟨k, hstand, rfl, hnext⟩ := h.next transport .step
    simpa [after, step, hstand, hinbox, Session.drain] using hnext
  | cons m inbox ih =>
    obtain ⟨k, hstand, rfl, hnext⟩ := h.next transport .step
    have hrest := inbox_handleNext transport hinbox
    have hdrain : k.session.drain transport = (k.session.handleNext transport).drain transport := by
      simp [Session.drain, hinbox, hrest]
    have hhandled : handled + (m :: inbox).length = handled + 1 + inbox.length := by
      rw [List.length_cons]
      omega
    rw [hdrain, hhandled]
    refine ih ?_ hrest
    simpa [after, step, hstand, hinbox, handleNext] using hnext

/-- A second pump may end the loop, and the first is followed by a look at lists and timers. -/
theorem Reaches.pump {again : Bool} (h : l.Reaches transport (.draining again 0) s) :
    ∃ stand, l.Reaches transport stand (s.pump transport) ∧
      (stand = .counting ∨ stand = .draining false 0 ∨ stand = .idle) := by
  obtain ⟨k, hstand, hsession, hnext⟩ := (h.drain transport).next transport .step
  simp only [after, step, hstand, hsession] at hnext
  refine ⟨_, hnext, ?_⟩
  split
  · exact .inl rfl
  · split
    · exact .inr (.inr rfl)
    · exact .inr (.inl rfl)

theorem Reaches.takeTurns (h : l.Reaches transport stand s) (ids : List Nat) :
    l.Reaches transport stand (s.takeTurns transport ids).1 := by
  induction ids generalizing s with
  | nil => exact h
  | cons id ids ih =>
    obtain ⟨k, rfl, rfl, hnext⟩ := h.next transport (.worker id)
    exact ih hnext

theorem Reaches.giveUp (h : l.Reaches transport .waiting s) :
    l.Reaches transport (.draining false 0) s := by
  obtain ⟨k, hstand, rfl, hnext⟩ := h.next transport .giveUp
  simpa [after, hstand] using hnext

theorem Reaches.counted (h : l.Reaches transport .counting s) : l.Rounds transport s := by
  obtain ⟨k, hstand, rfl, hnext⟩ := h.next transport .step
  simp only [after, step, hstand] at hnext
  split at hnext
  · obtain ⟨k', hlooking, hsession, hnext⟩ := hnext.next transport .step
    simp only [after, step, hlooking, hsession] at hnext
    split at hnext
    · exact .inl ⟨true, hnext⟩
    · exact .inl ⟨false, hnext.giveUp transport⟩
  · exact .inl ⟨false, hnext.giveUp transport⟩

theorem pump_of_done (h : Stand.idle.Seen s) : s.pump transport = s := by
  obtain ⟨-, htimers, hinbox⟩ := h
  rw [Session.pump, Session.drain, hinbox]
  exact fireTimers_of_nil htimers

theorem round_of_done (h : Stand.idle.Seen s) : (s.round transport).1 = s := by
  unfold Session.round
  dsimp only
  rw [pump_of_done transport h, h.1]
  rfl

theorem Rounds.round (h : l.Rounds transport s) (hl : l.Seen) :
    l.Rounds transport (s.round transport).1 := by
  rcases h with ⟨again, h⟩ | h
  · obtain ⟨stand, hpump, hstand⟩ := h.pump transport
    have hturns : l.Reaches transport stand (s.round transport).1 := hpump.takeTurns transport _
    rcases hstand with rfl | rfl | rfl
    · exact hturns.counted transport
    · exact .inl ⟨false, hturns⟩
    · exact .inr hturns
  · rw [round_of_done transport (h.seen transport hl)]
    exact .inr h

theorem Rounds.settle (h : l.Rounds transport s) (hl : l.Seen) (rounds : Nat) :
    l.Rounds transport (s.settle transport rounds) := by
  induction rounds generalizing s with
  | zero => exact h
  | succ rounds ih =>
    have hround := h.round transport hl
    rw [Session.settle]
    dsimp only
    split
    · exact ih hround
    · exact hround

theorem Rounds.wait (h : l.Rounds transport s) (clock : Float) :
    l.Rounds transport { s with clock } := by
  rcases h with ⟨again, h⟩ | h
  · obtain ⟨k, hstand, rfl, hnext⟩ := h.next transport (.wait clock)
    exact .inl ⟨again, hstand ▸ hnext⟩
  · obtain ⟨k, hstand, rfl, hnext⟩ := h.next transport (.wait clock)
    exact .inr (hstand ▸ hnext)

theorem Rounds.idleWithin (h : l.Rounds transport s) (hl : l.Seen) (waits : Nat) :
    l.Rounds transport (s.idleWithin transport waits) := by
  induction waits generalizing s with
  | zero => exact h
  | succ waits ih =>
    have hsettle := h.settle transport hl maxRounds
    rw [Session.idleWithin]
    split
    · next due _ => exact ih (hsettle.wait transport due)
    · exact hsettle

/-- With nothing left to do the loop comes to its end. -/
theorem Rounds.idle (h : l.Rounds transport s) (hdone : Stand.idle.Seen s) :
    l.Reaches transport .idle s := by
  obtain ⟨hworkers, htimers, hinbox⟩ := id hdone
  have hpump : ∀ again, l.Reaches transport (.draining again 0) s →
      l.Reaches transport (if again then .idle else .counting) s := by
    intro again h
    have hfiring := h.drain transport
    rw [Session.drain, hinbox] at hfiring
    obtain ⟨k, hstand, rfl, hnext⟩ := hfiring.next transport .step
    have hdue : k.session.dueCount = 0 := by simp [dueCount, htimers]
    have hfire : k.session.fireTimers = k.session := fireTimers_of_nil htimers
    cases again <;> simpa [after, step, hstand, hdue, hfire] using hnext
  rcases h with ⟨again, h⟩ | h
  · cases again with
    | true => exact hpump true h
    | false =>
      have hcount : l.Reaches transport .counting s := hpump false h
      obtain ⟨k, hcounting, hsession, hlooked⟩ := hcount.next transport .step
      simp only [after, step, hcounting, hsession, hworkers, List.isEmpty_nil, if_true] at hlooked
      obtain ⟨k', hlooking, hsession', hagain⟩ := hlooked.next transport .step
      simp only [after, step, hlooking, hsession', htimers, List.isEmpty_nil, if_true] at hagain
      exact hpump true hagain
  · exact h

end Loop

/-- Where going on until nothing is left to do leaves nothing, it is one of the ways in which the loop may
come to its end. -/
theorem reaches_idle_runUntilIdle {s : Session σ} (hw : (s.runUntilIdle transport).workers = [])
    (ht : (s.runUntilIdle transport).timers = []) (hm : (s.runUntilIdle transport).inbox = []) :
    ({ session := s } : Loop σ).Reaches transport .idle (s.runUntilIdle transport) := by
  have hstart : ({ session := s } : Loop σ).Rounds transport s := .inl ⟨false, [], rfl, rfl⟩
  have hrounds := hstart.idleWithin transport (by trivial) maxRounds
  exact hrounds.idle transport ⟨hw, ht, hm⟩

end schedule

end Hypermedia.Session
