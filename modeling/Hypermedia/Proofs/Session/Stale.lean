import Hypermedia.CommandLine.Offline
import Hypermedia.Proofs.Session.Questions

/-! Action lists of a page that is no longer shown: their tasks do nothing, their questions are answered
with a cancellation, and they take no further step. -/
namespace Hypermedia.Session

open Hypermedia.Action (Ask Plan)
open Hypermedia.CommandLine (offline)

variable {σ : Type} {s t : Session σ} {w v : Worker} {m : Message} {root : WidgetId}
  (transport : Transport σ)

/-- A list whose question is answered with a cancellation; one that asks nothing stays as it is. -/
def Worker.cancelled (w : Worker) : Worker :=
  match w.phase with
  | .asking _ _ => { w with phase := .ready (.fail (.network .cancelled)) }
  | _ => w

/-- What a task of a stale list does to a list: its question, if it is one, is cancelled. -/
def Message.cancel (m : Message) (w : Worker) : Worker :=
  match m.task with
  | .answer => if w.id = m.sender then w.cancelled else w
  | _ => w

section messages

theorem releaseFragments_of_dropped {roots : List WidgetId}
    (h : ∀ root ∈ roots, s.pending.lookup root = none) : s.releaseFragments roots = s := by
  induction roots with
  | nil => rfl
  | cons root roots ih =>
    obtain ⟨hroot, hroots⟩ := List.forall_mem_cons.mp h
    have hkeep : s.releaseFragment root = s := by
      simp [releaseFragment, hroot]
    rw [releaseFragments, List.foldl_cons, hkeep]
    exact ih hroots

theorem answerCurrent_of_stale {started : Nat} (h : s.generation ≠ started) (q : Ask) :
    answerCurrent transport started q s = (.error (.network .cancelled), s) := by
  rw [answerCurrent, Effect.run_get_bind, if_neg h]
  rfl

private theorem modifyWorker_eq (hs : s.Consistent) (hw : w ∈ s.workers) {f g : Worker → Worker}
    (h : f w = g w) : s.modifyWorker w.id f = s.modifyWorker w.id g := by
  unfold modifyWorker
  congr 1
  refine List.map_congr_left fun v hv => ?_
  split
  · next hid => rw [hs.eq_of_id hv hw hid, h]
  · rfl

private theorem modifyWorker_self {id : Nat} {f : Worker → Worker}
    (h : ∀ w ∈ s.workers, w.id = id → f w = w) : s.modifyWorker id f = s := by
  have hmap : s.workers.map (fun w => if w.id = id then f w else w) = s.workers := by
    refine (List.map_congr_left fun w hw => ?_).trans (List.map_id _)
    split
    · next hid => exact h w hw hid
    · rfl
  unfold modifyWorker
  rw [hmap]

/-- A stale question is answered with a cancellation, and nothing else happens. -/
theorem answerWorker_of_stale (hs : s.Consistent) {id started : Nat} (h : s.generation ≠ started) :
    s.answerWorker transport id started = s.modifyWorker id Worker.cancelled := by
  obtain ⟨hnone, heq⟩ | ⟨w, q, k, hfind, hphase, heq⟩ := answerWorker_outcomes transport s id started <;> rw [heq]
  · refine (modifyWorker_self fun w hw hid => ?_).symm
    unfold Worker.cancelled
    split
    · next q k hasking => exact absurd hasking (hnone w q k (hid ▸ hs.find?_worker hw))
    · rfl
  · obtain ⟨hw, rfl⟩ := worker_of_find? hfind
    rw [answerCurrent_of_stale transport h]
    refine modifyWorker_eq hs hw ?_
    have hfragment : fragmentOf q (.error (.network .cancelled)) = [] := by
      cases q <;> rfl
    simp [Worker.cancelled, hphase, hfragment, Plan.resume]

/-- Of a stale list every task but a report of an error does nothing to the session. -/
theorem handleNext_of_stale (hs : s.Consistent) {inbox : List Message} (h : s.inbox = m :: inbox)
    (hstale : m.started ≠ s.generation) (hreport : ∀ e, m.task ≠ .notice (.report e)) :
    s.handleNext transport = { s with inbox, workers := s.workers.map m.cancel } := by
  have hm : m ∈ s.inbox := h ▸ List.mem_cons_self
  have hrest := ((leads_dropMessage h) hs).1
  unfold handleNext
  rw [h]
  dsimp only
  unfold handle Message.cancel
  cases ht : m.task with
  | answer =>
    dsimp only
    rw [answerWorker_of_stale transport hrest (Ne.symm hstale)]
    rfl
  | notice notice =>
    cases notice with
    | release fragments =>
      dsimp only
      rw [List.map_id']
      refine releaseFragments_of_dropped fun root hroot => ?_
      refine hs.dropped m.started root (.inr ⟨m, hm, rfl, ?_⟩) hstale
      rw [ht]
      exact hroot
    | report e => exact absurd ht (hreport e)

end messages

section workers

/-- An action list alone changes itself, the messages and the network only. -/
theorem takeTurn_frame (id : Nat) : ∃ network workers inbox,
    (s.takeTurn transport id).1 = { s with network, workers, inbox } := by
  obtain h | ⟨w, -, -, ⟨plan, -, h⟩ | ⟨request, k, -, h⟩ | ⟨notices, -, h⟩⟩ :=
    takeTurn_outcomes transport s id <;> rw [h]
  · exact ⟨_, _, _, rfl⟩
  · cases plan with
    | fail e => exact ⟨_, _, _, rfl⟩
    | done result =>
      rw [advance]
      split <;> exact ⟨_, _, _, rfl⟩
    | fetch call k =>
      rw [advance]
      split <;> exact ⟨_, _, _, rfl⟩
    | ask q k => exact ⟨_, _, _, rfl⟩
  · obtain h | ⟨reply, -, h⟩ := receive_outcomes transport s w request k <;> rw [h] <;>
      exact ⟨_, _, _, rfl⟩
  · cases notices <;> exact ⟨_, _, _, rfl⟩

/-- A reply that comes after a page change cancels the list that waits for it. -/
theorem takeTurn_of_stale (hs : s.Consistent) (hw : w ∈ s.workers)
    (hstale : w.generation ≠ s.generation) {request : Network.Request}
    {k : Network.Response → Plan (Option WidgetId)} (hphase : w.phase = .fetching request k)
    {response : Network.Response} {network : σ}
    (hreply : transport.reply request s.network = (some (.ok response), network)) :
    (s.takeTurn transport w.id).1 = { s with network }.modifyWorker w.id fun v =>
      { v with phase := .ready (.fail (.network .cancelled)) } := by
  unfold takeTurn
  rw [hs.find?_worker hw]
  dsimp only
  rw [hphase]
  dsimp only
  have hcancelled : { s with network }.received w (.ok response) =
      .error (.network .cancelled) :=
    if_neg (Ne.symm hstale)
  rw [receive, hreply]
  dsimp only
  rw [hcancelled]
  rfl

end workers

/-- At all times of a session, however its turns and those of its action lists are mixed: a task of a
list started before the last page change, unless it reports an error, changes nothing but that its
sender is told of a cancellation; a list that waits for an answer has one such task under way; a stale
list has no steps left and takes no reply; lists by themselves change nothing of the session; and what
is stale stays stale. -/
theorem stale_lists_inert (config : Config) (network : σ) (first : Session σ)
    (hstart : start config network = .ok first) (turns : List (Turn σ)) :
    let s := first.afterAll transport turns
    (∀ m inbox, s.inbox = m :: inbox → m.started ≠ s.generation → (∀ e, m.task ≠ .notice (.report e)) →
      s.after transport .message = { s with inbox, workers := s.workers.map m.cancel }) ∧
    (∀ w ∈ s.workers, s.inbox.countP (·.asks w.id) = w.phase.isAsking.toNat) ∧
    (∀ w ∈ s.workers, w.generation ≠ s.generation → w.steps = [] ∧
      ∀ request k response network, w.phase = .fetching request k →
        transport.reply request s.network = (some (.ok response), network) →
        s.after transport (.worker w.id) = { s with network }.modifyWorker w.id fun v =>
          { v with phase := .ready (.fail (.network .cancelled)) }) ∧
    (∀ id, ∃ network workers inbox,
      s.after transport (.worker id) = { s with network, workers, inbox }) ∧
    (∀ m ∈ s.inbox, m.started ≤ s.generation ∧
      ∀ w ∈ s.workers, w.id = m.sender → w.generation = m.started) ∧
    (∀ more, let t := s.afterAll transport more
      s.generation ≤ t.generation ∧ ∀ w ∈ s.workers, w.generation ≤ s.generation ∧
        ∀ v ∈ t.workers, v.id = w.id → v.generation = w.generation) := by
  intro s
  have hfirst : first.Consistent := consistent_start hstart
  have hs : s.Consistent := (leads_afterAll transport turns hfirst).1
  refine ⟨?_, ?_, ?_, takeTurn_frame transport, ?_, ?_⟩
  · exact fun m inbox h hstale hreport => handleNext_of_stale transport hs h hstale hreport
  · exact asked_afterAll transport hfirst (asked_start hstart) turns
  · intro w hw hstale
    refine ⟨hs.cleared w hw hstale, fun request k response network hphase hreply => ?_⟩
    exact takeTurn_of_stale transport hs hw hstale hphase hreply
  · exact fun m hm => ⟨hs.started_le m hm, hs.sender m hm⟩
  · intro more
    obtain ⟨-, hfollows⟩ := leads_afterAll transport more hs
    refine ⟨hfollows.generation_le, fun w hw => ⟨hs.generation_le w hw, fun v hv hid => ?_⟩⟩
    exact hfollows.generation_eq hs hw hv hid

/-- A list has asked for the body of its request when an error brings the session to a halt. -/
def cutShort : List (Turn Unit) :=
  [.start [{ verb := .post, argument := "/things" }] ⟨0⟩, .worker 0, .worker 0,
    .report (.selection .noResult)]

/-- The question that is cut short is answered with a cancellation. -/
theorem cutShort_inert : ∃ first, start {} () = .ok first ∧
    let s := first.afterAll offline cutShort
    s.generation = 1 ∧ s.inbox = [⟨0, 0, .answer⟩] ∧
      s.after offline .message =
        { s with inbox := [], workers := s.workers.map (Message.cancel ⟨0, 0, .answer⟩) } := by
  have hok : (start {} ()).isOk = true := by decide +kernel
  obtain ⟨first, hstart⟩ : ∃ first, start {} () = .ok first := by
    cases h : start {} () with
    | ok first => exact ⟨first, rfl⟩
    | error e =>
      rw [h] at hok
      cases hok
  have hcut : (first.afterAll offline cutShort).generation = 1 ∧
      (first.afterAll offline cutShort).inbox = [⟨0, 0, .answer⟩] := by
    obtain ⟨url, -, rfl⟩ := start_eq_ok hstart
    exact ⟨rfl, rfl⟩
  obtain ⟨hgeneration, hinbox⟩ := hcut
  have hinert := (stale_lists_inert offline {} () first hstart cutShort).1 _ _ hinbox
  refine ⟨first, hstart, hgeneration, hinbox, hinert ?_ ?_⟩
  · rw [hgeneration]
    exact Nat.zero_ne_one
  · intro e h
    cases h

end Hypermedia.Session
