import Hypermedia.Proofs.Action.Aims
import Hypermedia.Proofs.Session.Placement
import Hypermedia.Proofs.Session.Stale

/-! Sound sessions: between turns the tree is in order, and action lists aim at widgets that it knows. -/
namespace Hypermedia

namespace Tree

variable {t : Tree} {x a : WidgetId} {selector : String} {ids : List WidgetId}

theorem mem_of_mem_addNew {found ids : List WidgetId} (hx : x ∈ ids.foldl addNew found) :
    x ∈ found ∨ x ∈ ids := by
  induction ids generalizing found with
  | nil => exact .inl hx
  | cons id ids ih =>
    rcases ih hx with hfound | hids
    · unfold addNew at hfound
      split at hfound
      · exact .inl hfound
      · rcases List.mem_append.mp hfound with hfound | hid
        · exact .inl hfound
        · exact .inr (List.mem_singleton.mp hid ▸ List.mem_cons_self)
    · exact .inr (List.mem_cons_of_mem id hids)

theorem mem_descendants_of_mem_selectAll {within : Option WidgetId}
    (h : t.selectAll selector within = .ok ids) (hx : x ∈ ids) :
    ∃ a ∈ within.elim t.layers ([·]), x ∈ t.descendants a := by
  unfold selectAll at h
  cases hs : Selector.parse selector with
  | error e =>
    rw [hs] at h
    cases h
  | ok s =>
    rw [hs] at h
    cases h
    have hmem := (mem_of_mem_addNew hx).resolve_left List.not_mem_nil
    exact List.mem_flatMap.mp (List.mem_of_mem_filter hmem)

/-- What is below a layer is not adrift. -/
theorem not_adrift_of_layer (ha : a ∈ t.layers) (hw : t.Within x a) : ¬ t.Adrift x := by
  intro hx
  obtain rfl := eq_of_within hx.top hw
  rcases List.mem_append.mp ha with hroot | hpin
  · exact hx.not_root (Option.mem_toList.mp hroot)
  · exact hx.not_pinned hpin

end Tree

namespace Session

open Effect (Moves)
open Hypermedia.Action (Ask Plan)

variable {σ : Type} {s t : Session σ} {w v : Worker} {x : WidgetId} (transport : Transport σ)

/-- A widget that the tree has or has had. -/
def Known (s : Session σ) (x : WidgetId) : Prop :=
  ¬ s.tree.Unused x

/-- A widget that has or has had a place. -/
def Placed (s : Session σ) (x : WidgetId) : Prop :=
  s.Known x ∧ ¬ s.Adrift x

theorem Grows.known (h : s.Grows t) (hx : s.Known x) : t.Known x :=
  fun hunused => hx (hunused.of_size_le h.size_le)

theorem Grows.placed (h : s.Grows t) (hx : s.Placed x) : t.Placed x :=
  ⟨h.known hx.1, fun hadrift => hx.2 (h.adrift x hx.1 hadrift)⟩

section answers

variable {q : Ask}

/-- An answer is one that the question allows, where all that is in a layer is placed. -/
theorem allows_answer {answer : q.Answer} {placed : WidgetId → Prop} (hs : s.tree.Forest)
    (h : Session.answer transport q s = (.ok answer, t))
    (hplaced : ∀ a ∈ t.tree.layers, ∀ x, t.Known x → t.tree.Within x a → placed x) :
    q.Allows t.Known placed answer := by
  cases q with
  | loadFragment r => exact Nat.not_le_of_lt (gives_loadFragment transport r s answer t h)
  | select selector within =>
    rw [Session.answer, Effect.run_get_bind] at h
    cases hfound : s.tree.selectAll selector within with
    | error e =>
      rw [hfound] at h
      cases h
    | ok ids =>
      rw [hfound] at h
      cases h
      have hlive : ∀ x ∈ answer, s.Known x := fun x hx => by
        obtain ⟨a, -, hmem⟩ := Tree.mem_descendants_of_mem_selectAll hfound hx
        exact Tree.not_unused_of_contains (hs.mem_descendants_iff.mp hmem).1
      cases within with
      | some root => exact hlive
      | none =>
        intro x hx
        obtain ⟨a, ha, hmem⟩ := Tree.mem_descendants_of_mem_selectAll hfound hx
        exact hplaced a ha x (hlive x hx) (hs.mem_descendants_iff.mp hmem).2
  | _ => trivial

theorem placed_of_layer {a : WidgetId} (ha : a ∈ s.tree.layers) (hx : s.Known x) (hw : s.tree.Within x a) :
    s.Placed x :=
  ⟨hx, fun hadrift => Tree.not_adrift_of_layer ha hw hadrift.tree⟩

theorem guards_answer (hq : q.Relies s.Known s.Placed) (hload : ∀ r, q ≠ .loadFragment r) :
    s.Guards (answer transport q s).2 := by
  cases q with
  | requestBody caller selector => exact moves_lift _ _ s
  | loadFragment r => exact absurd rfl (hload r)
  | select selector within => exact moves_lift _ _ s
  | isContainer id => exact moves_lift _ _ s
  | query id => exact Std.Refl.refl s
  | edit result target edit => exact guards_applyEdit hq.1 hq.2.1 hq.2.2

/-- Answers set nothing adrift. -/
theorem tends_answer (hq : q.Relies s.Known s.Placed) : s.Tends (answer transport q s).2 := by
  cases q with
  | loadFragment r => exact tends_loadFragment transport r s
  | _ => exact (guards_answer transport hq nofun).tends

theorem answerCurrent_eq (started : Nat) (q : Ask) (s : Session σ) :
    answerCurrent transport started q s =
      if s.generation = started then answer transport q s else (.error (.network .cancelled), s) := by
  rw [answerCurrent, Effect.run_get_bind]
  split <;> rfl

theorem tends_answerCurrent (started : Nat) (hq : q.Relies s.Known s.Placed) :
    s.Tends (answerCurrent transport started q s).2 := by
  rw [answerCurrent_eq]
  split
  · exact tends_answer transport hq
  · exact Std.Refl.refl s

theorem allows_answerCurrent {started : Nat} {answer : q.Answer} {placed : WidgetId → Prop} (hs : s.tree.Forest)
    (h : answerCurrent transport started q s = (.ok answer, t))
    (hplaced : ∀ a ∈ t.tree.layers, ∀ x, t.Known x → t.tree.Within x a → placed x) :
    q.Allows t.Known placed answer := by
  rw [answerCurrent_eq] at h
  split at h
  · exact allows_answer transport hs h hplaced
  · cases h

end answers

/-- What a phase of an action list aims at. -/
def Phase.Aims (known placed : WidgetId → Prop) : Phase → Prop
  | .ready plan => plan.Aims known placed
  | .asking q k => (Plan.ask q k).Aims known placed
  | .fetching _ k => ∀ response, (k response).Aims known placed
  | .leaving _ => True

/-- An action list aims at widgets that the session knows. -/
structure Worker.Aims (s : Session σ) (w : Worker) : Prop where
  result : ∀ id, w.result = some id → s.Known id
  phase : w.phase.Aims s.Known s.Placed

/-- A result that is known, and a phase that aims at what is known and placed. -/
structure Worker.AimsAt (known placed : WidgetId → Prop) (w : Worker) : Prop where
  result : ∀ id, w.result = some id → known id
  phase : w.phase.Aims known placed

theorem Worker.aims_iff : w.Aims s ↔ w.AimsAt s.Known s.Placed :=
  ⟨fun h => ⟨h.result, h.phase⟩, fun h => ⟨h.result, h.phase⟩⟩

section aiming

variable {known placed known' placed' : WidgetId → Prop} (hknown : ∀ x, known x → known' x)
  (hplaced : ∀ x, placed x → placed' x)

include hknown hplaced in
theorem Phase.Aims.mono {phase : Phase} (h : phase.Aims known placed) : phase.Aims known' placed' := by
  cases phase with
  | ready plan => exact Plan.Aims.mono hknown hplaced h
  | asking q k => exact Plan.Aims.mono hknown hplaced h
  | fetching request k => exact fun response => (h response).mono hknown hplaced
  | leaving notices => trivial

include hknown hplaced in
theorem Worker.AimsAt.mono (h : w.AimsAt known placed) : w.AimsAt known' placed' :=
  ⟨fun id hid => hknown id (h.result id hid), h.phase.mono hknown hplaced⟩

theorem Worker.AimsAt.later (h : s.Grows t) (hw : w.AimsAt s.Known s.Placed) : w.AimsAt t.Known t.Placed :=
  hw.mono (fun _ => h.known) fun _ => h.placed

theorem Worker.AimsAt.ask (h : w.AimsAt known placed) {q : Ask} {k : q.Answer → Plan (Option WidgetId)}
    (hphase : w.phase = .asking q k) : (Plan.ask q k).Aims known placed := by
  have hask := h.phase
  rwa [hphase] at hask

theorem Quiet.aimsAt (h : s.Quiet t) (ha : ∀ w ∈ s.workers, w.AimsAt known placed) :
    ∀ v ∈ t.workers, v.AimsAt known placed := by
  intro v hv
  rcases h.origin v hv with ⟨w, hw, hvw⟩ | hnew
  · rw [hvw]
    exact ⟨(ha w hw).result, (ha w hw).phase⟩
  · refine ⟨fun id hid => ?_, ?_⟩
    · rw [hnew.result] at hid
      cases hid
    · rw [hnew.phase]
      exact nofun

theorem aimsAt_modifyWorker (ha : ∀ w ∈ s.workers, w.AimsAt known placed) {id : Nat} {f : Worker → Worker}
    (hf : ∀ w ∈ s.workers, w.id = id → w.AimsAt known placed → (f w).AimsAt known placed) :
    ∀ w ∈ (s.modifyWorker id f).workers, w.AimsAt known placed := by
  refine List.forall_mem_map.mpr fun w hw => ?_
  split
  · next hid => exact hf w hw hid (ha w hw)
  · exact ha w hw

theorem aimsAt_advance (ha : ∀ w ∈ s.workers, w.AimsAt known placed) (hw : w ∈ s.workers)
    {plan : Plan (Option WidgetId)} (hphase : w.phase = .ready plan) :
    ∀ v ∈ (s.advance transport w plan).workers, v.AimsAt known placed := by
  have hplan : plan.Aims known placed := by
    have := (ha w hw).phase
    rwa [hphase] at this
  have hfinish (error : Option Error) : ∀ v ∈ (s.finish w error).workers, v.AimsAt known placed :=
    aimsAt_modifyWorker ha fun v _ _ hv => ⟨hv.result, trivial⟩
  cases plan with
  | fail e => exact hfinish (some e)
  | done result =>
    rw [advance]
    split
    · exact hfinish none
    · next i rest _ =>
      exact aimsAt_modifyWorker ha fun v _ _ _ => ⟨hplan, i.aims_plan v.caller hplan⟩
  | fetch call k =>
    rw [advance]
    split
    · exact hfinish _
    · exact aimsAt_modifyWorker ha fun v _ _ hv => ⟨hv.result, hplan⟩
  | ask q k => exact aimsAt_modifyWorker ha fun v _ _ hv => ⟨hv.result, hplan⟩

theorem aimsAt_takeTurn (ha : ∀ w ∈ s.workers, w.AimsAt known placed) (id : Nat) :
    ∀ v ∈ (s.takeTurn transport id).1.workers, v.AimsAt known placed := by
  obtain h | ⟨w, hw, -, ⟨plan, hphase, h⟩ | ⟨request, k, hphase, h⟩ | ⟨notices, -, h⟩⟩ :=
    takeTurn_outcomes transport s id <;> rw [h]
  · exact ha
  · exact aimsAt_advance transport ha hw hphase
  · have hk := (ha w hw).phase
    rw [hphase] at hk
    obtain h | ⟨reply, -, h⟩ := receive_outcomes transport s w request k <;> rw [h]
    · exact ha
    · refine aimsAt_modifyWorker ha fun v _ _ hv => ⟨hv.result, ?_⟩
      exact Plan.aims_resume fun response _ => hk response
  · cases notices with
    | nil => exact fun v hv => ha v (List.mem_of_mem_filter hv)
    | cons notice rest => exact aimsAt_modifyWorker ha fun v _ _ hv => ⟨hv.result, trivial⟩

include hknown hplaced in
/-- An action list goes on with an answer that its question allows. -/
theorem aimsAt_answered (hquiet : s.Quiet t) (ha : ∀ w ∈ s.workers, w.AimsAt known placed) (hw : w ∈ s.workers)
    {q : Ask} {k : q.Answer → Plan (Option WidgetId)} (hphase : w.phase = .asking q k)
    {result : Except Error q.Answer} (hallows : ∀ answer, result = .ok answer → q.Allows known' placed' answer)
    (id : Nat) (loaded : Worker → List WidgetId) : ∀ v ∈ (t.modifyWorker id fun w =>
      { w with loaded := loaded w, phase := .ready (.resume k result) }).workers, v.AimsAt known' placed' := by
  have hnext : (Plan.resume k result).Aims known' placed' :=
    Plan.aims_resume fun answer hanswer =>
      ((ha w hw).ask hphase).2 _ _ hknown hplaced answer (hallows answer hanswer)
  refine aimsAt_modifyWorker (fun v hv => ?_) fun v _ _ hv => ⟨hv.result, hnext⟩
  exact (hquiet.aimsAt ha v hv).mono hknown hplaced

end aiming

/-- Between page changes, with all action lists aimed. -/
structure Sound (s : Session σ) : Prop extends Steady s where
  aims : ∀ w ∈ s.workers, w.Aims s

theorem Sound.aimsAt (hs : s.Sound) : ∀ w ∈ s.workers, w.AimsAt s.Known s.Placed :=
  fun w hw => Worker.aims_iff.mp (hs.aims w hw)

/-- Where lists aimed at what was known before, they aim at what is. -/
theorem Steady.sound (hs : t.Steady) (hgrows : s.Grows t) (ha : ∀ w ∈ t.workers, w.AimsAt s.Known s.Placed) :
    t.Sound :=
  ⟨hs, fun w hw => Worker.aims_iff.mpr ((ha w hw).later hgrows)⟩

section turns

/-- Every turn but those of messages and action lists leaves no new stray. -/
theorem secures_after {turn : Turn σ} (hm : turn ≠ .message) (hw : ∀ id, turn ≠ .worker id) :
    s.Secures (s.after transport turn) := by
  cases turn with
  | message => exact absurd rfl hm
  | timers =>
    refine Guards.secures (guards_carries.fireTimers (fun _ => guards_report) (fun _ _ => ?_) s)
    exact guards_of_eq rfl rfl rfl rfl id
  | worker id => exact absurd rfl (hw id)
  | route destination suppressHistory =>
    exact secures_navigates.route transport destination suppressHistory s
  | back => exact secures_navigates.revisit transport History.back s
  | forward => exact secures_navigates.revisit transport History.forward s
  | refresh => exact secures_navigates.refresh transport s
  | dispatch id event =>
    exact Guards.secures (guards_carries.dispatch (fun _ => guards_report)
      (fun _ actions caller _ => guards_startActions actions caller) id event s)
  | start actions caller => exact (guards_startActions actions caller).secures
  | report error => exact (guards_report error).secures
  | takeErrors => exact Guards.secures (guards_of_eq rfl rfl rfl rfl id)
  | wait clock => exact Guards.secures (guards_of_eq rfl rfl rfl rfl id)
  | network network => exact Guards.secures (guards_of_eq rfl rfl rfl rfl id)

theorem guards_takeTurn (id : Nat) : s.Guards (s.takeTurn transport id).1 := by
  obtain ⟨network, workers, inbox, h⟩ := takeTurn_frame transport (s := s) id
  rw [h]
  exact guards_of_eq rfl rfl rfl rfl fun h => h

theorem Tends.steady (h : s.Tends t) (hs : s.Steady) : t.Steady ∧ s.Grows t := by
  obtain ⟨⟨hintact, houtgoing⟩, hgrows⟩ := h hs.intact
  exact ⟨⟨hintact, houtgoing.trans hs.outgoing⟩, hgrows⟩

/-- What messages there are does not matter. -/
theorem sound_dropMessage (hs : s.Sound) (inbox : List Message) : Sound { s with inbox } := by
  have hguards : s.Guards { s with inbox } := guards_of_eq rfl rfl rfl rfl id
  obtain ⟨hsteady, hspares⟩ := hguards.secures hs.toSteady
  exact hsteady.sound hspares.toGrows hs.aimsAt

theorem sound_answerWorker (hs : s.Sound) (id started : Nat) :
    (s.answerWorker transport id started).Sound := by
  obtain ⟨-, h⟩ | ⟨w, q, k, hfind, hphase, h⟩ := answerWorker_outcomes transport s id started <;> rw [h]
  · exact hs
  · obtain ⟨hw, -⟩ := worker_of_find? hfind
    have hask := (hs.aimsAt w hw).ask hphase
    have hquiet : s.Quiet (answerCurrent transport started q s).2 :=
      (moves_answerCurrent transport started q s).2
    obtain ⟨hsteady, hgrows⟩ := (tends_answerCurrent transport started hask.1).steady hs.toSteady
    cases hr : answerCurrent transport started q s with
    | mk result t =>
      rw [hr] at hquiet hsteady hgrows
      have hallows (answer : q.Answer) (hanswer : result = .ok answer) : q.Allows t.Known t.Placed answer :=
        allows_answerCurrent transport hs.intact.tree.forest (hanswer ▸ hr) fun _ ha _ => placed_of_layer ha
      have haims := aimsAt_answered (fun _ => hgrows.known) (fun _ => hgrows.placed) hquiet hs.aimsAt hw hphase
        hallows id fun w => w.loaded ++ fragmentOf q result
      have hsettled (workers : List Worker) : t.Secures { t with workers } :=
        Guards.secures (guards_of_eq rfl rfl rfl rfl fun h => h)
      obtain ⟨hlast, hspares⟩ := hsettled _ hsteady
      exact hlast.sound hspares.toGrows haims

theorem sound_of_secures (hs : s.Sound) (hsecures : s.Secures t) (hquiet : s.Quiet t) : t.Sound := by
  obtain ⟨hsteady, hspares⟩ := hsecures hs.toSteady
  exact hsteady.sound hspares.toGrows (hquiet.aimsAt hs.aimsAt)

theorem sound_handleNext (hs : s.Sound) : (s.handleNext transport).Sound := by
  obtain ⟨-, h⟩ | ⟨m, inbox, -, hcases⟩ := handleNext_outcomes transport s
  · rw [h]
    exact hs
  · have hrest : Sound { s with inbox } := sound_dropMessage hs inbox
    obtain ⟨-, h⟩ | ⟨roots, -, h⟩ | ⟨e, -, h⟩ := hcases <;> rw [h]
    · exact sound_answerWorker transport hrest _ _
    · exact sound_of_secures hrest (guards_releaseFragments _).secures (keeps_releaseFragments _).quiet
    · exact sound_of_secures hrest (guards_report _).secures (acts_report _).2

theorem sound_after (hs : s.Sound) (turn : Turn σ) : (s.after transport turn).Sound := by
  cases turn with
  | message => exact sound_handleNext transport hs
  | worker id =>
    obtain ⟨hsteady, hspares⟩ := (guards_takeTurn transport id).secures hs.toSteady
    exact hsteady.sound hspares.toGrows (aimsAt_takeTurn transport hs.aimsAt id)
  | _ =>
    exact sound_of_secures hs (secures_after transport (by simp) (by simp))
      (acts_after transport (by simp) (by simp)).2

/-- Every session that turns lead to is sound. -/
theorem sound_afterAll (hs : s.Sound) (turns : List (Turn σ)) : (s.afterAll transport turns).Sound := by
  induction turns generalizing s with
  | nil => exact hs
  | cons turn turns ih => exact ih (sound_after transport hs turn)

theorem sound_start {config : Config} {network : σ} (h : start config network = .ok s) : s.Sound := by
  obtain ⟨url, -, rfl⟩ := start_eq_ok h
  refine ⟨⟨⟨Tree.sane_empty, ?_, ?_, nofun, fun _ => rfl⟩, rfl⟩, ?_⟩
  · exact fun x hx => absurd hx List.not_mem_nil
  · exact fun x _ => rfl
  · exact fun w hw => absurd hw List.not_mem_nil

end turns

end Session

end Hypermedia
