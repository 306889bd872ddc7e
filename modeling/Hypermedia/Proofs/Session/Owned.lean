import Hypermedia.Proofs.Session.Sound

/-! Owned widgets: what is adrift is loose or pending, and what is pending is with an action list or on
its way back from one. -/
namespace Hypermedia.Session

open Hypermedia.Action (Ask Plan)

variable {σ : Type} {s t : Session σ} {w v : Worker} {m : Message} {g : Nat} {x root : WidgetId}
  (transport : Transport σ)

/-- Every list that has ended has given back what it loaded. -/
def Emptied (s : Session σ) : Prop :=
  ∀ w ∈ s.workers, w.isRunning = false → w.loaded = []

/-- Every widget is accounted for, and every pending fragment is with a list or a message. -/
structure Owned (s : Session σ) : Prop where
  stray : ∀ x, ¬ s.Stray x
  held : ∀ root, s.pending.lookup root ≠ none → ∃ g, s.Holds g root
  emptied : s.Emptied

section acts

theorem Quiet.holds (h : s.Quiet t) (hs : s.Holds g root) : t.Holds g root := by
  rcases hs with ⟨w, hw, hg, hroot⟩ | hm
  · obtain ⟨v, hv, hvw⟩ := h.kept w hw
    refine .inl ⟨v, hv, ?_, ?_⟩
    · rw [hvw]
      exact hg
    · rw [hvw]
      exact hroot
  · exact .inr (h.inbox.symm ▸ hm)

theorem Quiet.emptied (h : s.Quiet t) (hs : s.Emptied) : t.Emptied := by
  intro v hv hended
  rcases h.origin v hv with ⟨w, hw, hvw⟩ | hnew
  · rw [hvw] at hended ⊢
    exact hs w hw hended
  · exact hnew.loaded

/-- A list that had no fragment under way has none when the session has done something by itself. -/
theorem Quiet.phase_fragments (h : s.Quiet t) (hs : s.Consistent) (hw : w ∈ s.workers)
    (hnone : w.phase.fragments = []) (hv : v ∈ t.workers) (hid : v.id = w.id) :
    v.phase.fragments = [] := by
  rcases h.origin v hv with ⟨u, hu, hvu⟩ | hnew
  · have huw : u.id = w.id := by
      rw [hvu] at hid
      exact hid
    rw [hvu, hs.eq_of_id hu hw huw]
    exact hnone
  · rw [hnew.phase]
    rfl

/-- What the session does by itself, without a new stray, leaves every widget owned. -/
theorem Owned.of_spares (ho : s.Owned) (hspares : s.Spares t) (hquiet : s.Quiet t) : t.Owned where
  stray x hx := ho.stray x (hspares.stray x hx)
  held root hroot := by
    obtain ⟨g, hg⟩ := ho.held root fun hnone => hroot (hspares.pending root hnone)
    exact ⟨g, hquiet.holds hg⟩
  emptied := hquiet.emptied ho.emptied

end acts

section workers

theorem holds_modifyWorker {id : Nat} {f : Worker → Worker}
    (hf : ∀ w ∈ s.workers, w.id = id → (f w).generation = w.generation ∧ w.fragments ⊆ (f w).fragments)
    (h : s.Holds g root) : (s.modifyWorker id f).Holds g root := by
  rcases h with ⟨w, hw, hg, hroot⟩ | hm
  · refine .inl ⟨_, List.mem_map_of_mem hw, ?_⟩
    split
    · next hid =>
      obtain ⟨hgeneration, hsub⟩ := hf w hw hid
      exact ⟨hgeneration.trans hg, hsub hroot⟩
    · exact ⟨hg, hroot⟩
  · exact .inr hm

theorem holds_post {task : Task} (h : s.Holds g root) : (s.post w task).Holds g root := by
  rcases h with hw | ⟨m, hm, h⟩
  · exact .inl hw
  · exact .inr ⟨m, List.mem_append_left _ hm, h⟩

/-- A list that ends gives back what it has loaded. -/
theorem Worker.loaded_subset_farewell (w : Worker) (error : Option Error) :
    w.loaded ⊆ (w.farewell error).flatMap Notice.fragments := by
  intro root hroot
  have hne : w.loaded.isEmpty = false := by
    rw [List.isEmpty_eq_false_iff]
    exact List.ne_nil_of_mem hroot
  refine List.mem_flatMap.mpr ⟨.release w.loaded, List.mem_append_left _ ?_, hroot⟩
  rw [hne]
  exact List.mem_singleton.mpr rfl

variable (hs : s.Consistent)

include hs

/-- A list that is at work has no more than what it has loaded. -/
theorem Consistent.holds_phase (hw : w ∈ s.workers) (hphase : w.phase.fragments = [])
    {f : Worker → Worker} (hf : ∀ v, (f v).generation = v.generation ∧ v.loaded ⊆ (f v).fragments)
    (h : s.Holds g root) : (s.modifyWorker w.id f).Holds g root := by
  refine holds_modifyWorker (fun v hv hid => ⟨(hf v).1, ?_⟩) h
  obtain rfl := hs.eq_of_id hv hw hid
  rw [Worker.fragments, hphase, List.append_nil]
  exact (hf v).2

theorem holds_advance (hw : w ∈ s.workers) {plan : Plan (Option WidgetId)}
    (hphase : w.phase = .ready plan) (h : s.Holds g root) : (s.advance transport w plan).Holds g root := by
  have hnone : w.phase.fragments = [] := by
    rw [hphase]
    rfl
  have hfinish (error : Option Error) : (s.finish w error).Holds g root :=
    hs.holds_phase hw hnone (fun v => ⟨rfl, v.loaded_subset_farewell error⟩) h
  have hkept (v : Worker) : v.loaded ⊆ v.loaded ++ [] := List.subset_append_left _ _
  cases plan with
  | fail e => exact hfinish (some e)
  | done result =>
    rw [advance]
    split
    · exact hfinish none
    · exact hs.holds_phase hw hnone (fun v => ⟨rfl, hkept v⟩) h
  | fetch call k =>
    rw [advance]
    split
    · exact hfinish _
    · exact hs.holds_phase hw hnone (fun v => ⟨rfl, hkept v⟩) h
  | ask q k =>
    refine holds_modifyWorker (fun v hv hid => ⟨rfl, ?_⟩) (holds_post h)
    obtain rfl := hs.eq_of_id hv hw hid
    rw [Worker.fragments, hnone]
    exact fun _ hroot => hroot

theorem holds_leave (hw : w ∈ s.workers) {notices : List Notice} (hphase : w.phase = .leaving notices)
    (hloaded : w.loaded = []) (h : s.Holds g root) : (s.leave w notices).Holds g root := by
  have hback : w.fragments = notices.flatMap Notice.fragments := by
    rw [Worker.fragments, hloaded, hphase]
    rfl
  cases notices with
  | nil =>
    rcases h with ⟨v, hv, hg, hroot⟩ | hm
    · refine .inl ⟨v, List.mem_filter.mpr ⟨hv, bne_iff_ne.mpr fun hid => ?_⟩, hg, hroot⟩
      rw [hs.eq_of_id hv hw hid, hback] at hroot
      cases hroot
    · exact .inr hm
  | cons notice rest =>
    rcases h with ⟨v, hv, hg, hroot⟩ | ⟨m, hm, h⟩
    · by_cases hid : v.id = w.id
      · obtain rfl := hs.eq_of_id hv hw hid
        rw [hback, List.flatMap_cons] at hroot
        rcases List.mem_append.mp hroot with hsent | hrest
        · exact .inr ⟨⟨v.id, v.generation, .notice notice⟩,
            List.mem_append_right _ (List.mem_singleton.mpr rfl), hg, hsent⟩
        · exact .inl ⟨_, List.mem_map.mpr ⟨v, hv, if_pos rfl⟩, hg, List.mem_append_right _ hrest⟩
      · exact .inl ⟨v, List.mem_map.mpr ⟨v, hv, if_neg hid⟩, hg, hroot⟩
    · exact .inr ⟨m, List.mem_append_left _ hm, h⟩

/-- An action list alone loses no fragment. -/
theorem holds_takeTurn (hemptied : s.Emptied) (id : Nat)
    (h : s.Holds g root) : (s.takeTurn transport id).1.Holds g root := by
  obtain heq | ⟨w, hw, -, ⟨plan, hphase, heq⟩ | ⟨request, k, hphase, heq⟩ | ⟨notices, hphase, heq⟩⟩ :=
    takeTurn_outcomes transport s id <;> rw [heq]
  · exact h
  · exact holds_advance transport hs hw hphase h
  · have hnone : w.phase.fragments = [] := by
      rw [hphase]
      rfl
    obtain heq | ⟨reply, -, heq⟩ := receive_outcomes transport s w request k <;> rw [heq]
    · exact h
    · refine holds_modifyWorker (fun v hv hid => ⟨rfl, ?_⟩) h
      obtain rfl := hs.eq_of_id hv hw hid
      rw [Worker.fragments, hnone]
      exact fun _ hroot => hroot
  · refine holds_leave hs hw hphase (hemptied w hw ?_) h
    rw [Worker.isRunning, hphase]

omit hs

theorem emptied_modifyWorker (hemptied : s.Emptied) {id : Nat} {f : Worker → Worker}
    (hf : ∀ w ∈ s.workers, w.id = id → (f w).isRunning = false → (f w).loaded = []) :
    (s.modifyWorker id f).Emptied := by
  refine List.forall_mem_map.mpr fun w hw => ?_
  split
  · next hid => exact hf w hw hid
  · exact hemptied w hw

include hs

theorem emptied_takeTurn (hemptied : s.Emptied) (id : Nat) : (s.takeTurn transport id).1.Emptied := by
  obtain h | ⟨w, hw, -, ⟨plan, -, h⟩ | ⟨request, k, -, h⟩ | ⟨notices, hphase, h⟩⟩ :=
    takeTurn_outcomes transport s id <;> rw [h]
  · exact hemptied
  · cases plan with
    | fail e => exact emptied_modifyWorker hemptied fun _ _ _ _ => rfl
    | done result =>
      rw [advance]
      split <;> exact emptied_modifyWorker hemptied (by simp [Worker.isRunning])
    | fetch call k =>
      rw [advance]
      split
      · exact emptied_modifyWorker hemptied fun _ _ _ _ => rfl
      · exact emptied_modifyWorker hemptied (by simp [Worker.isRunning])
    | ask q k => exact emptied_modifyWorker hemptied (by simp [Worker.isRunning])
  · obtain h | ⟨reply, -, h⟩ := receive_outcomes transport s w request k <;> rw [h]
    · exact hemptied
    · exact emptied_modifyWorker hemptied (by simp [Worker.isRunning])
  · cases notices with
    | nil => exact fun v hv => hemptied v (List.mem_of_mem_filter hv)
    | cons notice rest =>
      refine emptied_modifyWorker hemptied fun v hv hid _ => ?_
      obtain rfl := hs.eq_of_id hv hw hid
      exact hemptied v hv (by rw [Worker.isRunning, hphase])

theorem owned_takeTurn (ho : s.Owned) (hsteady : s.Steady) (id : Nat) :
    (s.takeTurn transport id).1.Owned := by
  obtain ⟨-, hspares⟩ := (guards_takeTurn transport id).secures hsteady
  refine ⟨fun x hx => ho.stray x (hspares.stray x hx), fun root hroot => ?_, ?_⟩
  · obtain ⟨g, hg⟩ := ho.held root fun hnone => hroot (hspares.pending root hnone)
    exact ⟨g, holds_takeTurn transport hs ho.emptied id hg⟩
  · exact emptied_takeTurn transport hs ho.emptied id

end workers

section messages

/-- A question that asks for a fragment gets one whose rules can all be read. -/
def AnswersReadably (q : Ask) (s : Session σ) : Prop :=
  ∀ response fragment t, q = .loadFragment response →
    compileResponse transport response s = (.ok fragment, t) → fragment.rules.Readable

theorem gains_answerCurrent (started : Nat) {q : Ask} (hs : s.Intact) (hq : q.Relies s.Known s.Placed)
    (hreadable : s.AnswersReadably transport q) :
    s.Gains (answerCurrent transport started q s).2
      (fragmentOf q (answerCurrent transport started q s).1) := by
  rw [answerCurrent_eq]
  split
  · cases q with
    | loadFragment r => exact gains_loadFragment transport hs fun fragment t => hreadable r fragment t rfl
    | _ => exact ((guards_answer transport hq nofun) hs).2.gains _
  · exact (Spares.refl s).gains _

theorem owned_answerWorker (hs : s.Sound) (hc : s.Consistent) (ho : s.Owned) {id : Nat} (started : Nat)
    (hreadable : ∀ w ∈ s.workers, w.id = id → ∀ q k, w.phase = .asking q k →
      s.AnswersReadably transport q) : (s.answerWorker transport id started).Owned := by
  obtain ⟨-, h⟩ | ⟨w, q, k, hfind, hphase, h⟩ := answerWorker_outcomes transport s id started <;> rw [h]
  · exact ho
  · obtain ⟨hw, rfl⟩ := worker_of_find? hfind
    have hask := (hs.aimsAt w hw).ask hphase
    have hquiet : s.Quiet (answerCurrent transport started q s).2 :=
      (moves_answerCurrent transport started q s).2
    have hgains := gains_answerCurrent transport started hs.intact hask.1
      (hreadable w hw rfl q k hphase)
    cases hr : answerCurrent transport started q s with
    | mk result t =>
      rw [hr] at hquiet hgains
      refine ⟨fun x hx => ?_, fun root hroot => ?_, ?_⟩
      · have hstray : t.Stray x :=
          ⟨⟨hx.adrift.tree, hx.adrift.not_aside⟩, hx.not_loose, hx.not_pending⟩
        exact ho.stray x (hgains.stray x hstray)
      · by_cases hnew : root ∈ fragmentOf q result
        · obtain ⟨v, hv, hvw⟩ := hquiet.kept w hw
          have hid : v.id = w.id := by rw [hvw]
          refine ⟨v.generation, .inl ⟨_, List.mem_map.mpr ⟨v, hv, if_pos hid⟩, rfl, ?_⟩⟩
          exact List.mem_append_left _ (List.mem_append_right _ hnew)
        · -- it was pending before, and a list that waits for an answer has only what it loaded
          obtain ⟨g, hg⟩ := ho.held root fun hnone => hroot (hgains.pending root hnew hnone)
          refine ⟨g, holds_modifyWorker (fun v hv hid => ⟨rfl, ?_⟩) (hquiet.holds hg)⟩
          have hnone : v.phase.fragments = [] :=
            hquiet.phase_fragments hc hw (by rw [hphase]; rfl) hv hid
          rw [Worker.fragments, hnone, List.append_nil]
          exact fun _ h => List.mem_append_left _ (List.mem_append_left _ h)
      · exact emptied_modifyWorker (hquiet.emptied ho.emptied) (by simp [Worker.isRunning])

theorem lookup_releaseFragment_of_none (h : s.pending.lookup x = none) (root : WidgetId) :
    (s.releaseFragment root).pending.lookup x = none := by
  unfold releaseFragment
  split
  · exact List.filter_sublist.lookup_eq_none h
  · exact h

theorem lookup_releaseFragment_self (s : Session σ) (root : WidgetId) :
    (s.releaseFragment root).pending.lookup root = none := by
  unfold releaseFragment
  split
  · refine List.lookup_eq_none_iff.mpr fun p hp => bne_iff_ne.mpr ?_
    exact Ne.symm (bne_iff_ne.mp (List.mem_filter.mp hp).2)
  · next hnone => exact Option.not_isSome_iff_eq_none.mp hnone

theorem lookup_releaseFragments {roots : List WidgetId}
    (h : s.pending.lookup x = none ∨ x ∈ roots) : (s.releaseFragments roots).pending.lookup x = none := by
  induction roots generalizing s with
  | nil => exact h.resolve_right List.not_mem_nil
  | cons root roots ih =>
    refine ih (s := s.releaseFragment root) ?_
    rcases h with hnone | hmem
    · exact .inl (lookup_releaseFragment_of_none hnone root)
    · rcases List.mem_cons.mp hmem with rfl | hmem
      · exact .inl (lookup_releaseFragment_self s x)
      · exact .inr hmem

variable {inbox : List Message}

theorem stray_dropMessage : { s with inbox }.Stray x ↔ s.Stray x :=
  ⟨fun h => ⟨⟨h.adrift.tree, h.adrift.not_aside⟩, h.not_loose, h.not_pending⟩,
    fun h => ⟨⟨h.adrift.tree, h.adrift.not_aside⟩, h.not_loose, h.not_pending⟩⟩

theorem holds_dropMessage (h : s.inbox = m :: inbox) (hroot : root ∉ m.task.fragments)
    (hs : s.Holds g root) : { s with inbox }.Holds g root := by
  rcases hs with hw | ⟨n, hn, hg, hfragment⟩
  · exact .inl hw
  · rcases List.mem_cons.mp (h ▸ hn) with rfl | hn
    · exact absurd hfragment hroot
    · exact .inr ⟨n, hn, hg, hfragment⟩

theorem owned_dropMessage (h : s.inbox = m :: inbox) (hnone : m.task.fragments = []) (ho : s.Owned) :
    Owned { s with inbox } where
  stray x hx := ho.stray x (stray_dropMessage.mp hx)
  held root hroot := by
    obtain ⟨g, hg⟩ := ho.held root hroot
    exact ⟨g, holds_dropMessage h (by simp [hnone]) hg⟩
  emptied := ho.emptied

/-- The fragments of a list that has ended are released as the message that has them goes. -/
theorem owned_released (h : s.inbox = m :: inbox) {roots : List WidgetId}
    (htask : m.task = .notice (.release roots)) (hs : s.Sound) (ho : s.Owned) :
    ({ s with inbox }.releaseFragments roots).Owned := by
  have hrest : Sound { s with inbox } := sound_dropMessage hs inbox
  have hquiet : Quiet { s with inbox } ({ s with inbox }.releaseFragments roots) :=
    (keeps_releaseFragments roots).quiet
  obtain ⟨-, hspares⟩ := (guards_releaseFragments roots).secures hrest.toSteady
  refine ⟨fun x hx => ?_, fun root hroot => ?_, hquiet.emptied ho.emptied⟩
  · exact ho.stray x (stray_dropMessage.mp (hspares.stray x hx))
  · have hkept : root ∉ m.task.fragments := by
      rw [htask]
      exact fun hmem => hroot (lookup_releaseFragments (.inr hmem))
    obtain ⟨g, hg⟩ := ho.held root fun hnone => hroot (hspares.pending root hnone)
    exact ⟨g, hquiet.holds (holds_dropMessage h hkept hg)⟩

end messages

/-- If a turn loads a fragment, its rules can all be read. -/
def LoadsReadably (s : Session σ) : Turn σ → Prop
  | .message => ∀ m inbox, s.inbox = m :: inbox → m.task = .answer →
      ∀ w ∈ s.workers, w.id = m.sender → ∀ q k, w.phase = .asking q k →
        { s with inbox }.AnswersReadably transport q
  | _ => True

theorem owned_handleNext (hs : s.Sound) (hc : s.Consistent) (ho : s.Owned)
    (hreadable : s.LoadsReadably transport .message) : (s.handleNext transport).Owned := by
  obtain ⟨-, h⟩ | ⟨m, inbox, hinbox, hcases⟩ := handleNext_outcomes transport s
  · rw [h]
    exact ho
  · have hrest : Sound { s with inbox } := sound_dropMessage hs inbox
    obtain ⟨htask, h⟩ | ⟨roots, htask, h⟩ | ⟨e, htask, h⟩ := hcases <;> rw [h]
    · have hdrop := owned_dropMessage hinbox (by rw [htask]; rfl) ho
      exact owned_answerWorker transport hrest ((leads_dropMessage hinbox) hc).1 hdrop m.started
        (hreadable m inbox hinbox htask)
    · exact owned_released hinbox htask hs ho
    · have hdrop := owned_dropMessage hinbox (by rw [htask]; rfl) ho
      obtain ⟨-, hspares⟩ := (guards_report e).secures hrest.toSteady
      exact hdrop.of_spares hspares (acts_report e).2

theorem owned_after (hs : s.Sound) (hc : s.Consistent) (ho : s.Owned) {turn : Turn σ}
    (hreadable : s.LoadsReadably transport turn) : (s.after transport turn).Owned := by
  cases turn with
  | message => exact owned_handleNext transport hs hc ho hreadable
  | worker id => exact owned_takeTurn transport hc ho hs.toSteady id
  | _ =>
    exact ho.of_spares (secures_after transport (by simp) (by simp) hs.toSteady).2
      (acts_after transport (by simp) (by simp)).2

/-- All rules of the fragments that some turns load can be read. -/
def RunsReadably : Session σ → List (Turn σ) → Prop
  | _, [] => True
  | s, turn :: turns => s.LoadsReadably transport turn ∧ (s.after transport turn).RunsReadably turns

theorem owned_afterAll (hs : s.Sound) (hc : s.Consistent) (ho : s.Owned) {turns : List (Turn σ)}
    (hreadable : s.RunsReadably transport turns) : (s.afterAll transport turns).Owned := by
  induction turns generalizing s with
  | nil => exact ho
  | cons turn turns ih =>
    have hnext := owned_after transport hs hc ho hreadable.1
    exact ih (sound_after transport hs turn) ((leads_after transport turn) hc).1 hnext hreadable.2

theorem owned_start {config : Config} {network : σ} (h : start config network = .ok s) : s.Owned := by
  obtain ⟨url, -, rfl⟩ := start_eq_ok h
  refine ⟨fun x hx => ?_, fun root hroot => absurd rfl hroot, fun w hw => absurd hw List.not_mem_nil⟩
  exact Tree.not_unused_of_contains hx.adrift.tree.live (Nat.zero_le _)

end Hypermedia.Session
