import Hypermedia.Proofs.Effect
import Hypermedia.Proofs.Tree.Run
import Hypermedia.Session.Schedule
import Mathlib.Data.List.Nodup

/-! The books of a session: action lists, their messages and fragments agree with its page changes. -/
namespace Hypermedia.Session

variable {σ : Type} {s t u : Session σ} {w v : Worker} {m : Message} {root : WidgetId}

/-- The fragments that a notice gives back. -/
def Notice.fragments : Notice → List WidgetId
  | .release fragments => fragments
  | .report _ => []

/-- The fragments that a task gives back. -/
def Task.fragments : Task → List WidgetId
  | .answer => []
  | .notice n => n.fragments

/-- The fragments that an action list which has ended is about to give back. -/
def Phase.fragments : Phase → List WidgetId
  | .leaving notices => notices.flatMap Notice.fragments
  | .ready _ | .asking _ _ | .fetching _ _ => []

/-- The fragments that an action list has loaded or is about to give back. -/
def Worker.fragments (w : Worker) : List WidgetId :=
  w.loaded ++ w.phase.fragments

/-- A fragment is with an action list started after page change `g`, or on its way from one. -/
def Holds (s : Session σ) (g : Nat) (root : WidgetId) : Prop :=
  (∃ w ∈ s.workers, w.generation = g ∧ root ∈ w.fragments) ∨
    ∃ m ∈ s.inbox, m.started = g ∧ root ∈ m.task.fragments

/-- What holds of action lists and messages between any two turns. -/
structure Consistent (s : Session σ) : Prop where
  nodup : (s.workers.map (·.id)).Nodup
  id_lt : ∀ w ∈ s.workers, w.id < s.nextWorker
  generation_le : ∀ w ∈ s.workers, w.generation ≤ s.generation
  /-- A list of an earlier page has no step left. -/
  cleared : ∀ w ∈ s.workers, w.generation ≠ s.generation → w.steps = []
  sender_lt : ∀ m ∈ s.inbox, m.sender < s.nextWorker
  started_le : ∀ m ∈ s.inbox, m.started ≤ s.generation
  sender : ∀ m ∈ s.inbox, ∀ w ∈ s.workers, w.id = m.sender → w.generation = m.started
  allocated : ∀ g root, s.Holds g root → root.index < s.tree.slots.size
  /-- A fragment of an earlier page does not wait for a place. -/
  dropped : ∀ g root, s.Holds g root → g ≠ s.generation → s.pending.lookup root = none

/-- `t` can come after `s`: no page change is undone, and lists of `t` are those of `s` or new. -/
structure Follows (s t : Session σ) : Prop where
  generation_le : s.generation ≤ t.generation
  nextWorker_le : s.nextWorker ≤ t.nextWorker
  origin : ∀ v ∈ t.workers,
    (∃ w ∈ s.workers, w.id = v.id ∧ w.generation = v.generation) ∨ s.nextWorker ≤ v.id

/-- A step from `s` to `t` keeps the books in order. -/
def Leads (s t : Session σ) : Prop :=
  s.Consistent → t.Consistent ∧ s.Follows t

theorem Follows.refl (s : Session σ) : s.Follows s :=
  ⟨Nat.le_refl _, Nat.le_refl _, fun v hv => .inl ⟨v, hv, rfl, rfl⟩⟩

theorem Follows.trans (h : s.Follows t) (k : t.Follows u) : s.Follows u where
  generation_le := Nat.le_trans h.generation_le k.generation_le
  nextWorker_le := Nat.le_trans h.nextWorker_le k.nextWorker_le
  origin v hv := by
    rcases k.origin v hv with ⟨w, hw, hid, hg⟩ | hnew
    · rcases h.origin w hw with ⟨x, hx, hxid, hxg⟩ | hnew
      · exact .inl ⟨x, hx, hxid.trans hid, hxg.trans hg⟩
      · exact .inr (hid ▸ hnew)
    · exact .inr (Nat.le_trans h.nextWorker_le hnew)

theorem Leads.refl (s : Session σ) : s.Leads s :=
  fun h => ⟨h, .refl s⟩

theorem Leads.trans (h : s.Leads t) (k : t.Leads u) : s.Leads u := by
  intro hs
  obtain ⟨ht, hst⟩ := h hs
  obtain ⟨hu, htu⟩ := k ht
  exact ⟨hu, hst.trans htu⟩

section acts

/-- Whether an action list waits for an answer. -/
def Phase.isAsking : Phase → Bool
  | .asking _ _ => true
  | .ready _ | .fetching _ _ | .leaving _ => false

/-- An action list that was started in `s` or later and has not had a turn. -/
structure Worker.Unstarted (s : Session σ) (w : Worker) : Prop where
  id : s.nextWorker ≤ w.id
  generation : s.generation ≤ w.generation
  phase : w.phase = .ready (.done none)
  result : w.result = none
  loaded : w.loaded = []

/-- No message comes or goes, and no list goes on: lists lose steps at most, and new ones may be
started. -/
structure Quiet (s t : Session σ) : Prop where
  inbox : t.inbox = s.inbox
  generation_le : s.generation ≤ t.generation
  nextWorker_le : s.nextWorker ≤ t.nextWorker
  kept : ∀ w ∈ s.workers, ∃ v ∈ t.workers, v = { w with steps := v.steps }
  origin : ∀ v ∈ t.workers, (∃ w ∈ s.workers, v = { w with steps := v.steps }) ∨ v.Unstarted s

theorem Quiet.refl (s : Session σ) : s.Quiet s :=
  ⟨rfl, Nat.le_refl _, Nat.le_refl _, fun w hw => ⟨w, hw, rfl⟩, fun v hv => .inl ⟨v, hv, rfl⟩⟩

theorem Quiet.trans (h : s.Quiet t) (k : t.Quiet u) : s.Quiet u where
  inbox := k.inbox.trans h.inbox
  generation_le := Nat.le_trans h.generation_le k.generation_le
  nextWorker_le := Nat.le_trans h.nextWorker_le k.nextWorker_le
  kept w hw := by
    obtain ⟨v, hv, hvw⟩ := h.kept w hw
    obtain ⟨x, hx, hxv⟩ := k.kept v hv
    exact ⟨x, hx, by rw [hxv, hvw]⟩
  origin x hx := by
    rcases k.origin x hx with ⟨v, hv, hxv⟩ | hnew
    · rcases h.origin v hv with ⟨w, hw, hvw⟩ | hnew
      · exact .inl ⟨w, hw, by rw [hxv, hvw]⟩
      · rw [hxv]
        exact .inr ⟨hnew.id, hnew.generation, hnew.phase, hnew.result, hnew.loaded⟩
    · exact .inr ⟨Nat.le_trans h.nextWorker_le hnew.id,
        Nat.le_trans h.generation_le hnew.generation, hnew.phase, hnew.result, hnew.loaded⟩

/-- What the session does by itself: the books stay in order, and no list is spoken to. -/
def Acts (s t : Session σ) : Prop :=
  s.Leads t ∧ s.Quiet t

theorem Acts.refl (s : Session σ) : s.Acts s :=
  ⟨.refl s, .refl s⟩

theorem Acts.trans (h : s.Acts t) (k : t.Acts u) : s.Acts u :=
  ⟨h.1.trans k.1, h.2.trans k.2⟩

instance : IsPreorder (Session σ) Acts where
  refl := Acts.refl
  trans _ _ _ := Acts.trans

end acts

section keeps

/-- Lists and messages stay as they are, the tree loses no place, and fragments that begin to wait
for a place are new. -/
structure Keeps (s t : Session σ) : Prop where
  generation : t.generation = s.generation
  workers : t.workers = s.workers
  nextWorker : t.nextWorker = s.nextWorker
  inbox : t.inbox = s.inbox
  size_le : s.tree.slots.size ≤ t.tree.slots.size
  pending : ∀ root : WidgetId, root.index < s.tree.slots.size →
    s.pending.lookup root = none → t.pending.lookup root = none

theorem Keeps.refl (s : Session σ) : s.Keeps s :=
  ⟨rfl, rfl, rfl, rfl, Nat.le_refl _, fun _ _ h => h⟩

theorem Keeps.trans (h : s.Keeps t) (k : t.Keeps u) : s.Keeps u where
  generation := k.generation.trans h.generation
  workers := k.workers.trans h.workers
  nextWorker := k.nextWorker.trans h.nextWorker
  inbox := k.inbox.trans h.inbox
  size_le := Nat.le_trans h.size_le k.size_le
  pending root hlt hs := k.pending root (Nat.lt_of_lt_of_le hlt h.size_le) (h.pending root hlt hs)

instance : IsPreorder (Session σ) Keeps where
  refl := Keeps.refl
  trans _ _ _ := Keeps.trans

theorem Keeps.holds (h : s.Keeps t) {g : Nat} (ht : t.Holds g root) : s.Holds g root := by
  unfold Holds at *
  rwa [← h.workers, ← h.inbox]

theorem Keeps.leads (h : s.Keeps t) : s.Leads t := by
  intro hs
  refine ⟨⟨?_, ?_, ?_, ?_, ?_, ?_, ?_, ?_, ?_⟩, ?_, ?_, ?_⟩
  · rw [h.workers]
    exact hs.nodup
  · rw [h.workers, h.nextWorker]
    exact hs.id_lt
  · rw [h.workers, h.generation]
    exact hs.generation_le
  · rw [h.workers, h.generation]
    exact hs.cleared
  · rw [h.inbox, h.nextWorker]
    exact hs.sender_lt
  · rw [h.inbox, h.generation]
    exact hs.started_le
  · rw [h.inbox, h.workers]
    exact hs.sender
  · intro g root hroot
    exact Nat.lt_of_lt_of_le (hs.allocated g root (h.holds hroot)) h.size_le
  · intro g root hroot hg
    have hold := h.holds hroot
    exact h.pending root (hs.allocated g root hold) (hs.dropped g root hold (h.generation ▸ hg))
  · exact Nat.le_of_eq h.generation.symm
  · exact Nat.le_of_eq h.nextWorker.symm
  · intro v hv
    exact .inl ⟨v, h.workers ▸ hv, rfl, rfl⟩

theorem Keeps.quiet (h : s.Keeps t) : s.Quiet t where
  inbox := h.inbox
  generation_le := Nat.le_of_eq h.generation.symm
  nextWorker_le := Nat.le_of_eq h.nextWorker.symm
  kept w hw := ⟨w, h.workers ▸ hw, rfl⟩
  origin v hv := .inl ⟨v, h.workers ▸ hv, rfl⟩

theorem Keeps.acts (h : s.Keeps t) : s.Acts t :=
  ⟨h.leads, h.quiet⟩

/-- A change of the tree that takes no place away. -/
theorem keeps_tree {tree : Tree} (h : s.tree.slots.size ≤ tree.slots.size) :
    s.Keeps { s with tree } :=
  ⟨rfl, rfl, rfl, rfl, h, fun _ _ h => h⟩

end keeps

section workers

/-- `v` goes on from `w` in session `s`: fragments it did not have are in the tree, and its page is
the one shown. -/
structure Worker.Continues (s : Session σ) (w v : Worker) : Prop where
  id : v.id = w.id
  generation : v.generation = w.generation
  steps : w.steps = [] → v.steps = []
  fragments : ∀ root ∈ v.fragments,
    root ∈ w.fragments ∨ w.generation = s.generation ∧ root.index < s.tree.slots.size

theorem Worker.Continues.refl (s : Session σ) (w : Worker) : w.Continues s w :=
  ⟨rfl, rfl, fun h => h, fun _ h => .inl h⟩

/-- A list in another phase, in which it gives back nothing that it does not have. -/
theorem Worker.Continues.phase {p : Phase} (hp : p.fragments ⊆ w.fragments) :
    w.Continues s { w with phase := p } :=
  ⟨rfl, rfl, fun h => h, fun root hroot => .inl <| by
    rcases List.mem_append.mp hroot with hloaded | hback
    · exact List.mem_append_left _ hloaded
    · exact hp hback⟩

theorem holds_map {f : Worker → Worker} (hf : ∀ w ∈ s.workers, w.Continues s (f w)) {g : Nat}
    (h : { s with workers := s.workers.map f }.Holds g root) :
    s.Holds g root ∨ g = s.generation ∧ root.index < s.tree.slots.size := by
  rcases h with ⟨v, hv, hg, hroot⟩ | hm
  · obtain ⟨w, hw, rfl⟩ := List.mem_map.mp hv
    rw [(hf w hw).generation] at hg
    rcases (hf w hw).fragments root hroot with hold | ⟨hnow, hlt⟩
    · exact .inl (.inl ⟨w, hw, hg, hold⟩)
    · exact .inr ⟨hg ▸ hnow, hlt⟩
  · exact .inl (.inr hm)

theorem leads_mapWorkers {f : Worker → Worker} (hf : ∀ w ∈ s.workers, w.Continues s (f w)) :
    s.Leads { s with workers := s.workers.map f } := by
  intro hs
  have hids : (s.workers.map f).map (·.id) = s.workers.map (·.id) := by
    rw [List.map_map]
    exact List.map_congr_left fun w hw => (hf w hw).id
  refine ⟨⟨?_, ?_, ?_, ?_, hs.sender_lt, hs.started_le, ?_, ?_, ?_⟩, Nat.le_refl _, Nat.le_refl _, ?_⟩
  · rw [hids]
    exact hs.nodup
  · refine List.forall_mem_map.mpr fun w hw => ?_
    rw [(hf w hw).id]
    exact hs.id_lt w hw
  · refine List.forall_mem_map.mpr fun w hw => ?_
    rw [(hf w hw).generation]
    exact hs.generation_le w hw
  · refine List.forall_mem_map.mpr fun w hw hg => (hf w hw).steps ?_
    exact hs.cleared w hw ((hf w hw).generation ▸ hg)
  · intro m hm
    refine List.forall_mem_map.mpr fun w hw hid => ?_
    rw [(hf w hw).generation]
    exact hs.sender m hm w hw ((hf w hw).id ▸ hid)
  · intro g root h
    rcases holds_map hf h with hold | ⟨-, hlt⟩
    · exact hs.allocated g root hold
    · exact hlt
  · intro g root h hg
    rcases holds_map hf h with hold | ⟨hnow, -⟩
    · exact hs.dropped g root hold hg
    · exact absurd hnow hg
  · refine List.forall_mem_map.mpr fun w hw => .inl ⟨w, hw, ?_, ?_⟩
    · exact (hf w hw).id.symm
    · exact (hf w hw).generation.symm

theorem leads_modifyWorker {id : Nat} {f : Worker → Worker}
    (hf : ∀ w ∈ s.workers, w.id = id → w.Continues s (f w)) : s.Leads (s.modifyWorker id f) := by
  refine leads_mapWorkers fun w hw => ?_
  split
  · next hid => exact hf w hw hid
  · exact .refl s w

theorem holds_startActions {actions : List Action.Instruction} {caller : WidgetId} {g : Nat}
    (h : (s.startActions actions caller).Holds g root) : s.Holds g root := by
  rcases h with ⟨v, hv, hg, hroot⟩ | hm
  · rcases List.mem_append.mp hv with hv | hv
    · exact .inl ⟨v, hv, hg, hroot⟩
    · obtain rfl := List.mem_singleton.mp hv
      simp [Worker.fragments, Phase.fragments] at hroot
  · exact .inr hm

theorem leads_startActions (actions : List Action.Instruction) (caller : WidgetId) :
    s.Leads (s.startActions actions caller) := by
  intro hs
  have hlt : ∀ w ∈ s.workers, w.id < s.nextWorker + 1 := fun w hw =>
    Nat.lt_succ_of_lt (hs.id_lt w hw)
  refine ⟨⟨?_, ?_, ?_, ?_, ?_, hs.started_le, ?_, ?_, ?_⟩, Nat.le_refl _, Nat.le_succ _, ?_⟩
  · have hfresh : ∀ id ∈ s.workers.map (·.id), id ≠ s.nextWorker :=
      List.forall_mem_map.mpr fun w hw => Nat.ne_of_lt (hs.id_lt w hw)
    simpa [startActions, List.nodup_append] using ⟨hs.nodup, by simpa using hfresh⟩
  · exact List.forall_mem_append.mpr ⟨hlt, List.forall_mem_singleton.mpr (Nat.lt_succ_self _)⟩
  · exact List.forall_mem_append.mpr ⟨hs.generation_le, List.forall_mem_singleton.mpr (Nat.le_refl _)⟩
  · refine List.forall_mem_append.mpr ⟨hs.cleared, List.forall_mem_singleton.mpr fun hg => ?_⟩
    exact absurd rfl hg
  · exact fun m hm => Nat.lt_succ_of_lt (hs.sender_lt m hm)
  · intro m hm
    refine List.forall_mem_append.mpr ⟨hs.sender m hm, List.forall_mem_singleton.mpr fun hid => ?_⟩
    exact absurd hid.symm (Nat.ne_of_lt (hs.sender_lt m hm))
  · exact fun g root h => hs.allocated g root (holds_startActions h)
  · exact fun g root h => hs.dropped g root (holds_startActions h)
  · refine List.forall_mem_append.mpr ⟨fun v hv => ?_, List.forall_mem_singleton.mpr ?_⟩
    · exact .inl ⟨v, hv, rfl, rfl⟩
    · exact .inr (Nat.le_refl _)

theorem acts_startActions (actions : List Action.Instruction) (caller : WidgetId) :
    s.Acts (s.startActions actions caller) := by
  refine ⟨leads_startActions actions caller, rfl, Nat.le_refl _, Nat.le_succ _, fun w hw => ?_, ?_⟩
  · exact ⟨w, List.mem_append_left _ hw, rfl⟩
  · refine List.forall_mem_append.mpr ⟨fun v hv => ?_, List.forall_mem_singleton.mpr ?_⟩
    · exact .inl ⟨v, hv, rfl⟩
    · exact .inr ⟨Nat.le_refl _, Nat.le_refl _, rfl, rfl, rfl⟩

theorem leads_dismissWorker (id : Nat) : s.Leads (s.dismissWorker id) := by
  intro hs
  have hmem : ∀ w ∈ (s.dismissWorker id).workers, w ∈ s.workers := fun w hw =>
    List.mem_of_mem_filter hw
  have hholds : ∀ g root, (s.dismissWorker id).Holds g root → s.Holds g root := by
    rintro g root (⟨w, hw, hwroot⟩ | hm)
    · exact .inl ⟨w, hmem w hw, hwroot⟩
    · exact .inr hm
  refine ⟨⟨?_, ?_, ?_, ?_, hs.sender_lt, hs.started_le, ?_, ?_, ?_⟩, Nat.le_refl _, Nat.le_refl _, ?_⟩
  · exact hs.nodup.sublist (List.filter_sublist.map _)
  · exact fun w hw => hs.id_lt w (hmem w hw)
  · exact fun w hw => hs.generation_le w (hmem w hw)
  · exact fun w hw => hs.cleared w (hmem w hw)
  · exact fun m hm w hw => hs.sender m hm w (hmem w hw)
  · exact fun g root h => hs.allocated g root (hholds g root h)
  · exact fun g root h => hs.dropped g root (hholds g root h)
  · exact fun v hv => .inl ⟨v, hmem v hv, rfl, rfl⟩

/-- How a session begins. -/
theorem start_eq_ok {config : Config} {network : σ} (h : start config network = .ok s) :
    ∃ url, Url.parse config.endpoint = .ok url ∧
      s = { config, network, url
            document := (Script.World.initial.scopes.add none).1
            world := { Script.World.initial with scopes := (Script.World.initial.scopes.add none).2 }
            history := .ofLimit config.historyLimit
            title := config.title } := by
  unfold start at h
  split at h
  · cases h
  · next url hurl =>
    cases h
    exact ⟨url, hurl, rfl⟩

theorem idle_start {config : Config} {network : σ} (h : start config network = .ok s) :
    s.workers = [] ∧ s.inbox = [] := by
  obtain ⟨url, -, rfl⟩ := start_eq_ok h
  exact ⟨rfl, rfl⟩

/-- A session without lists and messages is in order. -/
theorem consistent_of_idle (hw : s.workers = []) (hm : s.inbox = []) : s.Consistent := by
  have hholds : ∀ g root, ¬ s.Holds g root := by
    simp [Holds, hw, hm]
  refine ⟨?_, ?_, ?_, ?_, ?_, ?_, ?_, ?_, ?_⟩
  · simp [hw]
  · simp [hw]
  · simp [hw]
  · simp [hw]
  · simp [hm]
  · simp [hm]
  · simp [hm]
  · exact fun g root h => absurd h (hholds g root)
  · exact fun g root h => absurd h (hholds g root)

theorem Consistent.eq_of_id (h : s.Consistent) (hv : v ∈ s.workers) (hw : w ∈ s.workers)
    (hid : v.id = w.id) : v = w :=
  List.inj_on_of_nodup_map h.nodup hv hw hid

/-- A list never comes to belong to another page. -/
theorem Follows.generation_eq (h : s.Follows t) (hs : s.Consistent) (hw : w ∈ s.workers)
    (hv : v ∈ t.workers) (hid : v.id = w.id) : v.generation = w.generation := by
  rcases h.origin v hv with ⟨u, hu, huid, hug⟩ | hnew
  · rw [← hug, hs.eq_of_id hu hw (huid.trans hid)]
  · exact absurd (hs.id_lt w hw) (Nat.not_lt_of_le (hid ▸ hnew))

theorem worker_of_find? {id : Nat} (h : s.workers.find? (·.id = id) = some w) :
    w ∈ s.workers ∧ w.id = id :=
  ⟨List.mem_of_find?_eq_some h, by simpa using List.find?_some h⟩

theorem ne_of_find?_none {id : Nat} (h : s.workers.find? (·.id = id) = none)
    (hw : w ∈ s.workers) : w.id ≠ id := by
  simpa using List.find?_eq_none.mp h w hw

theorem Consistent.find?_worker (hs : s.Consistent) (hw : w ∈ s.workers) :
    s.workers.find? (·.id = w.id) = some w := by
  cases h : s.workers.find? (·.id = w.id) with
  | none => exact absurd rfl (ne_of_find?_none h hw)
  | some v =>
    obtain ⟨hv, hid⟩ := worker_of_find? h
    rw [hs.eq_of_id hv hw hid]

/-- A list sends a task that gives back only what the list has. -/
theorem leads_post (hw : w ∈ s.workers) (task : Task) (ht : task.fragments ⊆ w.fragments) :
    s.Leads (s.post w task) := by
  intro hs
  have hholds : ∀ g root, (s.post w task).Holds g root → s.Holds g root := by
    rintro g root (hold | ⟨m, hm, hg, hroot⟩)
    · exact .inl hold
    · rcases List.mem_append.mp hm with hm | hm
      · exact .inr ⟨m, hm, hg, hroot⟩
      · obtain rfl := List.mem_singleton.mp hm
        exact .inl ⟨w, hw, hg, ht hroot⟩
  refine ⟨⟨hs.nodup, hs.id_lt, hs.generation_le, hs.cleared, ?_, ?_, ?_, ?_, ?_⟩,
    Nat.le_refl _, Nat.le_refl _, fun v hv => .inl ⟨v, hv, rfl, rfl⟩⟩
  · exact List.forall_mem_append.mpr ⟨hs.sender_lt, List.forall_mem_singleton.mpr (hs.id_lt w hw)⟩
  · exact List.forall_mem_append.mpr
      ⟨hs.started_le, List.forall_mem_singleton.mpr (hs.generation_le w hw)⟩
  · refine List.forall_mem_append.mpr ⟨hs.sender, List.forall_mem_singleton.mpr ?_⟩
    intro v hv hid
    rw [hs.eq_of_id hv hw hid]
  · exact fun g root h => hs.allocated g root (hholds g root h)
  · exact fun g root h => hs.dropped g root (hholds g root h)

theorem leads_dropMessage {inbox : List Message} (h : s.inbox = m :: inbox) :
    s.Leads { s with inbox } := by
  intro hs
  have hmem : ∀ n ∈ inbox, n ∈ s.inbox := fun n hn => h ▸ List.mem_cons_of_mem m hn
  have hholds : ∀ g root, { s with inbox }.Holds g root → s.Holds g root := by
    rintro g root (hold | ⟨n, hn, hroot⟩)
    · exact .inl hold
    · exact .inr ⟨n, hmem n hn, hroot⟩
  refine ⟨⟨hs.nodup, hs.id_lt, hs.generation_le, hs.cleared, ?_, ?_, ?_, ?_, ?_⟩,
    Nat.le_refl _, Nat.le_refl _, fun v hv => .inl ⟨v, hv, rfl, rfl⟩⟩
  · exact fun n hn => hs.sender_lt n (hmem n hn)
  · exact fun n hn => hs.started_le n (hmem n hn)
  · exact fun n hn => hs.sender n (hmem n hn)
  · exact fun g root h => hs.allocated g root (hholds g root h)
  · exact fun g root h => hs.dropped g root (hholds g root h)

end workers

section pages

/-- With the steps of all lists dropped and no fragment waiting, a page change leaves the books in
order. -/
theorem leads_cancelInFlight : s.Leads s.cancelInFlight := by
  intro hs
  have hcleared : s.Leads { s with workers := s.workers.map fun w => { w with steps := [] } } :=
    leads_mapWorkers fun w _ => ⟨rfl, rfl, fun _ => rfl, fun _ h => .inl h⟩
  obtain ⟨hc, hfollows⟩ := hcleared hs
  refine ⟨⟨hc.nodup, hc.id_lt, ?_, ?_, hc.sender_lt, ?_, hc.sender, ?_, fun _ _ _ _ => rfl⟩,
    Nat.le_succ _, Nat.le_refl _, hfollows.origin⟩
  · exact fun w hw => Nat.le_succ_of_le (hc.generation_le w hw)
  · intro w hw _
    obtain ⟨v, -, rfl⟩ := List.mem_map.mp hw
    rfl
  · exact fun m hm => Nat.le_succ_of_le (hc.started_le m hm)
  · intro g root h
    have hsize : s.cancelInFlight.tree.slots.size = s.tree.slots.size := Tree.size_removeAll
    rw [hsize]
    exact hc.allocated g root h

theorem acts_cancelInFlight : s.Acts s.cancelInFlight := by
  refine ⟨leads_cancelInFlight, rfl, Nat.le_succ _, Nat.le_refl _, fun w hw => ?_, ?_⟩
  · exact ⟨_, List.mem_map_of_mem hw, rfl⟩
  · exact List.forall_mem_map.mpr fun w hw => .inl ⟨w, hw, rfl⟩

/-- A report leads along a relation that noting an error, cancelling what is under way and halting lead along. -/
theorem along_report {R : Session σ → Session σ → Prop} [IsPreorder (Session σ) R]
    (hnote : ∀ (s : Session σ) errors, R s { s with errors })
    (hcancel : ∀ s : Session σ, R s s.cancelInFlight)
    (hhalt : ∀ s : Session σ, R s { s with halted := true, timers := [] })
    (s : Session σ) (e : Error) : R s (s.report e) := by
  unfold report
  split
  · exact Std.Refl.refl s
  · have hnoted : R s { s with errors := s.errors ++ [e] } := hnote s _
    dsimp only
    split
    · have hcancelled := IsTrans.trans _ _ _ hnoted (hcancel _)
      exact IsTrans.trans _ _ _ hcancelled (hhalt _)
    · exact hnoted

/-- Releasing fragments leads along a relation that dropping one that is pending leads along. -/
theorem along_releaseFragments {R : Session σ → Session σ → Prop} [IsPreorder (Session σ) R]
    (hdrop : ∀ (s : Session σ) root, (s.pending.lookup root).isSome = true →
      R s { (s.takePending root).2 with tree := s.tree.remove root })
    (s : Session σ) (roots : List WidgetId) : R s (s.releaseFragments roots) := by
  refine Effect.along_foldl (fun s root => ?_) s roots
  unfold releaseFragment
  split
  · next hpending => exact hdrop s root hpending
  · exact Std.Refl.refl s

theorem acts_report (e : Error) : s.Acts (s.report e) :=
  along_report (fun _ _ => Keeps.acts ⟨rfl, rfl, rfl, rfl, Nat.le_refl _, fun _ _ h => h⟩)
    (fun _ => acts_cancelInFlight)
    (fun _ => Keeps.acts ⟨rfl, rfl, rfl, rfl, Nat.le_refl _, fun _ _ h => h⟩) s e

end pages

end Hypermedia.Session
