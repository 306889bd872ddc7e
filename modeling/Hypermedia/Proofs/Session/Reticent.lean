import Hypermedia.Proofs.Script.Owners
import Hypermedia.Proofs.Session.Secluded

/-! Reticent sessions: scripts name no widget of a fragment that waits for a place, and no widget has got two
scopes. What scripts do leaves it so, and so do lists that start or end. -/
namespace Hypermedia.Session

open Effect (Moves)
open Script (Confined Failure World)

variable {σ : Type} {s t u : Session σ} {x id : WidgetId} {K K' : WidgetId → Prop}

/-- Scripts name open widgets only, and of these each has got one scope at most. -/
structure Reticent (s : Session σ) : Prop extends Secluded s where
  world : Confined s.Open s.world
  nodup_owners : s.world.scopes.owners.Nodup
  owners : ∀ x ∈ s.world.scopes.owners, s.Open x

/-- `t` can come after `s`: it is reticent, what was open is open, and no widget has got a scope. -/
structure Heeds (s t : Session σ) : Prop where
  reticent : t.Reticent
  size_le : s.tree.slots.size ≤ t.tree.slots.size
  opened : ∀ x, s.Open x → t.Open x
  owners : t.world.scopes.owners = s.world.scopes.owners

/-- A step that touches widgets of `K`, and heeds the fragments that wait if these are open. -/
def Respects (K : WidgetId → Prop) (s t : Session σ) : Prop :=
  s.Reticent → (∀ x, K x → s.Open x) → s.Heeds t

theorem Reticent.heeds (hs : s.Reticent) : s.Heeds s :=
  ⟨hs, Nat.le_refl _, fun _ hx => hx, rfl⟩

theorem Heeds.trans (h : s.Heeds t) (k : t.Heeds u) : s.Heeds u :=
  ⟨k.reticent, Nat.le_trans h.size_le k.size_le, fun x hx => k.opened x (h.opened x hx), k.owners.trans h.owners⟩

theorem Respects.trans (h : s.Respects K t) (k : t.Respects K u) : s.Respects K u := by
  intro hs hK
  have ht := h hs hK
  exact ht.trans (k ht.reticent fun x hx => ht.opened x (hK x hx))

instance : IsPreorder (Session σ) (Respects K) where
  refl _ hs _ := hs.heeds
  trans _ _ _ := .trans

/-- A step that touches nothing. -/
theorem Heeds.of_respects (hs : s.Reticent) (h : s.Respects (fun _ => False) t) : s.Heeds t :=
  h hs nofun

/-- What a step touches need not be said where it is open anyway. -/
theorem Respects.of_open (h : s.Respects K t) (hK : s.Reticent → (∀ x, K' x → s.Open x) → ∀ x, K x → s.Open x) :
    s.Respects K' t :=
  fun hs hK' => h hs (hK hs hK')

section steps

theorem not_withheld (hK : ∀ x, K x → s.Open x) (hid : K id) : ¬ s.Withheld id :=
  (hK id hid).2

theorem known_later (hsize : s.tree.slots.size ≤ t.tree.slots.size) (hx : s.Known x) : t.Known x :=
  fun hunused => hx (hunused.of_size_le hsize)

/-- A step that leaves the world alone and the fragments apart. -/
theorem Reticent.heeds_of_secluded (hs : s.Reticent) (ht : t.Secluded)
    (hsize : s.tree.slots.size ≤ t.tree.slots.size) (hless : ∀ x, s.Open x → ¬ t.Withheld x)
    (hworld : t.world = s.world) : s.Heeds t := by
  have hopen : ∀ x, s.Open x → t.Open x := fun x hx => ⟨known_later hsize hx.1, hless x hx⟩
  refine ⟨⟨ht, ?_, ?_, ?_⟩, hsize, hopen, congrArg (·.scopes.owners) hworld⟩
  · exact hworld ▸ hs.world.mono hopen
  · exact hworld ▸ hs.nodup_owners
  · exact hworld ▸ fun x hx => hopen x (hs.owners x hx)

theorem respects_of_secluded (hsize : s.tree.slots.size ≤ t.tree.slots.size)
    (hless : ∀ x, t.Withheld x → s.Withheld x) (hworld : t.world = s.world)
    (ht : s.Secluded → (∀ x, K x → s.Open x) → t.Secluded) : s.Respects K t := fun hs hK =>
  hs.heeds_of_secluded (ht hs.toSecluded hK) hsize (fun x hx => mt (hless x) hx.2) hworld

/-- A step of the tree alone. -/
theorem respects_tree {tree : Tree} (hsize : s.tree.slots.size ≤ tree.slots.size)
    (h : s.Secluded → (∀ x, K x → s.Open x) → Tree.Shields s.Withheld s.tree tree) :
    s.Respects K { s with tree } :=
  respects_of_secluded hsize (fun _ => id) rfl fun hs hK => hs.withTree (h hs hK)

theorem respects_of_eq (htree : t.tree = s.tree) (hpending : t.pending = s.pending) (hloose : t.loose = s.loose)
    (hworld : t.world = s.world) : s.Respects K t :=
  respects_of_secluded (by rw [htree]) (fun _ => (withheld_of_eq hpending).mp) hworld fun hs _ =>
    hs.congr htree hpending hloose

/-- A step of the world alone. -/
theorem respects_world {world : World}
    (h : s.Reticent → (∀ x, K x → s.Open x) → Confined s.Open world)
    (howners : world.scopes.owners = s.world.scopes.owners) : s.Respects K { s with world } := by
  intro hs hK
  refine ⟨⟨hs.toSecluded.congr rfl rfl rfl, h hs hK, ?_, ?_⟩, Nat.le_refl _, fun _ hx => hx, howners⟩
  · exact howners ▸ hs.nodup_owners
  · exact howners ▸ hs.owners

/-- A session in which no fragment waits has none to keep apart. -/
theorem secluded_of_pending (hforest : t.tree.Forest) (hpending : t.pending = []) : t.Secluded := by
  have hnone : ∀ x, ¬ t.Withheld x := fun x => by simp [Withheld, hpending]
  refine ⟨hforest, fun r _ => hnone r, fun x _ => hnone x, ?_, ?_, fun x hx => absurd hx (hnone x),
    fun x _ => hnone x⟩
  · rw [hpending]
    exact fun p hp => absurd hp List.not_mem_nil
  · rw [hpending]
    exact .nil

theorem respects_cancelInFlight : s.Respects K s.cancelInFlight := by
  refine respects_of_secluded (Nat.le_of_eq Tree.size_removeAll.symm) ?_ rfl fun hs _ => ?_
  · simp [Withheld, cancelInFlight]
  · exact secluded_of_pending (hs.forest.removeAll _) rfl

theorem respects_report (e : Error) : s.Respects K (s.report e) :=
  along_report (fun _ _ => respects_of_eq rfl rfl rfl rfl) (fun _ => respects_cancelInFlight)
    (fun _ => respects_of_eq rfl rfl rfl rfl) s e

theorem respects_startActions (actions : List Action.Instruction) (caller : WidgetId) :
    s.Respects K (s.startActions actions caller) :=
  respects_of_eq rfl rfl rfl rfl

end steps

section scripts

/-- No place in the tree is lost. -/
private def KeepsPlaces (s t : Session σ) : Prop :=
  s.tree.slots.size ≤ t.tree.slots.size

private instance : IsPreorder (Session σ) KeepsPlaces where
  refl _ := Nat.le_refl _
  trans _ _ _ := Nat.le_trans

/-- The outcome of a script that, given what is open, has left the fragments alone. -/
theorem respects_outcome (handler widget source : String) {r : Except Failure (List Script.Value) × World × Session σ}
    (hsize : s.tree.slots.size ≤ r.2.2.tree.slots.size)
    (hr : let P := s.Reach r.2.2.tree.slots.size
      Confined P s.world → (∀ x, K x → P x) → s.Secluded → World.Settled P (fun t => t.Secluded ∧ t.pending = s.pending) r)
    (howners : r.2.1.scopes.owners = s.world.scopes.owners) :
    s.Respects K (outcome handler widget source r s).2 := by
  intro hs hK
  obtain ⟨result, world, t⟩ := r
  have hreach : ∀ x, s.Open x → s.Reach t.tree.slots.size x := fun x hx =>
    ⟨Nat.lt_of_lt_of_le (Nat.lt_of_not_le hx.1) hsize, hx.2⟩
  obtain ⟨hworld, hsecluded, hpending⟩ :=
    hr (hs.world.mono hreach) (fun x hx => hreach x (hK x hx)) hs.toSecluded
  have hopen : ∀ x, s.Reach t.tree.slots.size x → { t with world }.Open x := fun x hx =>
    ⟨Nat.not_le_of_lt hx.1, mt (withheld_of_eq hpending).mp hx.2⟩
  have hset : s.Respects K { t with world } := fun _ _ => by
    refine ⟨⟨hsecluded.congr rfl rfl rfl, hworld.mono hopen, ?_, ?_⟩, hsize, fun x hx => hopen x (hreach x hx),
      howners⟩
    · exact howners ▸ hs.nodup_owners
    · exact howners ▸ fun x hx => hopen x (hreach x (hs.owners x hx))
  exact Effect.moves_set_bind hset (moves_lift _ result) hs hK

theorem respects_runScript (source : String) (scope : ScopeId) (widget : String) :
    Moves (Respects K) (runScript source scope widget : Act σ Unit) := by
  refine Effect.moves_get_bind fun s => ?_
  have hsize : s.KeepsPlaces (s.world.execute host s scope source).2.2 :=
    World.execute_requests (P := fun _ => True) (fun service s _ => size_le_perform service s) s.world s scope
      source fun _ _ => trivial
  have howners : Script.Scopes.SameOwners s.world.scopes (s.world.execute host s scope source).2.1.scopes :=
    Script.Scopes.sameOwners_carries.execute s.world s scope source
  refine Effect.moves_bind_at (respects_outcome _ _ _ hsize (fun hw _ hs => ?_) howners) fun _ => Effect.moves_pure _
  exact World.settled_execute (discreet_host s _) scope source hw ⟨hs, rfl⟩ (Nat.le_refl _)

theorem respects_callHandler (f : FunctionId) {arguments : List Script.Value} (ha : Confined K arguments)
    (scope : ScopeId) (handler widget source : String) :
    Moves (Respects K) (callHandler f arguments scope handler widget source : Act σ Script.Value) := by
  refine Effect.moves_get_bind fun s => ?_
  have hsize : s.KeepsPlaces (s.world.callFunction host s scope f arguments).2.2 :=
    World.callFunction_requests (P := fun _ => True) (fun service s _ => size_le_perform service s) s.world s scope
      f arguments fun _ _ => trivial
  have howners : Script.Scopes.SameOwners s.world.scopes (s.world.callFunction host s scope f arguments).2.1.scopes :=
    Script.Scopes.sameOwners_carries.callFunction s.world s scope f arguments
  refine Effect.moves_bind_at (respects_outcome _ _ _ hsize (fun hw hK hs => ?_) howners) fun _ => Effect.moves_pure _
  exact World.settled_callFunction (discreet_host s _) scope f (fun v hv => Script.Value.confined_mono hK (ha v hv))
    hw ⟨hs, rfl⟩ (Nat.le_refl _)

theorem confined_addHandle {world : World} {P : WidgetId → Prop} (hworld : Confined P world) (hid : P id) :
    Confined P (world.addHandle (.widget id)) :=
  World.confined_addHandle hworld fun x hx => by
    obtain rfl := Script.Object.widget.inj hx
    exact hid

/-- A handle of a widget is for those to have who may touch it. -/
theorem respects_widgetHandle_bind {α : Type} {g : Script.Value → Act σ α} (hid : K id)
    (hg : ∀ v, Confined K v → Moves (Respects K) (g v)) : Moves (Respects K) (widgetHandle id >>= g) := by
  intro s
  rw [widgetHandle, run_modifyWorld_bind]
  have hworld : s.Respects K { s with world := (s.world.addHandle (.widget id)).2 } :=
    respects_world (fun hs hK => (confined_addHandle hs.world (hK id hid)).2) rfl
  refine hworld.trans (hg _ (fun x hx => ?_) _)
  obtain rfl : id = x := by simpa [World.addHandle, Script.Value.widget?] using hx
  exact hid

theorem respects_modifyWidget (hid : K id) {f : Widget → Widget} (hf : ∀ w, (f w).SameLinks w) :
    Moves (Respects K) (modifyWidget id f : Act σ Unit) :=
  Effect.moves_modify fun _ => respects_tree (Nat.le_of_eq Tree.size_modify.symm) fun hs hK =>
    hs.encloses.modify (not_withheld hK hid) fun w _ => hf w

theorem respects_runOwnScript (id : WidgetId) : Moves (Respects K) (runOwnScript id : Act σ Unit) := by
  refine Effect.moves_bind (moves_liveWidget id) fun w => ?_
  cases w.script with
  | none => exact Effect.moves_pure _
  | some source =>
    cases w.scope with
    | none => exact Effect.moves_pure _
    | some scope => exact Effect.moves_get_bind fun s => respects_runScript source scope _ s

theorem respects_bindHandlers (hid : K id) (scope : ScopeId) (query source : String)
    (bindings : List (String × Script.Value)) :
    Moves (Respects K) (bindHandlers id scope query source bindings : Act σ Unit) := by
  induction bindings with
  | nil => exact Effect.moves_pure _
  | cons binding rest ih =>
    obtain ⟨name, value⟩ := binding
    cases value with
    | function f =>
      unfold bindHandlers
      split
      · exact Effect.moves_bind (respects_callHandler f Script.confined_empty _ _ _ _) fun _ => ih
      split
      · split
        · refine Effect.moves_bind (moves_liveWidget id) fun _ => ?_
          exact Effect.moves_bind (respects_modifyWidget hid fun w => ⟨rfl, rfl, rfl⟩) fun _ => ih
        · exact Effect.moves_throw _
      · exact ih
    | _ => exact ih

theorem respects_bindOwnHandlers (hid : K id) : Moves (Respects K) (bindOwnHandlers id : Act σ Unit) := by
  refine Effect.moves_bind (moves_liveWidget id) fun w => ?_
  cases w.scope with
  | none => exact Effect.moves_pure _
  | some scope => exact Effect.moves_get_bind fun s => respects_bindHandlers hid _ _ _ _ s

/-- What new widgets do once they have their scopes. -/
theorem respects_runWidgets {ids : List WidgetId} (hids : ∀ id ∈ ids, K id) :
    Moves (Respects K) (do ids.forM runOwnScript; ids.reverse.forM bindOwnHandlers : Act σ Unit) := by
  refine Effect.moves_bind (Effect.moves_forM ids fun id _ => respects_runOwnScript id) fun _ => ?_
  exact Effect.moves_forM ids.reverse fun id hid => respects_bindOwnHandlers (hids id (List.mem_reverse.mp hid))

/-- Only widgets that are open have functions of scripts to call. -/
theorem respects_dispatch (id : WidgetId) (event : String) : Moves (Respects K) (dispatch id event : Act σ Bool) := by
  refine Effect.moves_get_bind fun s => ?_
  dsimp only
  split
  · exact Effect.moves_pure _ s
  rw [run_liveWidget_bind]
  cases hw : s.tree.widget id with
  | error e => exact Std.Refl.refl s
  | ok w =>
    have hget := Tree.widget_eq_ok.mp hw
    dsimp only
    cases hbinding : w.binding? event with
    | none => exact Effect.moves_pure _ s
    | some binding =>
      cases binding with
      | actions actions => exact respects_startActions actions id
      | script f =>
        have hopen : s.Reticent → s.Open id := fun hs => by
          refine ⟨Tree.not_unused_of_contains (Tree.contains_iff.mpr ⟨w, hget⟩), fun hx => ?_⟩
          exact (hs.bare id hx w hget).not_script f hbinding
        refine Respects.of_open (K := (· = id)) ?_ fun hs _ x hx => hx ▸ hopen hs
        refine respects_widgetHandle_bind (K := (· = id)) rfl (fun handle hhandle => ?_) s
        have hcall : Moves (Respects (· = id)) (liftM (reporting (callHandler f [handle] (s.scopeFor id) event
            (s.tree.query id) (w.script.getD "") : Act σ Script.Value)) : Act σ (Option Script.Value)) :=
          moves_reporting (fun _ => respects_report)
            (respects_callHandler f (Script.confined_singleton hhandle) _ _ _ _)
        refine Effect.moves_bind hcall fun value => ?_
        split <;> exact Effect.moves_pure _

theorem respects_fire (timer : Timer) (s : Session σ) : s.Respects K (fire timer s).2 :=
  moves_reporting (fun _ => respects_report) (respects_callHandler _ Script.confined_empty _ _ _ _) s

theorem respects_fireAll (timers : List Timer) (s : Session σ) : s.Respects K ((timers.forM fire).run s).2 := by
  induction timers generalizing s with
  | nil => exact Std.Refl.refl s
  | cons timer timers ih => exact (respects_fire timer s).trans (ih _)

theorem respects_fireTimers : s.Respects K s.fireTimers := by
  unfold fireTimers
  split
  · exact respects_of_eq rfl rfl rfl rfl
  · have hwaiting (timers : List Timer) : s.Respects K { s with timers } := respects_of_eq rfl rfl rfl rfl
    exact (hwaiting _).trans (respects_fireAll _ _)

end scripts

end Hypermedia.Session
