import Hypermedia.Script.Interpreter
import Mathlib.Order.Defs.Unbundled

/-! Scripts and their host: whatever a script does, only its requests change the state of the host; a host
that takes note of them runs scripts as the host alone does, and what holds of the effect of each request
noted holds of the run. -/
namespace Hypermedia.Script

section state

variable {σ : Type} {host : Host σ} {R : σ → σ → Prop} [IsPreorder σ R]
  (hperform : ∀ service s, R s (host.perform service s).2)

include hperform

/-- A run leads wherever requests lead, one after another. -/
theorem run_state (apply : FunctionValue → List Value → Site → Code) (n : Nat) (code : Code)
    (stack : Stack) (w : World) (s : σ) : R s (run host apply n code stack w s).state := by
  induction n generalizing code stack w s with
  | zero => exact Std.Refl.refl s
  | succ n ih =>
    cases code with
    | done flow =>
      rw [run]
      split
      · exact Std.Refl.refl s
      · exact ih _ _ _ _
      · exact ih _ _ _ _
    | fail e =>
      rw [run]
      split
      · exact Std.Refl.refl s
      · exact ih _ _ _ _
      · exact ih _ _ _ _
    | step f => exact ih _ _ _ _
    | assign scope name value k => exact ih _ _ _ _
    | listen scope name listener k => exact ih _ _ _ _
    | call f arguments site k =>
      rw [run]
      split <;> exact ih _ _ _ _
    | tailCall f arguments site =>
      rw [run]
      split <;> exact ih _ _ _ _
    | guard body k => exact ih _ _ _ _
    | request service k => exact IsTrans.trans _ _ _ (hperform service s) (ih _ _ _ _)
    | caller level k => exact ih _ _ _ _
    | living k => exact ih _ _ _ _

theorem World.perform_state (w : World) (s : σ) (scope : ScopeId) (body : Act Flow) :
    R s (w.perform host s scope body).2.2 :=
  run_state hperform apply maxSteps body.withErrorText.code {} _ s

end state

variable {σ : Type} {host : Host σ} {R : σ → σ → Prop} {P : Service → Prop}

/-- A host that takes note of the requests it meets, the oldest first. -/
def Host.noting (host : Host σ) : Host (σ × List Service) where
  perform service s :=
    let (answer, t) := host.perform service s.1
    (answer, t, s.2 ++ [service])
  held s := host.held s.1

/-- A run without the notes of its host. -/
def Run.bare (r : Run (σ × List Service)) : Run σ :=
  ⟨r.outcome, r.world, r.state.1⟩

theorem run_noting (apply : FunctionValue → List Value → Site → Code) (n : Nat) (code : Code)
    (stack : Stack) (w : World) (s : σ × List Service) :
    (run host.noting apply n code stack w s).bare = run host apply n code stack w s.1 := by
  induction n generalizing code stack w s with
  | zero => rfl
  | succ n ih =>
    cases code with
    | done flow =>
      rw [run, run]
      split
      · rfl
      · exact ih _ _ _ _
      · exact ih _ _ _ _
    | fail e =>
      rw [run, run]
      split
      · rfl
      · exact ih _ _ _ _
      · exact ih _ _ _ _
    | step f => exact ih _ _ _ _
    | assign scope name value k => exact ih _ _ _ _
    | listen scope name listener k => exact ih _ _ _ _
    | call f arguments site k =>
      rw [run, run]
      split <;> exact ih _ _ _ _
    | tailCall f arguments site =>
      rw [run, run]
      split <;> exact ih _ _ _ _
    | guard body k => exact ih _ _ _ _
    | request service k => exact ih _ _ _ _
    | caller level k => exact ih _ _ _ _
    | living k => exact ih _ _ _ _

theorem World.perform_noting (w : World) (s : σ) (scope : ScopeId) (body : Act Flow) :
    w.perform host s scope body =
      ((w.perform host.noting (s, []) scope body).1, (w.perform host.noting (s, []) scope body).2.1,
        (w.perform host.noting (s, []) scope body).2.2.1) := by
  have hrun := @run_noting _ host apply maxSteps body.withErrorText.code {}
    { w with entered := some scope, held := scope :: w.held } (s, [])
  unfold perform
  dsimp only
  rw [← hrun]
  rfl

/-- The requests that a script makes. -/
def World.executeRequests (w : World) (host : Host σ) (s : σ) (scope : ScopeId) (source : String) :
    List Service :=
  (w.execute host.noting (s, []) scope source).2.2.2

/-- The requests that a call of a function makes. -/
def World.callRequests (w : World) (host : Host σ) (s : σ) (scope : ScopeId) (f : FunctionId)
    (arguments : List Value) : List Service :=
  (w.callFunction host.noting (s, []) scope f arguments).2.2.2

section requests

/-- What was noted on the way has led from one state to the other, if all of it was of a kind. -/
private def Noted (R : σ → σ → Prop) (P : Service → Prop) (s t : σ × List Service) : Prop :=
  ∃ more, t.2 = s.2 ++ more ∧ ((∀ service ∈ more, P service) → R s.1 t.1)

variable [IsPreorder σ R]

private instance : IsPreorder (σ × List Service) (Noted R P) where
  refl s := ⟨[], (List.append_nil _).symm, fun _ => Std.Refl.refl s.1⟩
  trans s t u := by
    rintro ⟨more, ht, hst⟩ ⟨rest, hu, htu⟩
    refine ⟨more ++ rest, by rw [hu, ht, List.append_assoc], fun h => ?_⟩
    obtain ⟨hmore, hrest⟩ := List.forall_mem_append.mp h
    exact IsTrans.trans _ _ _ (hst hmore) (htu hrest)

variable (hperform : ∀ service s, P service → R s (host.perform service s).2)

include hperform

omit [IsPreorder σ R] in
private theorem noted_perform (service : Service) (s : σ × List Service) :
    Noted R P s (host.noting.perform service s).2 :=
  ⟨[service], rfl, fun h => hperform service s.1 (h service List.mem_cons_self)⟩

/-- A run whose requests are all of a kind leads wherever such requests lead. -/
theorem World.perform_requests (w : World) (s : σ) (scope : ScopeId) (body : Act Flow)
    (h : ∀ service ∈ (w.perform host.noting (s, []) scope body).2.2.2, P service) :
    R s (w.perform host s scope body).2.2 := by
  have hnoted : Noted R P (s, []) (w.perform host.noting (s, []) scope body).2.2 :=
    World.perform_state (noted_perform hperform) w (s, []) scope body
  obtain ⟨more, hmore, hlead⟩ := hnoted
  rw [World.perform_noting]
  rw [hmore] at h
  exact hlead h

theorem World.execute_requests (w : World) (s : σ) (scope : ScopeId) (source : String)
    (h : ∀ service ∈ w.executeRequests host s scope source, P service) :
    R s (w.execute host s scope source).2.2 := by
  unfold executeRequests execute at *
  split
  · exact Std.Refl.refl s
  · next body hbody =>
    rw [hbody] at h
    exact World.perform_requests hperform w s scope _ h

theorem World.callFunction_requests (w : World) (s : σ) (scope : ScopeId) (f : FunctionId)
    (arguments : List Value) (h : ∀ service ∈ w.callRequests host s scope f arguments, P service) :
    R s (w.callFunction host s scope f arguments).2.2 :=
  World.perform_requests hperform w s scope _ h

end requests

end Hypermedia.Script
