import Mathlib.Order.Defs.Unbundled

/-! Steps that change a state and may fail: where they lead, whether or not they fail. -/
namespace Hypermedia.Effect

variable {ε σ α β : Type} {R : σ → σ → Prop}

/-- The states before and after a step are related. -/
def Moves (R : σ → σ → Prop) (m : ExceptT ε (StateM σ) α) : Prop :=
  ∀ s, R s (m s).2

/-- A step that does not fail gives something that fits the states before and after it. -/
def Gives (Q : σ → α → σ → Prop) (m : ExceptT ε (StateM σ) α) : Prop :=
  ∀ s a t, m s = (.ok a, t) → Q s a t

theorem run_bind (m : ExceptT ε (StateM σ) α) (f : α → ExceptT ε (StateM σ) β) (s : σ) :
    (m >>= f) s = match m s with
      | (.ok a, t) => f a t
      | (.error e, t) => (.error e, t) := by
  change (match m s with | (r, t) => ExceptT.bindCont f r t) = _
  obtain ⟨r, t⟩ := m s
  cases r <;> rfl

theorem run_map (f : α → β) (m : ExceptT ε (StateM σ) α) (s : σ) :
    (f <$> m) s = match m s with
      | (.ok a, t) => (.ok (f a), t)
      | (.error e, t) => (.error e, t) := by
  rw [map_eq_pure_bind, run_bind]
  cases m s with
  | mk r t => cases r <;> rfl

theorem bind_eq_ok {m : ExceptT ε (StateM σ) α} {f : α → ExceptT ε (StateM σ) β} {s u : σ} {b : β}
    (h : (m >>= f) s = (.ok b, u)) : ∃ a t, m s = (.ok a, t) ∧ f a t = (.ok b, u) := by
  rw [run_bind] at h
  cases hr : m s with
  | mk r t =>
    rw [hr] at h
    cases r with
    | ok a => exact ⟨a, t, rfl, h⟩
    | error e => cases h

theorem run_get_bind (f : σ → ExceptT ε (StateM σ) β) (s : σ) : (get >>= f) s = f s s := rfl

theorem run_modify_bind (g : σ → σ) (f : PUnit → ExceptT ε (StateM σ) β) (s : σ) :
    (modify g >>= f) s = f ⟨⟩ (g s) := rfl

theorem run_set_bind (t : σ) (f : PUnit → ExceptT ε (StateM σ) β) (s : σ) :
    (set t >>= f) s = f ⟨⟩ t := rfl

theorem Moves.mono {R' : σ → σ → Prop} {m : ExceptT ε (StateM σ) α} (h : Moves R m)
    (hR : ∀ s t, R s t → R' s t) : Moves R' m :=
  fun s => hR _ _ (h s)

theorem moves_get_bind {f : σ → ExceptT ε (StateM σ) β} (h : ∀ s, R s (f s s).2) :
    Moves R (get >>= f) :=
  h

theorem moves_modify {f : σ → σ} (h : ∀ s, R s (f s)) :
    Moves R (modify f : ExceptT ε (StateM σ) PUnit) :=
  h

section preorder

variable [IsPreorder σ R]

theorem moves_pure (a : α) : Moves R (pure a : ExceptT ε (StateM σ) α) :=
  fun s => Std.Refl.refl s

theorem moves_throw (e : ε) : Moves R (throw e : ExceptT ε (StateM σ) α) :=
  fun s => Std.Refl.refl s

/-- What a first part leads to from one state, and the rest from any, both lead to. -/
theorem moves_bind_at {m : ExceptT ε (StateM σ) α} {f : α → ExceptT ε (StateM σ) β} {s : σ}
    (hs : R s (m s).2) (hf : ∀ a, Moves R (f a)) : R s ((m >>= f) s).2 := by
  rw [run_bind]
  cases h : m s with
  | mk r t =>
    rw [h] at hs
    cases r with
    | ok a => exact IsTrans.trans _ _ _ hs (hf a t)
    | error e => exact hs

theorem moves_bind {m : ExceptT ε (StateM σ) α} {f : α → ExceptT ε (StateM σ) β}
    (hm : Moves R m) (hf : ∀ a, Moves R (f a)) : Moves R (m >>= f) :=
  fun s => moves_bind_at (hm s) hf

theorem moves_set_bind {s t : σ} {f : PUnit → ExceptT ε (StateM σ) β} (hs : R s t)
    (hf : Moves R (f ⟨⟩)) : R s ((set t >>= f) s).2 :=
  IsTrans.trans _ _ _ hs (hf t)

theorem moves_forM {f : α → ExceptT ε (StateM σ) PUnit} (l : List α)
    (hf : ∀ a ∈ l, Moves R (f a)) : Moves R (l.forM f) := by
  induction l with
  | nil => exact moves_pure _
  | cons a l ih =>
    obtain ⟨ha, hl⟩ := List.forall_mem_cons.mp hf
    exact moves_bind ha fun _ => ih hl

theorem moves_foldlM {f : β → α → ExceptT ε (StateM σ) β} (hf : ∀ b a, Moves R (f b a))
    (l : List α) (b : β) : Moves R (l.foldlM f b) := by
  induction l generalizing b with
  | nil => exact moves_pure _
  | cons a l ih => exact moves_bind (hf b a) fun b => ih b

theorem along_foldl {f : σ → α → σ} (hf : ∀ s a, R s (f s a)) (s : σ) (l : List α) : R s (l.foldl f s) :=
  List.foldlRecOn l f (Std.Refl.refl s) fun t ht a _ => IsTrans.trans _ _ _ ht (hf t a)

end preorder

section gives

variable {Q : σ → β → σ → Prop}

theorem gives_throw (e : ε) : Gives Q (throw e : ExceptT ε (StateM σ) β) := by
  intro s a t h
  cases h

theorem gives_bind {P : σ → α → σ → Prop} {m : ExceptT ε (StateM σ) α}
    {f : α → ExceptT ε (StateM σ) β} (hm : Gives P m)
    (hf : ∀ s a t, P s a t → ∀ b u, f a t = (.ok b, u) → Q s b u) : Gives Q (m >>= f) := by
  intro s b u h
  rw [run_bind] at h
  cases hr : m s with
  | mk r t =>
    rw [hr] at h
    cases r with
    | ok a => exact hf s a t (hm s a t hr) b u h
    | error e => cases h

theorem gives_pure {a : β} (h : ∀ s, Q s a s) : Gives Q (pure a : ExceptT ε (StateM σ) β) := by
  intro s b t hr
  cases hr
  exact h s

theorem gives_of_moves {m : ExceptT ε (StateM σ) β} (hm : Moves R m) :
    Gives (fun s _ t => R s t) m := by
  intro s b t h
  have := hm s
  rwa [h] at this

theorem gives_and {P : σ → β → σ → Prop} {m : ExceptT ε (StateM σ) β} (hp : Gives P m)
    (hq : Gives Q m) : Gives (fun s b t => P s b t ∧ Q s b t) m :=
  fun s b t h => ⟨hp s b t h, hq s b t h⟩

theorem gives_foldlM {P : β → Prop} {f : β → α → ExceptT ε (StateM σ) β}
    (hf : ∀ b a, P b → Gives (fun _ b _ => P b) (f b a)) {b : β} (hb : P b) (l : List α) :
    Gives (fun _ b _ => P b) (l.foldlM f b) := by
  induction l generalizing b with
  | nil => exact gives_pure fun _ => hb
  | cons a l ih => exact gives_bind (hf b a hb) fun _ c t hc d u h => ih hc t d u h

/-- What a step gives is up to its last part. -/
theorem gives_bind_last {P : β → σ → Prop} {m : ExceptT ε (StateM σ) α}
    {f : α → ExceptT ε (StateM σ) β} (hf : ∀ a, Gives (fun _ => P) (f a)) :
    Gives (fun _ => P) (m >>= f) :=
  gives_bind (P := fun _ _ _ => True) (fun _ _ _ _ => trivial) fun _ a t _ b u h => hf a t b u h

/-- What the first part made is still there if the rest moves on and gives it back. -/
theorem gives_bind_of_moves {P : σ → α → σ → Prop} {K : α → β → Prop}
    {m : ExceptT ε (StateM σ) α} {f : α → ExceptT ε (StateM σ) β} (hm : Gives P m)
    (hmoves : ∀ a, Moves R (f a)) (hgives : ∀ a, Gives (fun _ b _ => K a b) (f a))
    (h : ∀ {s a t b u}, P s a t → R t u → K a b → Q s b u) : Gives Q (m >>= f) := by
  refine gives_bind hm fun s a t hp b u hf => ?_
  have hr : R t u := by
    have := hmoves a t
    rwa [hf] at this
  exact h hp hr (hgives a t b u hf)

end gives

/-- From a state in `P` a step leads to one in `Q`, with what it gives, or fails in one in `E`. -/
def Meets (P : σ → Prop) (m : ExceptT ε (StateM σ) α) (Q : α → σ → Prop) (E : σ → Prop) : Prop :=
  ∀ s, P s → match m s with
    | (.ok a, t) => Q a t
    | (.error _, t) => E t

section meets

variable {P E : σ → Prop} {Q : α → σ → Prop} {Q' : β → σ → Prop}

theorem meets_pure {a : α} (h : ∀ s, P s → Q a s) :
    Meets P (pure a : ExceptT ε (StateM σ) α) Q E :=
  h

theorem meets_throw (e : ε) (h : ∀ s, P s → E s) :
    Meets P (throw e : ExceptT ε (StateM σ) α) Q E :=
  h

theorem meets_modify {Q : σ → Prop} {f : σ → σ} (h : ∀ s, P s → Q (f s)) :
    Meets P (modify f : ExceptT ε (StateM σ) PUnit) (fun _ => Q) E :=
  h

theorem meets_of_moves {m : ExceptT ε (StateM σ) α} {s : σ} (h : Moves R m) (hE : ∀ t, R s t → E t) :
    Meets (fun s' => s' = s) m (fun _ => R s) E := by
  rintro s' rfl
  have hs := h s'
  cases hr : m s' with
  | mk r t =>
    rw [hr] at hs
    cases r with
    | ok a => exact hs
    | error e => exact hE t hs

/-- What is known of the state is known. -/
theorem meets_of_and {φ : Prop} {m : ExceptT ε (StateM σ) α} (h : φ → Meets P m Q E) :
    Meets (fun s => P s ∧ φ) m Q E :=
  fun s hs => h hs.2 s hs.1

theorem meets_bind {m : ExceptT ε (StateM σ) α} {f : α → ExceptT ε (StateM σ) β}
    (hm : Meets P m Q E) (hf : ∀ a, Meets (Q a) (f a) Q' E) : Meets P (m >>= f) Q' E := by
  intro s hs
  have h := hm s hs
  rw [run_bind]
  cases hr : m s with
  | mk r t =>
    rw [hr] at h
    cases r with
    | ok a => exact hf a t h
    | error e => exact h

theorem meets_foldlM {f : β → α → ExceptT ε (StateM σ) β}
    (hf : ∀ b a, Meets (Q' b) (f b a) Q' E) (l : List α) (b : β) :
    Meets (Q' b) (l.foldlM f b) Q' E := by
  induction l generalizing b with
  | nil => exact meets_pure fun _ h => h
  | cons a l ih => exact meets_bind (hf b a) ih

end meets

section requests

variable {ρ : Type} {P : ρ → Prop}

/-- What the rest of a step asks for, which runs if the first part does not fail. -/
def thenAsks (m : ExceptT ε (StateM σ) α) (more : α → σ → List ρ) (s : σ) : List ρ :=
  match m s with
  | (.ok a, t) => more a t
  | (.error _, _) => []

/-- What steps that are taken one after another ask for. -/
def eachAsks (f : α → ExceptT ε (StateM σ) PUnit) (asks : α → σ → List ρ) : List α → σ → List ρ
  | [], _ => []
  | a :: l, s => asks a s ++ thenAsks (f a) (fun _ => eachAsks f asks l) s

/-- The states before and after a step are related if all that it asks for is of a kind. -/
def MovesIf (R : σ → σ → Prop) (P : ρ → Prop) (m : ExceptT ε (StateM σ) α) (asks : σ → List ρ) :
    Prop :=
  ∀ s, (∀ x ∈ asks s, P x) → R s (m s).2

theorem Moves.movesIf {m : ExceptT ε (StateM σ) α} (h : Moves R m) (asks : σ → List ρ) :
    MovesIf R P m asks :=
  fun s _ => h s

theorem MovesIf.moves {m : ExceptT ε (StateM σ) α} {asks : σ → List ρ} (h : MovesIf R P m asks)
    (hP : ∀ x, P x) : Moves R m :=
  fun s => h s fun x _ => hP x

theorem movesIf_get_bind {f : σ → ExceptT ε (StateM σ) β} {asks : σ → List ρ}
    (h : ∀ s, (∀ x ∈ asks s, P x) → R s (f s s).2) : MovesIf R P (get >>= f) asks :=
  h

variable [IsPreorder σ R]

theorem movesIf_bind {m : ExceptT ε (StateM σ) α} {f : α → ExceptT ε (StateM σ) β}
    {asks : σ → List ρ} {more : α → σ → List ρ} (hm : MovesIf R P m asks)
    (hf : ∀ a, MovesIf R P (f a) (more a)) :
    MovesIf R P (m >>= f) fun s => asks s ++ thenAsks m more s := by
  intro s hs
  obtain ⟨hasks, hmore⟩ := List.forall_mem_append.mp hs
  have hs' := hm s hasks
  rw [run_bind]
  unfold thenAsks at hmore
  cases h : m s with
  | mk r t =>
    rw [h] at hmore hs'
    cases r with
    | ok a => exact IsTrans.trans _ _ _ hs' (hf a t hmore)
    | error e => exact hs'

theorem movesIf_then {m : ExceptT ε (StateM σ) α} {f : α → ExceptT ε (StateM σ) β}
    {more : α → σ → List ρ} (hm : Moves R m) (hf : ∀ a, MovesIf R P (f a) (more a)) :
    MovesIf R P (m >>= f) (thenAsks m more) :=
  movesIf_bind (hm.movesIf fun _ => []) hf

theorem movesIf_each {f : α → ExceptT ε (StateM σ) PUnit} {asks : α → σ → List ρ} (l : List α)
    (hf : ∀ a ∈ l, MovesIf R P (f a) (asks a)) : MovesIf R P (l.forM f) (eachAsks f asks l) := by
  induction l with
  | nil => exact (moves_pure _).movesIf _
  | cons a l ih =>
    obtain ⟨ha, hl⟩ := List.forall_mem_cons.mp hf
    exact movesIf_bind ha fun _ => ih hl

end requests

end Hypermedia.Effect
