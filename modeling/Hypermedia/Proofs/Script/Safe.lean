import Hypermedia.Proofs.Script.Confined
import Hypermedia.Proofs.Script.Requests

/-! Scripts come by no widget on their own: what they ask the session about are widgets that they were
given, in what they can reach or in an answer. -/
namespace Hypermedia.Script

/-- The widgets that meeting a request reads or changes. -/
def Service.touched : Service → List WidgetId
  | .readField id _ | .writeField id _ _ | .style id _ _ | .pin id | .dismiss id => [id]
  | .build b => b.children
  | .append parent child => [parent, child]
  | .find _ | .alert _ | .schedule _ _ _ | .act _ _ => []

instance : Confinable Service :=
  ⟨fun P service => Confined P service.touched⟩

/-- Code that, as long as all it is given is confined to `P`, asks about widgets of `P` only, and gives and
leaves nothing that names others. -/
inductive Code.Safe (P : WidgetId → Prop) : Code → Prop where
  | done {flow : Flow} (h : Confined P flow) : Safe P (.done flow)
  | fail {error : Value} (h : Confined P error) : Safe P (.fail error)
  | step {f : World → World × Code} (hw : ∀ w, Confined P w → Confined P (f w).1)
      (hk : ∀ w, Confined P w → Safe P (f w).2) : Safe P (.step f)
  | assign {scope : ScopeId} {name : String} {value : Value} {k : Option Change → Code} (h : Confined P value)
      (hk : ∀ c, Confined P c → Safe P (k c)) : Safe P (.assign scope name value k)
  | listen {scope : ScopeId} {name : String} {listener : Value} {k : Code} (h : Confined P listener)
      (hk : Safe P k) : Safe P (.listen scope name listener k)
  | call {f : FunctionId} {arguments : List Value} {site : Site} {k : List Value → Code}
      (h : Confined P arguments) (hk : ∀ vs, Confined P vs → Safe P (k vs)) : Safe P (.call f arguments site k)
  | tailCall {f : FunctionId} {arguments : List Value} {site : Site} (h : Confined P arguments) :
      Safe P (.tailCall f arguments site)
  | guard {body : Code} {k : Except Value Flow → Code} (h : Safe P body)
      (hk : ∀ r, Confined P r → Safe P (k r)) : Safe P (.guard body k)
  | request {service : Service} {k : Except String Field → Code} (h : Confined P service)
      (hk : ∀ answer, Confined P answer → Safe P (k answer)) : Safe P (.request service k)
  | caller {level : Nat} {k : Option Position → Code} (hk : ∀ position, Safe P (k position)) :
      Safe P (.caller level k)
  | living {k : (ScopeId → Bool) → Code} (hk : ∀ isAlive, Safe P (k isAlive)) : Safe P (.living k)

variable {P : WidgetId → Prop} {α β : Type}

namespace Act

instance : LawfulMonad Act :=
  LawfulMonad.mk' Act (fun _ => rfl) (fun _ _ => rfl) fun _ _ _ => rfl

/-- An activity after which safe code goes on safely if what it is told fits `post`. -/
def Gives (P : WidgetId → Prop) (post : α → Prop) (m : Act α) : Prop :=
  ∀ k, (∀ a, post a → (k a).Safe P) → (m k).Safe P

/-- An activity that gives nothing but what is confined. -/
def Safe [Confinable α] (P : WidgetId → Prop) (m : Act α) : Prop :=
  m.Gives P (Confined P)

theorem gives_bind {post : α → Prop} {post' : β → Prop} {m : Act α} {f : α → Act β} (hm : m.Gives P post)
    (hf : ∀ a, post a → (f a).Gives P post') : (m >>= f).Gives P post' :=
  fun k hk => hm _ fun a ha => hf a ha k hk

theorem gives_pure {post : α → Prop} {a : α} (h : post a) : (pure a : Act α).Gives P post :=
  fun _ hk => hk a h

theorem gives_look {post : α → Prop} {f : World → α} (h : ∀ w, Confined P w → post (f w)) :
    (look f).Gives P post :=
  fun _ hk => .step (fun _ hw => hw) fun w hw => hk _ (h w hw)

variable [Confinable α] [Confinable β]

theorem safe_pure {a : α} (h : Confined P a) : (pure a : Act α).Safe P :=
  gives_pure h

theorem safe_bind {m : Act α} {f : α → Act β} (hm : m.Safe P) (hf : ∀ a, Confined P a → (f a).Safe P) :
    (m >>= f).Safe P :=
  gives_bind hm hf

theorem safe_raise {error : Value} (h : Confined P error) : (raise error : Act α).Safe P :=
  fun _ _ => .fail h

theorem safe_update {f : World → α × World} (h : ∀ w, Confined P w → Confined P (f w)) : (update f).Safe P :=
  fun _ hk => .step (fun w hw => (h w hw).2) fun w hw => hk _ (h w hw).1

theorem safe_look {f : World → α} (h : ∀ w, Confined P w → Confined P (f w)) : (look f).Safe P :=
  gives_look h

theorem safe_change {f : World → World} (h : ∀ w, Confined P w → Confined P (f w)) : (change f).Safe P :=
  fun _ hk => .step h fun _ _ => hk () trivial

theorem safe_assign (scope : ScopeId) (name : String) {value : Value} (h : Confined P value) :
    (assign scope name value).Safe P :=
  fun _ hk => .assign h hk

theorem safe_listen (scope : ScopeId) (name : String) {listener : Value} (h : Confined P listener) :
    (listen scope name listener).Safe P :=
  fun _ hk => .listen h (hk () trivial)

theorem safe_callFunction (f : FunctionId) {arguments : List Value} (h : Confined P arguments) (site : Site) :
    (callFunction f arguments site).Safe P :=
  fun _ hk => .call h hk

theorem safe_code {body : Act Flow} (h : body.Safe P) : body.code.Safe P :=
  h _ fun _ hflow => .done hflow

theorem safe_guarded {body : Act Flow} (h : body.Safe P) : (guarded body).Safe P :=
  fun _ hk => .guard (safe_code h) hk

theorem safe_request {service : Service} (h : Confined P service) : (request service).Safe P :=
  fun _ hk => .request h hk

theorem safe_ite {c : Prop} [Decidable c] {m m' : Act α} (hm : m.Safe P) (hm' : m'.Safe P) :
    (if c then m else m').Safe P := by
  split
  · exact hm
  · exact hm'

/-- What goes on unless it has to stop before. -/
theorem safe_unless {c : Prop} [Decidable c] {stop : Act Unit} {rest : Unit → Act α} (hstop : stop.Safe P)
    (hrest : (rest ()).Safe P) : (if c then stop >>= rest else rest ()).Safe P := by
  split
  · exact safe_bind hstop fun _ _ => hrest
  · exact hrest

theorem safe_caller (level : Nat) : (caller level).Safe P :=
  fun _ hk => .caller fun position => hk position fun _ _ => trivial

theorem safe_living : living.Safe P :=
  fun _ hk => .living fun isAlive => hk isAlive trivial

theorem safe_newTable {t : Table} (h : Confined P t) : (newTable t).Safe P :=
  safe_update fun _ hw => ⟨nofun, World.confined_addTable hw h⟩

theorem safe_newFunction {f : FunctionValue} (h : Confined P f) : (newFunction f).Safe P :=
  safe_update fun _ hw => ⟨nofun, World.confined_addFunction hw h⟩

theorem safe_newHandle {object : Object} (h : Confined P object) : (newHandle object).Safe P :=
  safe_update fun _ hw => World.confined_addHandle hw h

theorem safe_newCell {value : Value} (h : Confined P value) : (newCell value).Safe P :=
  safe_update fun _ hw => ⟨trivial, World.confined_addCell hw h⟩

theorem safe_fault (message : Bytes) : (fault message : Act α).Safe P :=
  safe_bind (safe_newHandle nofun) fun _ h => safe_raise h

theorem safe_raiseAt (position : Option Position) (message : Bytes) : (raiseAt position message : Act α).Safe P :=
  safe_raise nofun

omit [Confinable β] in
theorem safe_mapM {f : β → Act α} {l : List β} (h : ∀ b ∈ l, (f b).Safe P) : (l.mapM f).Safe P := by
  induction l with
  | nil => exact safe_pure nofun
  | cons b l ih =>
    obtain ⟨hb, hl⟩ := List.forall_mem_cons.mp h
    rw [List.mapM_cons]
    exact safe_bind hb fun _ ha => safe_bind (ih hl) fun _ hl => safe_pure (confined_cons ha hl)

end Act

section runs

/-- A frame that goes on safely. -/
def Frame.Safe (P : WidgetId → Prop) : Frame → Prop
  | .await _ k => ∀ vs, Confined P vs → (k vs).Safe P
  | .guard k => ∀ r, Confined P r → (k r).Safe P

def Stack.Safe (P : WidgetId → Prop) (stack : Stack) : Prop :=
  ∀ f ∈ stack.frames, Frame.Safe P f

theorem Stack.Safe.push {stack : Stack} {f : Frame} (h : stack.Safe P) (hf : Frame.Safe P f) :
    (stack.push f).Safe P :=
  List.forall_mem_cons.mpr ⟨hf, h⟩

theorem Stack.Safe.pop {stack rest : Stack} {f : Frame} (h : stack.Safe P) (hpop : stack.pop? = some (f, rest)) :
    Frame.Safe P f ∧ rest.Safe P := by
  unfold Stack.pop? at hpop
  cases hframes : stack.frames with
  | nil =>
    rw [hframes] at hpop
    cases hpop
  | cons g frames =>
    rw [hframes] at hpop
    cases hpop
    exact List.forall_mem_cons.mp (hframes ▸ h)

/-- The values of a run that has ended. -/
def Outcome.Confined (P : WidgetId → Prop) : Outcome → Prop
  | .finished flow => Confinable.Confined P flow
  | .failed error => Confinable.Confined P error
  | .outOfFuel => True

variable {σ : Type} {host : Host σ} {I J : σ → Prop}

/-- A host that answers requests about widgets of `P` with such widgets and keeps an invariant meanwhile,
as far as it does not leave the states `J`. -/
structure Host.Discreet (host : Host σ) (P : WidgetId → Prop) (I J : σ → Prop) : Prop where
  back : ∀ service s, J (host.perform service s).2 → J s
  perform : ∀ service s, I s → Confined P service → J (host.perform service s).2 →
    I (host.perform service s).2 ∧ Confined P (host.perform service s).1

/-- Where what is in `J` after a step was so before. -/
private def Reverts (J : σ → Prop) (s t : σ) : Prop :=
  J t → J s

private instance : IsPreorder σ (Reverts J) where
  refl _ h := h
  trans _ _ _ h k hu := h (k hu)

/-- What holds of a run after it, if it has not left the states `J`. -/
structure Run.Discreet (P : WidgetId → Prop) (I : σ → Prop) (r : Run σ) : Prop where
  state : I r.state
  world : Confined P r.world
  outcome : r.outcome.Confined P

/-- A run of safe code asks about widgets of `P` only, and what it leaves names no others. -/
theorem run_discreet (h : host.Discreet P I J) {apply : FunctionValue → List Value → Site → Code}
    (happly : ∀ f arguments site, Confined P f → Confined P arguments → (apply f arguments site).Safe P)
    (n : Nat) {code : Code} {stack : Stack} {w : World} {s : σ} (hcode : code.Safe P) (hstack : stack.Safe P)
    (hw : Confined P w) (hs : I s) (hend : J (run host apply n code stack w s).state) :
    (run host apply n code stack w s).Discreet P I := by
  have hfunction (w : World) (hw : Confined P w) (f : FunctionId) :
      Confined P (w.functions.getD f.index default) :=
    Array.confined_getD hw.functions (fun _ hv => by cases hv) _
  induction n generalizing code stack w s with
  | zero => exact ⟨hs, hw, trivial⟩
  | succ n ih =>
    cases hcode with
    | @done flow hflow =>
      rw [run] at hend ⊢
      cases hpop : stack.pop? with
      | none => exact ⟨hs, hw, hflow⟩
      | some top =>
        obtain ⟨f, rest⟩ := top
        obtain ⟨hf, hrest⟩ := hstack.pop hpop
        rw [hpop] at hend
        cases f with
        | await site k => exact ih (hf _ hflow) hrest hw hs hend
        | guard k => exact ih (hf _ ⟨by simp, fun _ heq => Except.ok.inj heq ▸ hflow⟩) hrest hw hs hend
    | @fail error herror =>
      rw [run] at hend ⊢
      cases hpop : stack.pop? with
      | none => exact ⟨hs, hw, herror⟩
      | some top =>
        obtain ⟨f, rest⟩ := top
        obtain ⟨hf, hrest⟩ := hstack.pop hpop
        rw [hpop] at hend
        cases f with
        | await site k => exact ih (.fail herror) hrest hw hs hend
        | guard k => exact ih (hf _ ⟨fun _ heq => Except.error.inj heq ▸ herror, by simp⟩) hrest hw hs hend
    | step hworld hk => exact ih (hk w hw) hstack (World.confined_withScopes (hworld w hw) hw.scopes) hs hend
    | @assign scope name value k hvalue hk =>
      obtain ⟨hc, hscopes⟩ := Scopes.confined_assign hw.scopes scope name hvalue
      exact ih (hk _ hc) hstack (World.confined_withScopes hw hscopes) hs hend
    | @listen scope name listener k hlistener hk =>
      exact ih hk hstack (World.confined_withScopes hw (Scopes.confined_listen hw.scopes scope name hlistener)) hs hend
    | @call f arguments site k harguments hk =>
      rw [run] at hend ⊢
      split at hend
      · exact ih (.fail (confined_of_widget? rfl)) hstack hw hs hend
      · exact ih (happly _ _ _ (hfunction w hw f) harguments) (hstack.push hk) hw hs hend
    | @tailCall f arguments site harguments =>
      have hf := hfunction w hw f
      rw [run] at hend ⊢
      split at hend
      · next b hb =>
        rw [hb] at hf
        refine ih (happly _ _ _ hf harguments) (hstack.push fun vs hvs => .done hvs) hw hs hend
      · exact ih (happly _ _ _ hf harguments) hstack hw hs hend
    | guard hbody hk => exact ih hbody (hstack.push hk) hw hs hend
    | @request service k hservice hk =>
      have hthere : J (host.perform service s).2 :=
        run_state (R := Reverts J) h.back apply n (k (host.perform service s).1) stack w _ hend
      obtain ⟨ht, hanswer⟩ := h.perform service s hs hservice hthere
      exact ih (hk _ hanswer) hstack hw ht hend
    | caller hk => exact ih (hk _) hstack hw hs hend
    | living hk => exact ih (hk _) hstack hw hs hend

end runs

end Hypermedia.Script
