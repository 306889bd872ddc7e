import Hypermedia.Proofs.Script.Writes
import Hypermedia.Script.Interpreter
import Mathlib.Order.Defs.Unbundled

/-! The chains of scopes: nothing that a script does takes a scope out of the one it was made in, or binds a
name twice in a scope. -/
namespace Hypermedia.Script

/-- Binding a name binds none twice. -/
theorem Scope.nodup_names_bind {name : String} {value : Value} (s : Scope) (h : (s.bindings.map Prod.fst).Nodup) :
    ((s.bind name value).bindings.map Prod.fst).Nodup := by
  have hmem (l : List (String × Value)) {m : String} (hm : m ∈ (bindIn name value l).map Prod.fst) :
      m = name ∨ m ∈ l.map Prod.fst := by
    induction l with
    | nil => simpa [bindIn] using hm
    | cons b l ih =>
      unfold bindIn at hm
      split at hm
      · exact .inr hm
      · rcases List.mem_cons.mp hm with rfl | hm
        · exact .inr List.mem_cons_self
        · exact (ih hm).imp_right (List.mem_cons_of_mem _)
  have hbound (l : List (String × Value)) (hl : (l.map Prod.fst).Nodup) :
      ((bindIn name value l).map Prod.fst).Nodup := by
    induction l with
    | nil => simp [bindIn]
    | cons b l ih =>
      obtain ⟨hout, hl⟩ := List.nodup_cons.mp hl
      unfold bindIn
      split
      · exact List.nodup_cons.mpr ⟨hout, hl⟩
      · next hne =>
        exact List.nodup_cons.mpr ⟨fun hm => (hmem l hm).elim hne hout, ih hl⟩
  unfold bind
  split
  · exact h.sublist (List.filter_sublist.map Prod.fst)
  · exact hbound s.bindings h

namespace Scopes

open Relation (ReflTransGen)

variable {f g h : Scopes} {s : ScopeId}

/-- `g` can come after `f`: no scope is gone, and each is inside the one it was made in. -/
structure Extends (f g : Scopes) : Prop where
  size_le : f.all.size ≤ g.all.size
  parent? : ∀ s : ScopeId, s.index < f.all.size → g.parent? s = f.parent? s

theorem Extends.refl (f : Scopes) : f.Extends f :=
  ⟨Nat.le_refl _, fun _ _ => rfl⟩

theorem Extends.trans (hfg : f.Extends g) (hgh : g.Extends h) : f.Extends h where
  size_le := Nat.le_trans hfg.size_le hgh.size_le
  parent? s hs := (hgh.parent? s (Nat.lt_of_lt_of_le hs hfg.size_le)).trans (hfg.parent? s hs)

instance : IsPreorder Scopes Extends where
  refl := .refl
  trans _ _ _ := .trans

theorem extends_modify (f : Scopes) (o : ScopeId) {k : Scope → Scope}
    (hk : ∀ s, (k s).parent = s.parent) : f.Extends (f.modify o k) := by
  refine ⟨Nat.le_of_eq (by simp [modify]), fun s _ => ?_⟩
  rw [Scopes.parent?, Scopes.parent?, get?_modify]
  split
  · next heq =>
    subst heq
    cases f.get? s with
    | none => rfl
    | some scope => exact hk scope
  · rfl

theorem extends_define (f : Scopes) (o : ScopeId) (name : String) (value : Value) :
    f.Extends (f.define o name value).2 := by
  refine extends_modify f o fun s => ?_
  unfold Scope.bind
  split <;> rfl

theorem extends_listen (f : Scopes) (o : ScopeId) (name : String) (listener : Value) :
    f.Extends (f.listen o name listener) :=
  extends_modify f o fun _ => rfl

theorem extends_add (f : Scopes) (parent : Option ScopeId) : f.Extends (f.add parent).2 := by
  refine ⟨by simp [add], fun s hs => ?_⟩
  simp [Scopes.parent?, get?, add, Array.getElem?_push, Nat.ne_of_lt hs]

theorem parent?_add (f : Scopes) (parent : Option ScopeId) :
    (f.add parent).2.parent? (f.add parent).1 = parent := by
  simp [Scopes.parent?, get?, add]

/-- What becomes of scopes: a name is bound, a listener or a scope comes along, or a scope gets its widget. -/
inductive Step : Scopes → Scopes → Prop
  | define (f : Scopes) (o : ScopeId) (name : String) (value : Value) : Step f (f.define o name value).2
  | listen (f : Scopes) (o : ScopeId) (name : String) (listener : Value) : Step f (f.listen o name listener)
  | add (f : Scopes) (parent : Option ScopeId) : Step f (f.add parent).2
  | house (f : Scopes) (o : ScopeId) (widget : Option WidgetId) : Step f (f.modify o fun s => { s with widget })

/-- `g` comes after `f`. -/
def Follows : Scopes → Scopes → Prop :=
  ReflTransGen Step

instance : IsPreorder Scopes Follows where
  refl _ := .refl
  trans _ _ _ := .trans

theorem Step.follows (h : Step f g) : f.Follows g :=
  .single h

theorem Step.extends (h : Step f g) : f.Extends g := by
  cases h with
  | define o name value => exact f.extends_define o name value
  | listen o name listener => exact f.extends_listen o name listener
  | add parent => exact f.extends_add parent
  | house o widget => exact f.extends_modify o fun _ => rfl

theorem Follows.extends (h : f.Follows g) : f.Extends g := by
  induction h with
  | refl => exact .refl f
  | tail _ hs ih => exact ih.trans hs.extends

section names

variable {n : Nat}

/-- In no scope from a place on a name is bound twice. -/
def DistinctFrom (n : Nat) (f : Scopes) : Prop :=
  ∀ s : ScopeId, n ≤ s.index → ((f.bindings s).map Prod.fst).Nodup

/-- There is nothing yet where new scopes go. -/
theorem distinctFrom_size (f : Scopes) : f.DistinctFrom f.all.size := by
  intro s hs
  have hnone : f.get? s = none := Array.getElem?_eq_none hs
  rw [bindings, hnone]
  exact .nil

theorem DistinctFrom.modify {o : ScopeId} {k : Scope → Scope} (hf : f.DistinctFrom n)
    (hk : ∀ s : Scope, (s.bindings.map Prod.fst).Nodup → ((k s).bindings.map Prod.fst).Nodup) :
    (f.modify o k).DistinctFrom n := by
  intro s hs
  have hold := hf s hs
  rw [bindings] at hold ⊢
  rw [get?_modify]
  split
  · next heq =>
    subst heq
    cases hscope : f.get? s with
    | none => exact .nil
    | some scope =>
      rw [hscope] at hold
      exact hk scope hold
  · exact hold

theorem Step.distinctFrom (h : Step f g) (hf : f.DistinctFrom n) : g.DistinctFrom n := by
  cases h with
  | define o name value => exact hf.modify fun s => Scope.nodup_names_bind s
  | listen o name listener => exact hf.modify fun _ hs => hs
  | house o widget => exact hf.modify fun _ hs => hs
  | add parent =>
    intro s hs
    have hold := hf s hs
    by_cases hnew : s.index = f.all.size
    · simp [bindings, get?, Scopes.add, hnew]
    · have hsame : (f.add parent).2.get? s = f.get? s := by
        simp [get?, Scopes.add, Array.getElem?_push, hnew]
      rwa [bindings, hsame]

theorem Follows.distinctFrom (h : f.Follows g) (hf : f.DistinctFrom n) : g.DistinctFrom n := by
  induction h with
  | refl => exact hf
  | tail _ hs ih => exact hs.distinctFrom ih

end names

end Scopes

variable {σ : Type} {host : Host σ}

/-- A relation along which a script can lead from scopes to scopes: it writes names and registers
listeners. -/
structure Scopes.Carries (R : Scopes → Scopes → Prop) : Prop where
  assign : ∀ (f : Scopes) scope name value, R f (f.assign scope name value).2
  listen : ∀ (f : Scopes) scope name listener, R f (f.listen scope name listener)

namespace Scopes.Carries

variable {R : Scopes → Scopes → Prop} [IsPreorder Scopes R] (h : Carries R)

include h

theorem run (apply : FunctionValue → List Value → Site → Code) (n : Nat) (code : Code)
    (stack : Stack) (w : World) (s : σ) : R w.scopes (run host apply n code stack w s).world.scopes := by
  induction n generalizing code stack w s with
  | zero => exact Std.Refl.refl _
  | succ n ih =>
    cases code with
    | done flow =>
      rw [Script.run]
      split
      · exact Std.Refl.refl _
      · exact ih _ _ _ _
      · exact ih _ _ _ _
    | fail e =>
      rw [Script.run]
      split
      · exact Std.Refl.refl _
      · exact ih _ _ _ _
      · exact ih _ _ _ _
    | step f => exact ih (f w).2 stack { (f w).1 with scopes := w.scopes } s
    | assign scope name value k =>
      have hrest := ih (k (w.scopes.assign scope name value).1) stack
        { w with scopes := (w.scopes.assign scope name value).2 } s
      exact IsTrans.trans _ _ _ (h.assign w.scopes scope name value) hrest
    | listen scope name listener k =>
      have hrest := ih k stack { w with scopes := w.scopes.listen scope name listener } s
      exact IsTrans.trans _ _ _ (h.listen w.scopes scope name listener) hrest
    | call f arguments site k =>
      rw [Script.run]
      split <;> exact ih _ _ _ _
    | tailCall f arguments site =>
      rw [Script.run]
      split <;> exact ih _ _ _ _
    | guard body k => exact ih _ _ _ _
    | request service k => exact ih _ _ _ _
    | caller level k => exact ih _ _ _ _
    | living k => exact ih _ _ _ _

variable (w : World) (s : σ) (scope : ScopeId)

theorem perform (body : Act Flow) : R w.scopes (w.perform host s scope body).2.1.scopes :=
  h.run apply maxSteps body.withErrorText.code {}
    { w with entered := some scope, held := scope :: w.held } s

theorem execute (source : String) : R w.scopes (w.execute host s scope source).2.1.scopes := by
  unfold World.execute
  split
  · exact Std.Refl.refl _
  · exact h.perform w s scope _

theorem callFunction (f : FunctionId) (arguments : List Value) :
    R w.scopes (w.callFunction host s scope f arguments).2.1.scopes :=
  h.perform w s scope _

end Scopes.Carries

theorem follows_carries : Scopes.Carries Scopes.Follows where
  assign f _ name value := (Scopes.Step.define f _ name value).follows
  listen f scope name listener := (Scopes.Step.listen f scope name listener).follows

namespace World

variable (w : World) (s : σ) (scope : ScopeId)

theorem execute_scopes (source : String) :
    w.scopes.Follows (w.execute host s scope source).2.1.scopes :=
  follows_carries.execute w s scope source

theorem callFunction_scopes (f : FunctionId) (arguments : List Value) :
    w.scopes.Follows (w.callFunction host s scope f arguments).2.1.scopes :=
  follows_carries.callFunction w s scope f arguments

end World

end Hypermedia.Script
