import Hypermedia.Proofs.Session.Navigation

/-! Answers keep the books of a session in order, and a fragment that is loaded is a new one. -/
namespace Hypermedia.Session

open Effect (Moves Gives)
open Hypermedia.Action (Ask)

variable {σ : Type} {s t : Session σ} {root : WidgetId} (transport : Transport σ)

section fragments

theorem keeps_takePending (id : WidgetId) : s.Keeps (s.takePending id).2 :=
  ⟨rfl, rfl, rfl, rfl, Nat.le_refl _, fun _ _ h => List.filter_sublist.lookup_eq_none h⟩

/-- A fragment at a place that `s` did not have may wait for a place. -/
theorem keeps_awaitPlace {fragment : Markup.Fragment} (h : s.Keeps t)
    (hnew : s.tree.slots.size ≤ fragment.root.index) : s.Keeps (awaitPlace fragment t).2 := by
  have hrules := h.trans (keeps_addRules fragment.rules t)
  rw [awaitPlace, Effect.run_bind]
  cases hr : addRules fragment.rules t with
  | mk r u =>
    rw [hr] at hrules
    cases r with
    | error e => exact hrules
    | ok _ =>
      refine ⟨hrules.generation, hrules.workers, hrules.nextWorker, hrules.inbox, hrules.size_le, ?_⟩
      intro root hlt hnone
      have hne : (root == fragment.root) = false := by
        rw [beq_eq_false_iff_ne]
        rintro rfl
        exact absurd hlt (Nat.not_lt_of_le hnew)
      have hu := hrules.pending root hlt hnone
      change (u.pending ++ [(fragment.root, fragment.widgets)]).lookup root = none
      rw [List.lookup_append, hu]
      simp [List.lookup_cons, hne]

theorem gives_compiled {α : Type} {c : Markup.Compile α}
    {Q : Markup.Workspace → α → Markup.Workspace → Prop} (hc : Gives Q c) :
    Gives (fun s a t => Q { registry := s.registry, tree := s.tree } a
      { registry := t.registry, tree := t.tree }) (compiled c : Act σ α) := by
  intro s a t h
  rw [compiled, Effect.run_get_bind] at h
  cases hr : c.run { registry := s.registry, tree := s.tree } with
  | mk r ws =>
    rw [hr] at h
    cases r with
    | error e => cases h
    | ok b =>
      cases h
      exact hc _ a ws hr

theorem keeps_loadCompiled (n : Node) :
    Moves Keeps (do awaitPlace (← compiled (Markup.compileFragment n)) : Act σ WidgetId) := by
  intro s
  have hkeeps := keeps_compiled (Markup.compiling_grows.compileFragment n) s
  have hmakes := gives_compiled (Markup.makes_compileFragment n) s
  rw [Effect.run_bind]
  cases hr : (compiled (Markup.compileFragment n) : Act σ Markup.Fragment) s with
  | mk r t =>
    rw [hr] at hkeeps
    cases r with
    | error e => exact hkeeps
    | ok fragment => exact keeps_awaitPlace hkeeps (hmakes fragment t hr).1

/-- Loading a fragment touches neither lists nor messages, and the fragment is new. -/
theorem keeps_loadFragment (r : Network.Response) : Moves Keeps (loadFragment transport r) := by
  refine Effect.moves_bind (moves_lift _ _) fun node => ?_
  refine Effect.moves_get_bind fun s => ?_
  have hinlined := (fetches_inlined transport ((Url.parse r.url).toOption.getD s.url) node).mono
    fun _ _ h => h.keeps
  exact Effect.moves_bind_at (hinlined s) fun n => keeps_loadCompiled n

theorem gives_awaitPlace (fragment : Markup.Fragment) :
    Gives (fun s root t => root = fragment.root ∧ s.tree.slots.size ≤ t.tree.slots.size)
      (awaitPlace fragment : Act σ WidgetId) := by
  refine Effect.gives_bind (Effect.gives_of_moves (keeps_addRules _)) fun s _ t hrules root u h => ?_
  cases h
  exact ⟨rfl, hrules.size_le⟩

theorem gives_loadFragment (r : Network.Response) :
    Gives (fun _ root t => root.index < t.tree.slots.size) (loadFragment transport r) := by
  refine Effect.gives_bind_last fun node => Effect.gives_bind_last fun s =>
    Effect.gives_bind_last fun n => ?_
  refine Effect.gives_bind (gives_compiled (Markup.makes_compileFragment n))
    fun s fragment t hmakes root u h => ?_
  obtain ⟨rfl, hsize⟩ := gives_awaitPlace fragment t root u h
  exact Nat.lt_of_lt_of_le hmakes.2 hsize

end fragments

section edits

theorem moves_applyEdit (result target : WidgetId) (edit : Edit) :
    Moves Acts (applyEdit result target edit : Act σ Unit) := by
  refine Effect.moves_get_bind fun s => ?_
  dsimp only
  have hplace := (Tree.leads_place s.tree result target edit).later.size_le
  refine Effect.moves_set_bind (keeps_tree hplace).acts ?_
  refine Effect.moves_bind (moves_lift _ _) fun _ => ?_
  split
  · exact Effect.moves_pure _
  · next root _ =>
    refine Effect.moves_get_bind fun t => ?_
    refine Effect.moves_set_bind ?_ (moves_bindScripts _)
    split
    · exact (keeps_takePending root).acts
    · exact ((keeps_takePending root).trans (keeps_tree (Nat.le_of_eq Tree.size_remove.symm))).acts

theorem keeps_releaseFragments (roots : List WidgetId) : s.Keeps (s.releaseFragments roots) :=
  along_releaseFragments (fun _ root _ =>
    (keeps_takePending root).trans (keeps_tree (Nat.le_of_eq Tree.size_remove.symm))) s roots

end edits

theorem moves_answer (q : Ask) : Moves Acts (answer transport q) := by
  cases q with
  | requestBody caller selector => exact Effect.moves_get_bind fun s => moves_lift _ _ s
  | loadFragment response => exact (keeps_loadFragment transport response).mono fun _ _ h => h.acts
  | select selector within => exact Effect.moves_get_bind fun s => moves_lift _ _ s
  | isContainer id => exact Effect.moves_get_bind fun s => moves_lift _ _ s
  | query id => exact Effect.moves_get_bind fun s => Effect.moves_pure _ s
  | edit result target edit => exact moves_applyEdit result target edit

end Hypermedia.Session
