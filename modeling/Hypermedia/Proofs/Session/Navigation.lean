import Hypermedia.Proofs.Markup.Growth
import Hypermedia.Proofs.Session.Scripting

/-! Navigation keeps the books of a session in order: fetching and compiling do not touch them, and a
new page closes those of the old one. -/
namespace Hypermedia.Session

open Effect (Moves)

section inline

variable {τ : Type} {R : τ → τ → Prop} [IsPreorder τ R]

theorem state_inlineAll {inlineOne : Node → τ → Inlined τ Node}
    (hone : ∀ n s, R s (inlineOne n s).state) (ns : List Node) (s : τ) :
    R s (inlineAll inlineOne ns s).state := by
  induction ns generalizing s with
  | nil => exact Std.Refl.refl s
  | cons n rest ih =>
    rw [inlineAll]
    dsimp only
    split
    · exact hone n s
    · exact IsTrans.trans _ _ _ (hone n s) (ih _)

theorem state_inlineLibrary {inlineOne : Node → τ → Inlined τ Node}
    (hone : ∀ n s, R s (inlineOne n s).state) (depth : Nat) (src body : String) (n : Node) (s : τ) :
    R s (inlineLibrary inlineOne depth src body n s).state := by
  unfold inlineLibrary
  split
  · exact Std.Refl.refl s
  · split
    · exact Std.Refl.refl s
    · next library _ =>
      dsimp only
      split <;> exact hone library s

variable {fetch : Fetch τ} (hfetch : ∀ src s, R s (fetch src s).2)

include hfetch

theorem state_inlineSource {inlineOne : Node → τ → Inlined τ Node}
    (hone : ∀ n s, R s (inlineOne n s).state) (depth : Nat) (n : Node) (s : τ) :
    R s (inlineSource fetch inlineOne depth n s).state := by
  unfold inlineSource
  split
  · exact Std.Refl.refl s
  · next src _ =>
    have hs := hfetch src s
    dsimp only
    split
    · next hr =>
      rw [hr] at hs
      exact hs
    · next hr =>
      rw [hr] at hs
      split
      · exact IsTrans.trans _ _ _ hs (state_inlineLibrary hone _ _ _ _ _)
      · exact hs

theorem state_inlineWithin (budget depth : Nat) (n : Node) (s : τ) :
    R s (inlineWithin fetch budget depth n s).state := by
  induction budget generalizing depth n s with
  | zero => exact Std.Refl.refl s
  | succ budget ih =>
    have hsource := state_inlineSource hfetch (ih (depth + 1)) depth n s
    rw [inlineWithin]
    dsimp only
    split
    · exact hsource
    · exact IsTrans.trans _ _ _ hsource (state_inlineAll (ih depth) _ _)

/-- Inlining leads wherever fetches lead, one after another. -/
theorem state_inlineSources (budget : Nat) (n : Node) (s : τ) :
    R s (inlineSources fetch budget n s).state :=
  state_inlineWithin hfetch budget 0 n s

end inline

variable {σ : Type} {s t : Session σ} (transport : Transport σ)

section fetching

/-- Nothing but the network has changed. -/
def Fetches (s t : Session σ) : Prop :=
  ∃ network, t = { s with network }

instance : IsPreorder (Session σ) Fetches where
  refl s := ⟨s.network, rfl⟩
  trans s t u := by
    rintro ⟨network, rfl⟩ ⟨later, rfl⟩
    exact ⟨later, rfl⟩

theorem fetches_exchange (r : Network.Request) : Moves Fetches (exchange transport r) := by
  refine Effect.moves_bind (Effect.moves_modify fun s => ⟨_, rfl⟩) fun _ => ?_
  refine Effect.moves_get_bind fun s => ?_
  refine Effect.moves_set_bind ⟨_, rfl⟩ ?_
  split
  · exact moves_lift _ _
  · exact Effect.moves_throw _

theorem fetches_fetchDocument (url : Url) : Moves Fetches (fetchDocument transport url) := by
  refine Effect.moves_bind (moves_lift _ _) fun request => ?_
  refine Effect.moves_bind (fetches_exchange transport request) fun response => ?_
  split
  · exact Effect.moves_pure _
  · exact Effect.moves_throw _

theorem fetches_fetchSource (base : Url) (src : String) (s : Session σ) :
    s.Fetches (fetchSource transport base src s).2 := by
  have hfetch : Moves Fetches (do
      let url ← lift .network (resolveEndpoint base src)
      return (← fetchDocument transport url).body : Act σ String) :=
    Effect.moves_bind (moves_lift _ _) fun url =>
      Effect.moves_bind (fetches_fetchDocument transport url) fun _ => Effect.moves_pure _
  exact hfetch s

theorem fetches_inlined (base : Url) (n : Node) : Moves Fetches (inlined transport base n) := by
  refine Effect.moves_get_bind fun s => ?_
  refine Effect.moves_set_bind
    (state_inlineSources (fetches_fetchSource transport base) maxInlineBudget n s) ?_
  split
  · exact Effect.moves_pure _
  · exact Effect.moves_throw _
  · exact Effect.moves_throw _

/-- What a page change shows: where a destination leads, and the document there with its resources. -/
def fetched (destination : String) : Act σ (Url × Node) := do
  let url ← lift .network (resolveEndpoint (← get).url destination)
  let response ← fetchDocument transport url
  let document ← readMarkup response.body
  return (url, ← inlined transport url document)

theorem visit_eq (destination : String) :
    visit transport destination =
      fetched transport destination >>= fun found => install found.1 found.2 := by
  simp only [visit, fetched, bind_assoc, pure_bind]

theorem refresh_eq (s : Session σ) : refresh transport s = route transport s.url.text true s := by
  rw [refresh, Effect.run_get_bind]

theorem fetches_fetched (destination : String) : Moves Fetches (fetched transport destination) := by
  refine Effect.moves_get_bind fun s => ?_
  refine Effect.moves_bind_at (moves_lift _ _ s) fun url => ?_
  refine Effect.moves_bind (fetches_fetchDocument transport url) fun response => ?_
  refine Effect.moves_bind (moves_lift _ _) fun document => ?_
  exact Effect.moves_bind (fetches_inlined transport url document) fun _ => Effect.moves_pure _

theorem keeps_network (network : σ) : s.Keeps { s with network } :=
  ⟨rfl, rfl, rfl, rfl, Nat.le_refl _, fun _ _ h => h⟩

theorem Fetches.keeps (h : s.Fetches t) : s.Keeps t := by
  obtain ⟨network, rfl⟩ := h
  exact keeps_network network

end fetching

theorem keeps_compiled {α : Type} {c : Markup.Compile α} (hc : Moves Markup.Workspace.Grows c) :
    Moves Keeps (compiled c : Act σ α) := by
  refine Effect.moves_get_bind fun s => ?_
  have hgrow := hc { registry := s.registry, tree := s.tree }
  refine Effect.moves_set_bind ?_ (moves_lift _ _)
  exact ⟨rfl, rfl, rfl, rfl, hgrow, fun _ _ h => h⟩

theorem keeps_addRules (rules : Style.RuleMap) : Moves Keeps (addRules rules : Act σ Unit) :=
  moves_addRules (fun _ _ => ⟨rfl, rfl, rfl, rfl, Nat.le_refl _, fun _ _ h => h⟩) rules

section pages

/-- Of widgets that never got a place some are removed. -/
theorem dropLoose_eq (tree : Tree) (ids : List WidgetId) :
    ∃ dropped ⊆ ids, dropLoose tree ids = tree.removeAll dropped := by
  induction ids generalizing tree with
  | nil => exact ⟨[], List.Subset.refl _, rfl⟩
  | cons id ids ih =>
    unfold dropLoose at ih ⊢
    rw [List.foldl_cons]
    split
    · obtain ⟨dropped, hsub, heq⟩ := ih (tree.remove id)
      exact ⟨id :: dropped, List.cons_subset_cons id hsub, heq⟩
    · obtain ⟨dropped, hsub, heq⟩ := ih tree
      exact ⟨dropped, List.subset_cons_of_subset id hsub, heq⟩

theorem size_dropLoose (tree : Tree) (ids : List WidgetId) :
    (dropLoose tree ids).slots.size = tree.slots.size := by
  obtain ⟨dropped, -, heq⟩ := dropLoose_eq tree ids
  rw [heq, Tree.size_removeAll]

theorem keeps_stage (root : Option WidgetId) : s.Keeps (s.stage root) :=
  ⟨rfl, rfl, rfl, rfl, (Tree.leads_setRoot s.tree.takeRoot.2 root).later.size_le, fun _ _ h => h⟩

theorem acts_startAll (lists : List (List Action.Instruction × WidgetId)) :
    s.Acts (lists.foldl (fun s list => s.startActions list.1 list.2) s) :=
  Effect.along_foldl (fun _ list => acts_startActions list.1 list.2) s lists

theorem acts_commit (o : Outgoing) (url : Url) (page : Markup.Page) :
    s.Acts (s.commit o url page) := by
  unfold commit
  dsimp only
  refine acts_cancelInFlight.trans (Acts.trans (Keeps.acts ?_) (acts_startAll _))
  refine ⟨rfl, rfl, rfl, rfl, ?_, fun _ _ h => h⟩
  exact Nat.le_of_eq (by rw [size_dropLoose, Tree.size_removeAll, Tree.size_removeAll])

theorem keeps_rollback (o : Outgoing) : s.Keeps (s.rollback o) := by
  have hnone := (Tree.leads_setRoot s.tree none).later.size_le
  have hold := (Tree.leads_setRoot (s.tree.setRoot none) o.root).later.size_le
  refine ⟨rfl, rfl, rfl, rfl, ?_, fun _ _ h => h⟩
  unfold rollback
  rw [size_dropLoose, Tree.size_removeAll]
  exact Nat.le_trans hnone hold

theorem moves_attempt {α : Type} {step : Act σ α} (h : Moves Acts step) :
    Moves Acts (attempt step) :=
  fun s => h s

theorem moves_install (url : Url) (n : Node) : Moves Acts (install url n : Act σ Unit) := by
  have hcompiled := (keeps_compiled (σ := σ) (Markup.compiling_grows.compilePage n)).mono fun _ _ h => h.acts
  refine Effect.moves_bind hcompiled fun page => ?_
  refine Effect.moves_bind (Effect.moves_modify fun s => (keeps_stage _).acts) fun _ => ?_
  refine Effect.moves_get_bind fun s => ?_
  have hrun : Moves Acts (runPage page : Act σ Unit) :=
    (acts_carries.runPage fun _ _ _ _ => trivial).moves fun _ => trivial
  refine Effect.moves_bind_at (moves_attempt hrun s) fun result => ?_
  split
  · exact Effect.moves_modify fun _ => acts_commit _ _ _
  · exact Effect.moves_bind (Effect.moves_modify fun _ => (keeps_rollback _).acts) fun _ =>
      Effect.moves_throw _
  · exact moves_lift _ _

end pages

section navigation

/-- Navigation leads along a relation. -/
structure Navigates (R : Session σ → Session σ → Prop) : Prop where
  fetches : ∀ s t : Session σ, s.Fetches t → R s t
  history : ∀ (s : Session σ) history, R s { s with history }
  install : ∀ url n, Moves R (install url n : Act σ Unit)

namespace Navigates

variable {R : Session σ → Session σ → Prop} [IsPreorder (Session σ) R] (h : Navigates R)

include h

theorem visit (destination : String) : Moves R (visit transport destination) := by
  rw [visit_eq]
  have hfetched := (fetches_fetched transport destination).mono h.fetches
  exact Effect.moves_bind hfetched fun found => h.install found.1 found.2

theorem route (destination : String) (suppressHistory : Bool) :
    Moves R (route transport destination suppressHistory) := by
  unfold Session.route
  dsimp only
  split
  · exact Effect.moves_bind (Effect.moves_modify fun s => h.history s _) fun _ =>
      h.visit transport destination
  · exact h.visit transport destination

theorem revisit (move : History → History) : Moves R (revisit transport move) := by
  refine Effect.moves_get_bind fun s => ?_
  refine Effect.moves_set_bind (h.history s (move s.history)) ?_
  split
  · exact Effect.moves_pure _
  · split
    · exact h.route transport _ _
    · exact Effect.moves_pure _

theorem refresh : Moves R (refresh transport) :=
  Effect.moves_get_bind fun s => h.route transport _ _ s

end Navigates

theorem acts_navigates : Navigates (Acts (σ := σ)) where
  fetches _ _ h := h.keeps.acts
  history _ _ := Keeps.acts ⟨rfl, rfl, rfl, rfl, Nat.le_refl _, fun _ _ h => h⟩
  install := moves_install

end navigation

end Hypermedia.Session
