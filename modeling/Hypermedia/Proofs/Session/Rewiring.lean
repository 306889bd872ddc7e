import Hypermedia.Proofs.Markup.Descriptors
import Hypermedia.Proofs.Session.Bindings
import Hypermedia.Proofs.Session.Preserving
import Hypermedia.Proofs.Session.Travel

/-! What turns bind: the bindings that a turn gives widgets are handlers of valid events, or what the markup
declares that it compiles. -/
namespace Hypermedia.Session

open Effect (Moves)
open Hypermedia.Action (Ask)
open Markup (Material)

variable {σ : Type} {s t u : Session σ} {P : String × Binding → Prop} (transport : Transport σ)

/-- `t` comes after `s`, and a widget in it binds what it bound in `s` or something of a kind. -/
structure Rewires (P : String × Binding → Prop) (s t : Session σ) : Prop where
  bindings : ∀ x w, t.tree.get? x = some w → ∀ b ∈ w.bindings,
    P b ∨ ∃ v, s.tree.get? x = some v ∧ b ∈ v.bindings
  scopes : s.world.scopes.Follows t.world.scopes

theorem Rewires.refl (s : Session σ) : s.Rewires P s :=
  ⟨fun _ w hw _ hb => .inr ⟨w, hw, hb⟩, .refl⟩

theorem Rewires.trans (h : s.Rewires P t) (k : t.Rewires P u) : s.Rewires P u where
  bindings x w hw b hb := by
    rcases k.bindings x w hw b hb with hP | ⟨v, hv, hb⟩
    · exact .inl hP
    · exact h.bindings x v hv b hb
  scopes := h.scopes.trans k.scopes

instance : IsPreorder (Session σ) (Rewires P) where
  refl := .refl
  trans _ _ _ := .trans

theorem rewires_of_wires (h : Tree.Wires P s.tree t.tree) (hscopes : s.world.scopes.Follows t.world.scopes) :
    s.Rewires P t where
  bindings x w hw b hb := by
    rcases h.wired x w hw with ⟨v, hv, hsame⟩ | ⟨-, hnew⟩
    · exact .inr ⟨v, hv, hsame.1 ▸ hb⟩
    · exact .inl (hnew b hb)
  scopes := hscopes

/-- A step that leaves both the world and the tree alone. -/
theorem rewires_of_eq (htree : t.tree = s.tree) (hworld : t.world = s.world) : s.Rewires P t :=
  rewires_of_wires (htree ▸ .refl _) (hworld ▸ .refl)

section scripts

theorem rewires_bind (hP : ∀ b, IsValid b → P b) {id : WidgetId} {name : String} (f : FunctionId)
    (hname : isValidEvent name = true) :
    s.Rewires P { s with tree := s.tree.modify id fun w => w.bind name (.script f) } where
  bindings x w hw b hb := by
    rw [Tree.get?_modify] at hw
    split at hw
    · obtain ⟨v, hv, rfl⟩ := Option.map_eq_some_iff.mp hw
      rcases Widget.mem_bindIn hb with rfl | hold
      · exact .inl (hP _ hname)
      · exact .inr ⟨v, hv, hold⟩
    · exact .inr ⟨w, hw, hb⟩
  scopes := .refl

theorem rewires_binds (hP : ∀ b, IsValid b → P b) :
    Binds (Rewires (σ := σ) P) (fun _ => True) (fun _ => True) where
  perform service s _ := rewires_of_wires ((wires_perform service s).mono hP) (world_perform service s ▸ .refl)
  world _ _ hworld := ⟨fun _ w hw _ hb => .inr ⟨w, hw, hb⟩, hworld⟩
  rules _ _ := rewires_of_eq rfl rfl
  bind _ _ _ f _ hname := rewires_bind hP f hname
  scope s id _ _ := ⟨fun x w hw b hb => by
    rw [Tree.get?_modify] at hw
    split at hw
    · obtain ⟨v, hv, rfl⟩ := Option.map_eq_some_iff.mp hw
      exact .inr ⟨v, hv, hb⟩
    · exact .inr ⟨w, hw, hb⟩, .refl⟩

end scripts

section pages

theorem Fetches.rewires (h : s.Fetches t) : s.Rewires P t := by
  obtain ⟨network, rfl⟩ := h
  exact rewires_of_eq rfl rfl

theorem rewires_compiled {α : Type} {c : Markup.Compile α}
    (h : Tree.Wires P s.tree (c { registry := s.registry, tree := s.tree }).2.tree) :
    s.Rewires P (compiled c s).2 := by
  rw [compiled, Effect.run_get_bind]
  exact Effect.moves_set_bind (rewires_of_wires h .refl) (moves_lift _ _)

theorem rewires_stage (root : Option WidgetId) : s.Rewires P (s.stage root) :=
  rewires_of_wires (wires_stage root) (Script.Scopes.Step.add s.world.scopes none).follows

theorem rewires_cancelInFlight : s.Rewires P s.cancelInFlight :=
  rewires_of_wires (Tree.wires_removeAll s.tree _) .refl

theorem rewires_report (e : Error) : s.Rewires P (s.report e) :=
  along_report (fun _ _ => rewires_of_eq rfl rfl) (fun _ => rewires_cancelInFlight)
    (fun _ => rewires_of_eq rfl rfl) s e

theorem rewires_commit (o : Outgoing) (url : Url) (page : Markup.Page) : s.Rewires P (s.commit o url page) := by
  obtain ⟨-, -, ids, -, htree⟩ := commit_frame s o url page
  exact rewires_of_wires (htree ▸ Tree.wires_removeAll s.tree ids) (world_commit s o url page ▸ .refl)

theorem wires_dropLoose (tree : Tree) (ids : List WidgetId) : Tree.Wires P tree (dropLoose tree ids) := by
  obtain ⟨dropped, -, heq⟩ := dropLoose_eq tree ids
  exact heq ▸ Tree.wires_removeAll tree dropped

theorem rewires_rollback (o : Outgoing) : s.Rewires P (s.rollback o) := by
  have hcleared := (Tree.leads_setRoot s.tree none).wires (P := P) Tree.size_setRoot
  have hback := hcleared.trans ((Tree.leads_setRoot _ o.root).wires Tree.size_setRoot)
  exact rewires_of_wires ((hback.trans (Tree.wires_removeAll _ _)).trans (wires_dropLoose _ _)) .refl

theorem rewires_install (hP : ∀ b, IsValid b → P b) (url : Url) {n : Node}
    (hn : ∀ b, (Material.ofPage s.registry n).Declares b → P b) : s.Rewires P (install url n s).2 := by
  have hcompiled : s.Rewires P (compiled (Markup.compilePage n) s).2 :=
    rewires_compiled ((Markup.wires_compilePage n { registry := s.registry, tree := s.tree }).mono hn)
  obtain ⟨e, t, hc, h⟩ | ⟨page, t, u, hc, hr, h⟩ := install_outcomes url n s
  · rw [hc] at hcompiled
    rw [h]
    exact hcompiled
  · rw [hc] at hcompiled
    have hruns : Moves (Rewires P) (runPage page : Act σ Unit) :=
      ((rewires_binds hP).runPage fun _ _ _ _ => trivial).moves fun _ => trivial
    have hran := (hcompiled.trans (rewires_stage (page.content.map Markup.Fragment.root))).trans (hruns _)
    rw [hr] at hran
    rcases h with h | ⟨e, h⟩ <;> rw [h]
    · exact hran.trans (rewires_commit _ url page)
    · exact hran.trans (rewires_rollback _)

/-- The page that is shown at a destination, as markup with its resources. -/
def shown? (s : Session σ) (destination : String) : Option Material :=
  (fetched transport destination s).1.toOption.map fun found => .ofPage s.registry found.2

theorem rewires_visit (hP : ∀ b, IsValid b → P b) {destination : String}
    (h : ∀ m, s.shown? transport destination = some m → ∀ b, m.Declares b → P b) :
    s.Rewires P (visit transport destination s).2 := by
  have hfetched := fetches_fetched transport destination s
  rw [visit_eq, Effect.run_bind]
  unfold shown? at h
  cases hf : fetched transport destination s with
  | mk result t =>
    rw [hf] at h hfetched
    cases result with
    | error e => exact hfetched.rewires
    | ok found =>
      obtain ⟨network, rfl⟩ := hfetched
      have hsent : s.Rewires P { s with network } := rewires_of_eq rfl rfl
      exact hsent.trans (rewires_install hP found.1 (h _ rfl))

end pages

section answers

theorem rewires_releaseFragments (roots : List WidgetId) : s.Rewires P (s.releaseFragments roots) :=
  along_releaseFragments (fun s root _ => rewires_of_wires (Tree.wires_remove s.tree root) .refl) s roots

theorem rewires_applyEdit (hP : ∀ b, IsValid b → P b) (result target : WidgetId) (edit : Edit) :
    Moves (Rewires P) (applyEdit result target edit : Act σ Unit) := by
  refine Effect.moves_get_bind fun s => ?_
  have hplace := (Tree.leads_place s.tree result target edit).wires (P := P) Tree.size_place
  refine Effect.moves_set_bind (rewires_of_wires hplace .refl) ?_
  refine Effect.moves_bind (moves_lift _ _) fun _ => ?_
  split
  · exact Effect.moves_pure _
  · next root _ =>
    refine Effect.moves_get_bind fun t => Effect.moves_set_bind ?_ ?_
    · split
      · exact rewires_of_eq rfl rfl
      · exact rewires_of_wires (Tree.wires_remove t.tree root) .refl
    · exact ((rewires_binds hP).bindScripts fun _ _ => trivial).moves fun _ => trivial

/-- The fragment that a response makes, as markup with its resources. -/
def loaded? (s : Session σ) (response : Network.Response) : Option Material :=
  (responseMarkup transport response s).1.toOption.map (.ofFragment s.registry)

theorem rewires_awaitPlace (fragment : Markup.Fragment) :
    Moves (Rewires P) (awaitPlace fragment : Act σ WidgetId) := by
  refine Effect.moves_bind (moves_addRules (fun _ _ => rewires_of_eq rfl rfl) _) fun _ => ?_
  exact Effect.moves_bind (Effect.moves_modify fun s => rewires_of_eq rfl rfl) fun _ => Effect.moves_pure _

theorem rewires_loadFragment {response : Network.Response}
    (h : ∀ m, s.loaded? transport response = some m → ∀ b, m.Declares b → P b) :
    s.Rewires P (loadFragment transport response s).2 := by
  have hfetched := fetches_responseMarkup transport response s
  rw [loadFragment_eq]
  refine Effect.moves_bind_at ?_ rewires_awaitPlace
  rw [compileResponse, Effect.run_bind]
  unfold loaded? at h
  cases hf : responseMarkup transport response s with
  | mk result t =>
    rw [hf] at h hfetched
    cases result with
    | error e => exact hfetched.rewires
    | ok n =>
      obtain ⟨network, rfl⟩ := hfetched
      have hsent : s.Rewires P { s with network } := rewires_of_eq rfl rfl
      refine hsent.trans (rewires_compiled ?_)
      exact (Markup.wires_compileFragment n { registry := s.registry, tree := s.tree }).mono (h _ rfl)

theorem rewires_answer (hP : ∀ b, IsValid b → P b) (q : Ask)
    (h : ∀ response, q = .loadFragment response → ∀ m, s.loaded? transport response = some m →
      ∀ b, m.Declares b → P b) : s.Rewires P (answer transport q s).2 := by
  cases q with
  | requestBody caller selector => exact moves_lift _ _ s
  | loadFragment response => exact rewires_loadFragment transport (h response rfl)
  | select selector within => exact moves_lift _ _ s
  | isContainer id => exact moves_lift _ _ s
  | query id => exact .refl s
  | edit result target edit => exact rewires_applyEdit hP result target edit s

end answers

section turns

/-- The question that the next message asks, unless the page has changed since its sender was started. -/
def nextQuestion? (s : Session σ) : Option Ask :=
  match s.inbox with
  | [] => none
  | m :: _ =>
    match m.task, s.workers.find? (·.id = m.sender) with
    | .answer, some w =>
      match w.phase with
      | .asking q _ => if s.generation = m.started then some q else none
      | _ => none
    | _, _ => none

theorem rewires_handleNext (hP : ∀ b, IsValid b → P b)
    (h : ∀ response, s.nextQuestion? = some (.loadFragment response) →
      ∀ m, { s with inbox := s.inbox.tail }.loaded? transport response = some m → ∀ b, m.Declares b → P b) :
    s.Rewires P (s.handleNext transport) := by
  obtain ⟨-, heq⟩ | ⟨m, inbox, hinbox, hcases⟩ := handleNext_outcomes transport s
  · rw [heq]
    exact .refl s
  have hdropped : s.Rewires P { s with inbox } := rewires_of_eq rfl rfl
  refine hdropped.trans ?_
  obtain ⟨htask, heq⟩ | ⟨roots, -, heq⟩ | ⟨e, -, heq⟩ := hcases <;> rw [heq]
  · obtain ⟨-, heq⟩ | ⟨w, q, k, hw, hphase, heq⟩ :=
      answerWorker_outcomes transport { s with inbox } m.sender m.started <;> rw [heq]
    · exact .refl _
    · have hanswered : Rewires P { s with inbox } (answerCurrent transport m.started q { s with inbox }).2 := by
        rw [answerCurrent_eq]
        split
        · next hcurrent =>
          refine rewires_answer transport hP q fun response hq => ?_
          have hw' : s.workers.find? (·.id = m.sender) = some w := hw
          have hcurrent' : s.generation = m.started := hcurrent
          have hnext : s.nextQuestion? = some (.loadFragment response) := by
            simp [nextQuestion?, hinbox, htask, hw', hphase, hcurrent', hq]
          simpa [hinbox] using h response hnext
        · exact .refl _
      exact hanswered.trans (rewires_of_eq rfl rfl)
  · exact rewires_releaseFragments _
  · exact rewires_report _

/-- Where a turn travels, with what it makes of the history before it does. -/
def journey? (s : Session σ) : Turn σ → Option (String × History)
  | .route destination suppressHistory => some (destination, s.historyTo destination suppressHistory)
  | .back => (Travel.back.destination? s).map (·, s.history.back)
  | .forward => (Travel.forward.destination? s).map (·, s.history.forward)
  | .refresh => some (s.url.text, s.history)
  | _ => none

/-- The markup that a turn compiles, if there is any. -/
def material? (s : Session σ) : Turn σ → Option Material
  | .message =>
    match s.nextQuestion? with
    | some (.loadFragment response) => { s with inbox := s.inbox.tail }.loaded? transport response
    | _ => none
  | turn => (s.journey? turn).bind fun (destination, history) => { s with history }.shown? transport destination

/-- Every call visits where it leads, if it leads anywhere. -/
theorem rewires_run (hP : ∀ b, IsValid b → P b) (call : Travel)
    (h : ∀ destination, call.destination? s = some destination →
      ∀ m, { s with history := call.move s.history }.shown? transport destination = some m →
        ∀ b, m.Declares b → P b) : s.Rewires P (call.run transport s).2 := by
  have hmoved : s.Rewires P { s with history := call.move s.history } := rewires_of_eq rfl rfl
  rw [call.run_eq transport s]
  cases hd : call.destination? s with
  | none => exact hmoved
  | some destination => exact hmoved.trans (rewires_visit transport hP (h destination hd))

/-- What a turn binds is what the markup declares that it compiles, and handlers of valid events. -/
theorem rewires_after (hP : ∀ b, IsValid b → P b) (turn : Turn σ)
    (h : ∀ m, s.material? transport turn = some m → ∀ b, m.Declares b → P b) :
    s.Rewires P (s.after transport turn) := by
  cases turn with
  | message =>
    refine rewires_handleNext transport hP fun response hnext m hm => h m ?_
    simpa [material?, hnext] using hm
  | timers =>
    exact (rewires_binds hP).toCarries.fireTimers (fun _ => rewires_report) (fun _ _ => rewires_of_eq rfl rfl) s
  | worker id =>
    obtain ⟨network, workers, inbox, heq⟩ := takeTurn_frame transport (s := s) id
    rw [after, heq]
    exact rewires_of_eq rfl rfl
  | route destination suppressHistory =>
    have hpushed : s.Rewires P { s with history := s.historyTo destination suppressHistory } :=
      rewires_of_eq rfl rfl
    rw [after, route_eq]
    exact hpushed.trans (rewires_visit transport hP fun m hm => h m hm)
  | back =>
    refine rewires_run transport hP .back fun d hd m hm => h m ?_
    simpa [material?, journey?, hd, Travel.move] using hm
  | forward =>
    refine rewires_run transport hP .forward fun d hd m hm => h m ?_
    simpa [material?, journey?, hd, Travel.move] using hm
  | refresh =>
    refine rewires_run transport hP .refresh fun d hd m hm => h m ?_
    obtain rfl := Option.some.inj hd
    exact hm
  | dispatch id event =>
    exact (rewires_binds hP).toCarries.dispatch (fun _ => rewires_report)
      (fun _ _ _ _ => rewires_of_eq rfl rfl) id event s
  | report error => exact rewires_report error
  | start actions caller => exact rewires_of_eq rfl rfl
  | takeErrors => exact rewires_of_eq rfl rfl
  | wait clock => exact rewires_of_eq rfl rfl
  | network network => exact rewires_of_eq rfl rfl

end turns

end Hypermedia.Session
