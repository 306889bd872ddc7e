import Hypermedia.Proofs.Session.Rewiring
import Hypermedia.Proofs.Session.Surroundings

/-! The events that widgets bind: all have the form of one but those of action lists that the markup gives
under a name that only starts like one. -/
namespace Hypermedia.Session

variable {σ : Type} {s t u v : Session σ} (transport : Transport σ)

section turns

theorem bare_start {config : Config} {network : σ} (h : start config network = .ok s) (x : WidgetId) :
    s.tree.get? x = none := by
  obtain ⟨url, -, rfl⟩ := start_eq_ok h
  rfl

/-- What a widget binds has the form of an event, or the markup declared it that some turn compiled. -/
theorem binding_origin {first : Session σ} (hbare : ∀ x, first.tree.get? x = none) (turns : List (Turn σ))
    {x : WidgetId} {w : Widget} {b : String × Binding}
    (hw : (first.afterAll transport turns).tree.get? x = some w) (hb : b ∈ w.bindings) :
    IsValid b ∨ ∃ before turn after m, turns = before ++ turn :: after ∧
      (first.afterAll transport before).material? transport turn = some m ∧ m.Declares b := by
  induction turns using List.reverseRecOn generalizing w with
  | nil =>
    rw [afterAll, List.foldl_nil, hbare] at hw
    cases hw
  | append_singleton turns turn ih =>
    let Declared (b : String × Binding) : Prop :=
      ∃ m, (first.afterAll transport turns).material? transport turn = some m ∧ m.Declares b
    have hstep : (first.afterAll transport turns).Rewires (fun b => IsValid b ∨ Declared b)
        ((first.afterAll transport turns).after transport turn) :=
      rewires_after transport (fun _ => .inl) turn fun m hm b hdeclares => .inr ⟨m, hm, hdeclares⟩
    rw [afterAll, List.foldl_append] at hw
    rcases hstep.bindings x w hw b hb with (hvalid | ⟨m, hm, hdeclares⟩) | ⟨v, hv, hold⟩
    · exact .inl hvalid
    · exact .inr ⟨turns, turn, [], m, rfl, hm, hdeclares⟩
    · refine (ih hv hold).imp_right ?_
      rintro ⟨before, turn', after, m, rfl, hm, hdeclares⟩
      exact ⟨before, turn', after ++ [turn], m, by simp, hm, hdeclares⟩

end turns

section refusals

variable {id : WidgetId} {scope : ScopeId} {query source name : String} {f : FunctionId}

theorem rewires_bindHandlers (id : WidgetId) (scope : ScopeId) (query source : String)
    (bindings : List (String × Script.Value)) :
    Effect.Moves (Rewires IsValid) (bindHandlers id scope query source bindings : Act σ Unit) :=
  ((rewires_binds fun _ hb => hb).toCarries.bindHandlers trivial scope query source bindings).moves
    fun _ => trivial

/-- A handler that is no handler of an event ends the binding of a widget, once those before it are bound. -/
theorem bindHandlers_of_invalid {before rest : List (String × Script.Value)}
    (hbefore : bindHandlers id scope query source before u = (.ok (), v)) (hname : isEventName name = true)
    (hinvalid : isValidEvent name = false) :
    bindHandlers id scope query source (before ++ (name, .function f) :: rest) u =
      (.error (.compile (.invalidEventHandler name)), v) := by
  have hinit : name ≠ "init" := by
    rintro rfl
    cases hname
  rw [bindHandlers_append, Effect.run_bind, hbefore]
  dsimp only
  rw [bindHandlers, if_neg hinit, if_pos hname, hinvalid]
  rfl

/-- A factory builds nothing that is given a handler of no event. -/
theorem perform_build_of_invalid {b : Widget.Blueprint} (h : ∃ handler ∈ b.handlers, isValidEvent handler.1 = false)
    (s : Session σ) : ∃ handler ∈ b.handlers, isValidEvent handler.1 = false ∧
      perform (.build b) s = (.error (CompileError.invalidEventHandler handler.1).message, s) := by
  rw [perform, buildWidget]
  cases hfind : b.handlers.find? fun h => !isValidEvent h.1 with
  | none =>
    obtain ⟨handler, hmem, hinvalid⟩ := h
    have hvalid := List.find?_eq_none.mp hfind handler hmem
    simp [hinvalid] at hvalid
  | some handler =>
    have hinvalid := List.find?_some hfind
    exact ⟨handler, List.mem_of_find?_eq_some hfind, by simpa using hinvalid, rfl⟩

end refusals

/-- At all times of a session, however its turns and those of its action lists are mixed, an event that a
widget binds has the form of one; but markup that some turn compiled gives it an action list under any name
that starts with `on` or `pre`. Handlers under such a name are refused: a factory builds nothing then, and no
widget binds what its script defines. -/
theorem bound_events_valid_or_declared (config : Config) (network : σ) (first : Session σ)
    (hstart : start config network = .ok first) (turns : List (Turn σ)) :
    let s := first.afterAll transport turns
    (∀ x w name binding, s.tree.get? x = some w → (name, binding) ∈ w.bindings →
      isValidEvent name = true ∨ isEventName name = true ∧ (∃ list, binding = .actions list) ∧
        ∃ before turn after m, turns = before ++ turn :: after ∧
          (first.afterAll transport before).material? transport turn = some m ∧ m.Declares (name, binding)) ∧
    (∀ b : Widget.Blueprint, (∃ handler ∈ b.handlers, isValidEvent handler.1 = false) →
      ∃ handler ∈ b.handlers, isValidEvent handler.1 = false ∧
        perform (.build b) s = (.error (CompileError.invalidEventHandler handler.1).message, s)) ∧
    ∀ id scope query source before name f rest (u v : Session σ),
      bindHandlers id scope query source before u = (.ok (), v) →
      isEventName name = true → isValidEvent name = false →
        bindHandlers id scope query source (before ++ (name, .function f) :: rest) u =
          (.error (.compile (.invalidEventHandler name)), v) ∧ u.Rewires IsValid v := by
  intro s
  refine ⟨fun x w name binding hw hb => ?_, fun b h => perform_build_of_invalid h s, ?_⟩
  · refine (binding_origin transport (bare_start hstart) turns hw hb).imp_right ?_
    rintro ⟨before, turn, after, m, hturns, hm, hdeclares⟩
    obtain ⟨hname, hlist⟩ := hdeclares.actions
    exact ⟨hname, hlist, before, turn, after, m, hturns, hm, hdeclares⟩
  · intro id scope query source before name f rest u v hbefore hname hinvalid
    refine ⟨bindHandlers_of_invalid hbefore hname hinvalid, ?_⟩
    have hrewired := rewires_bindHandlers id scope query source before u
    rwa [hbefore] at hrewired

section examples

/-- A page with a button that binds an action list to something that is no event. -/
def oneshotText : String :=
  "<celx><page><button oneshot=\":GET /x\"/></page></celx>"

def oneshotDocument : Node :=
  .mk "celx" [] none [.mk "page" [] none [.mk "button" [("oneshot", ":GET /x")] none [] none] none] none

def oneshotPage : Markup.Page :=
  { properties := [], title := none, content := some { root := ⟨0⟩, rules := {}, widgets := [⟨0⟩] } }

def oneshotTree : Tree :=
  { slots := #[some { kind := .button, bindings := [("oneshot", .actions [{ verb := .get, argument := "/x" }])] }] }

theorem compilePage_oneshot :
    (Markup.compilePage oneshotDocument).run {} = (.ok oneshotPage, { tree := oneshotTree }) := by
  cbv

theorem oneshot_state : ∃ first, start {} () = .ok first ∧
    let s := first.afterAll (serving oneshotText) [.route "/" true]
    (s.tree.get? ⟨0⟩).map (·.bindings) = some [("oneshot", .actions [{ verb := .get, argument := "/x" }])] ∧
      s.errors = [] := by
  obtain ⟨first, hstart, hurl, hrequest, hstate⟩ := exists_start (p := fun first =>
    (resolveEndpoint first.url "/").toOption = some first.url ∧
    (Network.Request.ofText .get first.url.text).toOption.isSome ∧
    let s := ({ first with registry := {}, tree := oneshotTree }.presented first.url oneshotPage).2
    (s.tree.get? ⟨0⟩).map (·.bindings) = some [("oneshot", .actions [{ verb := .get, argument := "/x" }])] ∧
      s.errors = []) (by decide +kernel)
  have hshown : first.after (serving oneshotText) (.route "/" true) = _ :=
    after_serving hstart hurl hrequest (n := oneshotDocument) (by cbv) (by cbv) compilePage_oneshot
  refine ⟨first, hstart, ?_⟩
  rw [afterAll, List.foldl_cons, hshown, List.foldl_nil]
  exact hstate

/-- The page is shown with the button, and the button binds the list. -/
theorem oneshot_bound : ∃ first, start {} () = .ok first ∧
    let s := first.afterAll (serving oneshotText) [.route "/" true]
    s.errors = [] ∧ ∃ w, s.tree.get? ⟨0⟩ = some w ∧
      ∃ name binding, (name, binding) ∈ w.bindings ∧ isValidEvent name = false := by
  obtain ⟨first, hstart, hbindings, herrors⟩ := oneshot_state
  obtain ⟨w, hw, hbound⟩ := Option.map_eq_some_iff.mp hbindings
  exact ⟨first, hstart, herrors, w, hw, _, _, hbound ▸ List.mem_cons_self, by decide⟩

/-- What the button binds was declared when the page was compiled. -/
theorem oneshot_declared : ∃ first, start {} () = .ok first ∧ ∃ m,
    first.material? (serving oneshotText) (.route "/" true) = some m ∧
      m.Declares ("oneshot", .actions [{ verb := .get, argument := "/x" }]) := by
  obtain ⟨first, hstart, hbindings, -⟩ := oneshot_state
  obtain ⟨w, hw, hbound⟩ := Option.map_eq_some_iff.mp hbindings
  refine ⟨first, hstart, ?_⟩
  rcases (bound_events_valid_or_declared (serving oneshotText) {} () first hstart [.route "/" true]).1 ⟨0⟩ w _ _ hw
    (hbound ▸ List.mem_cons_self) with hvalid | ⟨-, -, before, turn, after, m, hturns, hm, hdeclares⟩
  · cases hvalid
  · match before, hturns with
    | [], hturns =>
      cases hturns
      exact ⟨m, hm, hdeclares⟩
    | _ :: _, hturns => simp at hturns

end examples

end Hypermedia.Session
