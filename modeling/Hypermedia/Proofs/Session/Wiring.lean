import Hypermedia.Proofs.Session.BoundOnce
import Hypermedia.Proofs.Session.Rewiring

/-! Wiring handlers: each new widget has one turn, after the widgets below it, in which its `init` is called
once. Wired are the handlers that its scope has when the turn begins, whatever `init` makes of them. -/
namespace Hypermedia

namespace Widget

variable {w : Widget} {handlers : List (String × Binding)} {name : String} {f : FunctionId}

/-- To a widget without functions of scripts those among the handlers are bound and no others. -/
theorem mem_bindAll_iff (hbare : ∀ b ∈ w.bindings, ∀ f, b.2 ≠ .script f) (hnodup : (handlers.map Prod.fst).Nodup) :
    (name, .script f) ∈ (w.bindAll handlers).bindings ↔ (name, .script f) ∈ handlers := by
  constructor
  · intro h
    exact (mem_of_bindAll h).resolve_left fun hold => hbare _ hold f rfl
  · intro h
    have hbound : (w.bindAll handlers).binding? name = _ := binding?_bindAll hnodup w
    rw [lookup_of_mem hnodup h, Option.some_or] at hbound
    exact mem_of_lookup hbound

end Widget

namespace Session

open Effect (Moves)

variable {σ : Type} {s t u : Session σ} {x y : WidgetId} {w : Widget} {scope : ScopeId} {query source : String}
  {ids earlier later : List WidgetId} {bindings : List (String × Script.Value)} (transport : Transport σ)

section handlers

variable {name : String} {f : FunctionId}

/-- The handler of an event that something bound in a scope is, if it is one. -/
def handler? : String × Script.Value → Option (String × Binding)
  | (name, .function f) => if isEventName name then some (name, .script f) else none
  | _ => none

theorem handler?_of_event (h : isEventName name = true) : handler? (name, .function f) = some (name, .script f) :=
  if_pos h

theorem handler?_of_no_event (h : ¬ isEventName name = true) : handler? (name, .function f) = none :=
  if_neg h

theorem handler?_eq_some_iff {b : String × Script.Value} :
    handler? b = some (name, .script f) ↔ b = (name, .function f) ∧ isEventName name = true := by
  constructor
  · intro h
    unfold handler? at h
    split at h
    · split at h
      · next hname =>
        cases h
        exact ⟨rfl, hname⟩
      · cases h
    · cases h
  · rintro ⟨rfl, hname⟩
    exact handler?_of_event hname

theorem exists_script_of_handler? {b : String × Script.Value} {h : String × Binding} (hb : handler? b = some h) :
    ∃ f, h.2 = .script f := by
  unfold handler? at hb
  split at hb
  · split at hb
    · cases hb
      exact ⟨_, rfl⟩
    · cases hb
  · cases hb

theorem names_of_handlers (bindings : List (String × Script.Value)) :
    ((bindings.filterMap handler?).map Prod.fst).Sublist (bindings.map Prod.fst) := by
  induction bindings with
  | nil => exact .slnil
  | cons b bindings ih =>
    obtain ⟨name, value⟩ := b
    cases value with
    | function f =>
      by_cases hname : isEventName name
      · rw [List.filterMap_cons_some (handler?_of_event hname)]
        exact ih.cons_cons name
      · rw [List.filterMap_cons_none (handler?_of_no_event hname)]
        exact ih.cons name
    | _ => exact ih.cons name

/-- The handlers of a scope are what it binds to functions under the names of events. -/
theorem mem_handlers_iff (scopes : Script.Scopes) :
    (name, .script f) ∈ (scopes.bindings scope).filterMap handler? ↔
      (name, .function f) ∈ scopes.handlers scope := by
  have hlisted : scopes.handlers scope =
      (scopes.bindings scope).filter fun b => isEventName b.1 && b.2.isCallable := by
    rw [Script.Scopes.handlers, Script.Scopes.bindings]
    cases scopes.get? scope <;> rfl
  rw [hlisted, List.mem_filter, List.mem_filterMap]
  simp only [handler?_eq_some_iff]
  constructor
  · rintro ⟨_, hb, rfl, hname⟩
    exact ⟨hb, by simp [hname, Script.Value.isCallable]⟩
  · rintro ⟨hb, hname⟩
    exact ⟨_, hb, rfl, by simpa [Script.Value.isCallable] using hname⟩

theorem lookup_handlers_eq_none {scopes : Script.Scopes}
    (h : ∀ f, (name, .function f) ∉ scopes.handlers scope) :
    ((scopes.bindings scope).filterMap handler?).lookup name = none := by
  cases hl : ((scopes.bindings scope).filterMap handler?).lookup name with
  | none => rfl
  | some binding =>
    have hmem : (name, binding) ∈ (scopes.bindings scope).filterMap handler? := mem_of_lookup hl
    obtain ⟨b, -, hb⟩ := List.mem_filterMap.mp hmem
    obtain ⟨f, rfl⟩ := exists_script_of_handler? hb
    exact absurd ((mem_handlers_iff scopes).mp hmem) (h f)

/-- A widget has got handlers. -/
def wired (s : Session σ) (x : WidgetId) (handlers : List (String × Binding)) : Session σ :=
  { s with tree := s.tree.modify x fun w => w.bindAll handlers }

theorem wired_nil (s : Session σ) (x : WidgetId) : s.wired x [] = s := by
  have htree : (s.tree.modify x fun w => w.bindAll []) = s.tree := by
    refine Tree.ext_get? Tree.size_modify (fun y => ?_) rfl rfl
    rw [Tree.get?_modify]
    split
    · simp [Widget.bindAll]
    · rfl
  rw [wired, htree]

theorem wired_cons (s : Session σ) (x : WidgetId) (name : String) (binding : Binding)
    (handlers : List (String × Binding)) : s.wired x ((name, binding) :: handlers) =
      { s with tree := s.tree.modify x fun w => w.bind name binding }.wired x handlers := by
  have htree : (s.tree.modify x fun w => w.bindAll ((name, binding) :: handlers)) =
      (s.tree.modify x fun w => w.bind name binding).modify x fun w => w.bindAll handlers := by
    refine Tree.ext_get? (by simp) (fun y => ?_) rfl rfl
    simp only [Tree.get?_modify]
    split
    · rw [Option.map_map]
      rfl
    · rfl
  rw [wired, htree]
  rfl

end handlers

section turns

/-- The turn of a widget in which the handlers of its scope are bound, from `s` to `t`: where the scope binds
`init` to a function, this is called once, after the handlers that stand before it and before the others. -/
inductive TakesTurn {σ : Type} (x : WidgetId) (scope : ScopeId) (source : String) (s : Session σ) : Session σ → Prop
  | plain (hnone : ∀ f, ("init", .function f) ∉ s.world.scopes.bindings scope) :
      TakesTurn x scope source s (s.wired x ((s.world.scopes.bindings scope).filterMap handler?))
  | init {before after : List (String × Script.Value)} {f : FunctionId} {value : Script.Value} {u : Session σ}
      (heq : s.world.scopes.bindings scope = before ++ ("init", .function f) :: after)
      (hcall : callHandler f [] scope "init" (s.tree.query x) source (s.wired x (before.filterMap handler?)) =
        (.ok value, u)) :
      TakesTurn x scope source s (u.wired x (after.filterMap handler?))

/-- Where there is no `init`, the handlers are bound and nothing else happens. -/
theorem bindHandlers_of_no_init (hnone : ∀ f, ("init", .function f) ∉ bindings)
    (h : bindHandlers x scope query source bindings s = (.ok (), t)) :
    t = s.wired x (bindings.filterMap handler?) := by
  induction bindings generalizing s with
  | nil =>
    cases h
    exact (wired_nil _ x).symm
  | cons b bindings ih =>
    obtain ⟨name, value⟩ := b
    have hrest : ∀ f, ("init", .function f) ∉ bindings := fun f hf => hnone f (List.mem_cons_of_mem _ hf)
    cases value with
    | function f =>
      have hinit : name ≠ "init" := by
        rintro rfl
        exact hnone f List.mem_cons_self
      rw [bindHandlers, if_neg hinit] at h
      split at h
      · next hname =>
        rw [List.filterMap_cons_some (handler?_of_event hname), wired_cons]
        split at h
        · rw [run_liveWidget_bind] at h
          cases hw : s.tree.widget x with
          | error e =>
            rw [hw] at h
            cases h
          | ok w =>
            rw [hw] at h
            exact ih hrest h
        · cases h
      · next hname =>
        rw [List.filterMap_cons_none (handler?_of_no_event hname)]
        exact ih hrest h
    | _ => exact ih hrest h

/-- What binds its handlers successfully takes its turn. -/
theorem takesTurn_of_ok (hdistinct : ((s.world.scopes.bindings scope).map Prod.fst).Nodup)
    (h : bindHandlers x scope (s.tree.query x) source (s.world.scopes.bindings scope) s = (.ok (), t)) :
    TakesTurn x scope source s t := by
  by_cases hinit : ∃ f, ("init", .function f) ∈ s.world.scopes.bindings scope
  · obtain ⟨f, hf⟩ := hinit
    obtain ⟨before, after, heq⟩ := List.append_of_mem hf
    -- no name is bound twice, so there is no other `init` on either side
    rw [heq, List.map_append, List.map_cons, List.nodup_middle, List.nodup_cons, List.mem_append, not_or] at hdistinct
    obtain ⟨⟨hbefore, hafter⟩, -⟩ := hdistinct
    rw [heq, bindHandlers_append] at h
    obtain ⟨_, v, hfirst, h⟩ := Effect.bind_eq_ok h
    obtain rfl := bindHandlers_of_no_init (fun g hg => hbefore (List.mem_map.mpr ⟨_, hg, rfl⟩)) hfirst
    rw [bindHandlers, if_pos rfl] at h
    obtain ⟨value, u, hcall, h⟩ := Effect.bind_eq_ok h
    obtain rfl := bindHandlers_of_no_init (fun g hg => hafter (List.mem_map.mpr ⟨_, hg, rfl⟩)) h
    exact .init heq hcall
  · rw [not_exists] at hinit
    obtain rfl := bindHandlers_of_no_init hinit h
    exact .plain hinit

theorem get?_wired {handlers : List (String × Binding)} (h : (s.wired x handlers).tree.get? x = some w) :
    ∃ v, s.tree.get? x = some v ∧ w = v.bindAll handlers := by
  rw [wired, Tree.get?_modify, if_pos rfl] at h
  obtain ⟨v, hv, rfl⟩ := Option.map_eq_some_iff.mp h
  exact ⟨v, hv, rfl⟩

/-- What a widget binds after its turn are the handlers that its scope had before, whatever `init` has done. -/
theorem TakesTurn.bindings_eq (h : TakesTurn x scope source s t) (hold : ¬ s.tree.Unused x)
    (hw : t.tree.get? x = some w) : ∃ v, s.tree.get? x = some v ∧ w.scope = v.scope ∧
      w.bindings = (v.bindAll ((s.world.scopes.bindings scope).filterMap handler?)).bindings := by
  cases h with
  | plain hnone =>
    obtain ⟨v, hv, rfl⟩ := get?_wired hw
    exact ⟨v, hv, Widget.scope_bindAll v, rfl⟩
  | @init before after f value u heq hcall =>
    obtain ⟨v, hv, rfl⟩ := get?_wired hw
    -- the call of `init` rewires no widget
    have hcalled : Moves (Preserves fun _ => True)
        (callHandler f [] scope "init" (s.tree.query x) source : Act σ Script.Value) :=
      (preserves_carries.callHandler f [] scope "init" (s.tree.query x) source).moves fun _ => trivial
    have hsame := hcalled (s.wired x (before.filterMap handler?))
    rw [hcall] at hsame
    have hused : ¬ (s.wired x (before.filterMap handler?)).tree.Unused x := fun hunused =>
      hold (hunused.of_size_le (Nat.le_of_eq Tree.size_modify.symm))
    obtain ⟨v', hv', hbindings, hscope⟩ := hsame.wiring x trivial hused v hv
    obtain ⟨v'', hv'', rfl⟩ := get?_wired hv'
    have hinit : handler? ("init", .function f) = none := handler?_of_no_event (by decide)
    refine ⟨v'', hv'', ?_, ?_⟩
    · rw [Widget.scope_bindAll, hscope, Widget.scope_bindAll]
    · rw [heq, List.filterMap_append, List.filterMap_cons_none hinit, Widget.bindAll_append]
      exact Widget.bindings_bindAll_congr hbindings

end turns

section scopes

/-- Widgets bind what they bound, and have the scopes that they had or new ones. -/
structure Houses (s t : Session σ) : Prop where
  size_le : s.world.scopes.all.size ≤ t.world.scopes.all.size
  housed : ∀ x w, t.tree.get? x = some w → ∃ v, s.tree.get? x = some v ∧ w.bindings = v.bindings ∧
    ∀ i, w.scope = some i → v.scope = some i ∨ s.world.scopes.all.size ≤ i.index

instance : IsPreorder (Session σ) Houses where
  refl _ := ⟨Nat.le_refl _, fun _ w hw => ⟨w, hw, rfl, fun _ => .inl⟩⟩
  trans s t u h k := by
    refine ⟨Nat.le_trans h.size_le k.size_le, fun x w hw => ?_⟩
    obtain ⟨v, hv, hbindings, hscope⟩ := k.housed x w hw
    obtain ⟨v', hv', hbindings', hscope'⟩ := h.housed x v hv
    refine ⟨v', hv', hbindings.trans hbindings', fun i hi => ?_⟩
    rcases hscope i hi with hold | hnew
    · exact hscope' i hold
    · exact .inr (Nat.le_trans h.size_le hnew)

theorem houses_addScope (x : WidgetId) : Moves Houses (addScope x : Act σ Unit) := by
  intro s
  have hsize : s.world.scopes.all.size ≤ (s.scopedWorld x).scopes.all.size :=
    Nat.le_of_lt (extends_scopedWorld s x).2.1
  rw [run_addScope]
  split
  · refine ⟨hsize, fun y w hw => ?_⟩
    rw [Tree.get?_modify] at hw
    split at hw
    · obtain ⟨v, hv, rfl⟩ := Option.map_eq_some_iff.mp hw
      exact ⟨v, hv, rfl, fun i hi => .inr (Nat.le_of_eq (congrArg ScopeId.index (Option.some.inj hi)))⟩
    · exact ⟨w, hw, rfl, fun _ => .inl⟩
  · exact ⟨hsize, fun _ w hw => ⟨w, hw, rfl, fun _ => .inl⟩⟩

/-- Where all of `ids` have got scopes, all of them were there. -/
theorem live_of_giveScopes (h : (ids.forM addScope : Act σ PUnit) s = (.ok ⟨⟩, t)) :
    ∀ x ∈ ids, s.tree.contains x = true := by
  induction ids generalizing s with
  | nil => exact nofun
  | cons y ids ih =>
    rw [forM_addScope_cons, run_addScope] at h
    cases hy : s.tree.widget y with
    | error e =>
      rw [hy] at h
      cases h
    | ok w =>
      rw [hy] at h
      refine List.forall_mem_cons.mpr ⟨Tree.contains_iff.mpr ⟨w, Tree.widget_eq_ok.mp hy⟩, fun x hx => ?_⟩
      exact Tree.contains_modify.symm.trans (ih h x hx)

end scopes

section widgets

/-- Widgets that can be bound: each is listed once, and nothing of a script is bound to it yet. -/
structure Bindable (s : Session σ) (ids : List WidgetId) : Prop where
  forest : s.tree.Forest
  nodup : ids.Nodup
  bare : ∀ x ∈ ids, s.tree.Bare x

/-- No widget is listed after one below it. -/
def ParentsFirst (s : Session σ) (ids : List WidgetId) : Prop :=
  ids.Pairwise fun x y => ¬ s.tree.Below x y

/-- Where the scripts of `ids` are bound from `s` to `t`, the turn of `x` leads from `begun` to `ended`. -/
structure HasTurn (s : Session σ) (ids earlier : List WidgetId) (x : WidgetId) (later : List WidgetId)
    (begun ended t : Session σ) : Prop where
  before : (do
    ids.forM addScope
    ids.forM runOwnScript
    earlier.forM bindOwnHandlers : Act σ PUnit) s = (.ok ⟨⟩, begun)
  turn : bindOwnHandlers x begun = (.ok (), ended)
  after : later.forM bindOwnHandlers ended = (.ok ⟨⟩, t)

/-- The functions of scripts that a widget binds are the handlers of a scope. -/
def BindsHandlers (s : Session σ) (scope : ScopeId) (w : Widget) : Prop :=
  ∀ name f, (name, .script f) ∈ w.bindings ↔ (name, .function f) ∈ s.world.scopes.handlers scope

/-- How a widget of `s` is wired whose turn has begun in `begun` and is over. -/
structure Wiring (s begun : Session σ) (x : WidgetId) (scope : ScopeId) (w : Widget) : Prop where
  own : w.scope = some scope
  scripts : begun.BindsHandlers scope w
  handled : ∀ name f, (name, .function f) ∈ begun.world.scopes.handlers scope → w.binding? name = some (.script f)
  others : ∀ name, (∀ f, (name, .function f) ∉ begun.world.scopes.handlers scope) →
    w.binding? name = (s.tree.get? x).bind (·.binding? name)

/-- Where all scripts are bound, each widget of the list has its turn. -/
theorem exists_turn (h : bindScripts ids s = (.ok (), t)) (heq : ids.reverse = earlier ++ x :: later) :
    ∃ begun ended, HasTurn s ids earlier x later begun ended t := by
  have hsplit : ((earlier ++ x :: later).forM bindOwnHandlers : Act σ PUnit) = (do
      earlier.forM bindOwnHandlers
      bindOwnHandlers x
      later.forM bindOwnHandlers) := List.forM_append
  rw [bindScripts, heq, hsplit] at h
  obtain ⟨_, given, hgiven, h⟩ := Effect.bind_eq_ok h
  obtain ⟨_, populated, hpopulated, h⟩ := Effect.bind_eq_ok h
  obtain ⟨_, begun, hearlier, h⟩ := Effect.bind_eq_ok h
  obtain ⟨_, ended, hturn, hlater⟩ := Effect.bind_eq_ok h
  refine ⟨begun, ended, ?_, hturn, hlater⟩
  rw [Effect.run_bind, hgiven]
  dsimp only
  rw [Effect.run_bind, hpopulated]
  exact hearlier

/-- With its scope a widget binds what it did, and the scope is a new one. -/
theorem Bindable.scope_given (hs : s.Bindable ids) (hx : x ∈ ids)
    (h : (ids.forM addScope : Act σ PUnit) s = (.ok ⟨⟩, t)) :
    ∃ v w scope, s.tree.get? x = some v ∧ t.tree.get? x = some w ∧ w.bindings = v.bindings ∧
      w.scope = some scope ∧ s.world.scopes.all.size ≤ scope.index := by
  obtain ⟨hgive, hgave⟩ := giveScopes_of_live (live_of_giveScopes h) hs.nodup
  obtain rfl : t = giveScopes ids s := (Prod.mk.inj (h.symm.trans hgive)).2
  obtain ⟨scope, hscope, -⟩ := hgave.given x hx
  obtain ⟨w, hw, hown⟩ := Option.bind_eq_some_iff.mp hscope
  have hhoused : Moves Houses (ids.forM addScope : Act σ PUnit) := Effect.moves_forM _ fun y _ => houses_addScope y
  obtain ⟨v, hv, hbindings, hnew⟩ := (hhoused s).housed x w hw
  refine ⟨v, w, scope, hv, hw, hbindings, hown, (hnew scope hown).resolve_left fun hold => ?_⟩
  cases (hs.bare x hx v hv).scope.symm.trans hold

variable {begun ended : Session σ}

theorem HasTurn.follows (h : HasTurn s ids earlier x later begun ended t) :
    s.world.scopes.Follows begun.world.scopes := by
  have hbinds : Binds (Rewires (σ := σ) fun _ => True) (fun _ => True) (fun _ => True) :=
    rewires_binds fun _ _ => trivial
  have hrewires : Moves (Rewires fun _ => True) (do
      ids.forM addScope
      ids.forM runOwnScript
      earlier.forM bindOwnHandlers : Act σ PUnit) := by
    refine Effect.moves_bind (Effect.moves_forM _ fun y _ => hbinds.addScope trivial) fun _ => ?_
    refine Effect.moves_bind (Effect.moves_forM _ fun y _ => ?_) fun _ => Effect.moves_forM _ fun y _ => ?_
    · exact (hbinds.runOwnScript y).moves fun _ => trivial
    · exact (hbinds.bindOwnHandlers trivial).moves fun _ => trivial
  have hscopes := (hrewires s).scopes
  rwa [h.before] at hscopes

/-- The scripts of all and the turns of others leave a widget as it is wired. -/
theorem preserves_turns (ids : List WidgetId) (hout : x ∉ earlier) :
    Moves (Preserves (· = x)) (do
      ids.forM runOwnScript
      earlier.forM bindOwnHandlers : Act σ PUnit) := by
  have hcarries : Carries (Preserves (σ := σ) (· = x)) (fun _ => True) fun y => ¬ y = x := preserves_carries
  refine Effect.moves_bind (Effect.moves_forM _ fun y _ => ?_) fun _ => Effect.moves_forM _ fun y hy => ?_
  · exact (hcarries.runOwnScript y).moves fun _ => trivial
  · have hother : y ≠ x := fun heq => hout (heq ▸ hy)
    exact (hcarries.bindOwnHandlers hother).moves fun _ => trivial

/-- Until its turn begins a widget binds what it did, and nothing is bound twice in its scope. -/
theorem HasTurn.begins (h : HasTurn s ids earlier x later begun ended t) (hs : s.Bindable ids) (hx : x ∈ ids)
    (hout : x ∉ earlier) (hlive : begun.tree.get? x = some w) :
    ∃ v scope, s.tree.get? x = some v ∧ w.bindings = v.bindings ∧ w.scope = some scope ∧
      ((begun.world.scopes.bindings scope).map Prod.fst).Nodup := by
  obtain ⟨_, given, hgiven, hrest⟩ := Effect.bind_eq_ok h.before
  obtain ⟨v, v', scope, hv, hv', hbindings, hscope, hnew⟩ := hs.scope_given hx hgiven
  have hsame := preserves_turns ids hout given
  rw [hrest] at hsame
  have hused : ¬ given.tree.Unused x := Tree.not_unused_of_contains (Tree.contains_iff.mpr ⟨v', hv'⟩)
  obtain ⟨v'', hv'', hwired⟩ := hsame.wiring x rfl hused w hlive
  obtain rfl : v'' = v' := Option.some.inj (hv''.symm.trans hv')
  refine ⟨v, scope, hv, hwired.1.trans hbindings, hwired.2.trans hscope, ?_⟩
  exact h.follows.distinctFrom (Script.Scopes.distinctFrom_size _) scope hnew

/-- A widget whose turn has succeeded was there when it began. -/
theorem HasTurn.live (h : HasTurn s ids earlier x later begun ended t) : ∃ w, begun.tree.get? x = some w := by
  have hturn := h.turn
  rw [bindOwnHandlers, run_liveWidget_bind] at hturn
  cases hw : begun.tree.widget x with
  | error e =>
    rw [hw] at hturn
    cases hturn
  | ok w => exact ⟨w, Tree.widget_eq_ok.mp hw⟩

/-- In its turn a widget binds the handlers that its scope has, calls `init`, and keeps its other bindings. -/
theorem HasTurn.wires (h : HasTurn s ids earlier x later begun ended t) (hs : s.Bindable ids) (hx : x ∈ ids)
    (hout : x ∉ earlier) : ∃ v scope, begun.tree.get? x = some v ∧ v.scope = some scope ∧
      TakesTurn x scope (v.script.getD "") begun ended ∧
      ∀ w, ended.tree.get? x = some w → Wiring s begun x scope w := by
  obtain ⟨v, hv⟩ := h.live
  obtain ⟨old, scope, hold, hbindings, hscope, hnodup⟩ := h.begins hs hx hout hv
  have hturn := h.turn
  rw [bindOwnHandlers, run_liveWidget_bind, Tree.widget_eq_ok.mpr hv] at hturn
  dsimp only at hturn
  rw [hscope] at hturn
  dsimp only at hturn
  rw [Effect.run_get_bind] at hturn
  have htakes := takesTurn_of_ok hnodup hturn
  refine ⟨v, scope, hv, hscope, htakes, fun w hw => ?_⟩
  have hused : ¬ begun.tree.Unused x := Tree.not_unused_of_contains (Tree.contains_iff.mpr ⟨v, hv⟩)
  obtain ⟨v', hv', hsame, hbound⟩ := htakes.bindings_eq hused hw
  obtain rfl : v' = v := Option.some.inj (hv'.symm.trans hv)
  let handlers := (begun.world.scopes.bindings scope).filterMap handler?
  have hdistinct : (handlers.map Prod.fst).Nodup := hnodup.sublist (names_of_handlers _)
  have hbare : ∀ b ∈ v'.bindings, ∀ f, b.2 ≠ .script f := hbindings ▸ (hs.bare x hx old hold).bindings
  have hbinding (name : String) : w.binding? name = (handlers.lookup name).or (old.binding? name) := by
    rw [Widget.binding?_congr hbound, Widget.binding?_bindAll hdistinct, Widget.binding?_congr hbindings]
  refine ⟨hsame.trans hscope, fun name f => ?_, fun name f hf => ?_, fun name hnone => ?_⟩
  · rw [hbound, Widget.mem_bindAll_iff hbare hdistinct, mem_handlers_iff]
  · rw [hbinding, lookup_of_mem hdistinct ((mem_handlers_iff _).mpr hf), Option.some_or]
  · rw [hbinding, lookup_handlers_eq_none hnone, hold]
    rfl

end widgets

section order

/-- Where parents come first, the widgets below one have their turns before it. -/
theorem ParentsFirst.mem_earlier (h : s.ParentsFirst ids) (hs : s.Bindable ids)
    (heq : ids.reverse = earlier ++ x :: later) (hy : y ∈ ids) (hbelow : s.tree.Below y x) : y ∈ earlier := by
  have hreverse := List.pairwise_reverse.mpr h
  rw [heq] at hreverse
  obtain ⟨-, hlast, -⟩ := List.pairwise_append.mp hreverse
  have hmem := List.mem_reverse.mpr hy
  rw [heq] at hmem
  rcases List.mem_append.mp hmem with hearlier | hrest
  · exact hearlier
  · rcases List.mem_cons.mp hrest with rfl | hlater
    · exact absurd hbelow (hs.forest.acyclic y)
    · exact absurd hbelow ((List.pairwise_cons.mp hlast).1 y hlater)

/-- What a turn makes ready can be bound. -/
theorem Heedful.bindable (hh : s.Heedful) (hs : s.Sound) {turn : Turn σ}
    (h : prepare transport turn s = (.ok ids, u)) : u.Bindable ids := by
  have hready := (completes_after transport hs hh turn).before
  rw [h] at hready
  exact ⟨hready.reticent.forest, hready.nodup, hready.bare⟩

/-- What an edit makes ready is listed parents first. -/
theorem Heedful.parentsFirst (hh : s.Heedful) (h : prepare transport .message s = (.ok ids, u)) :
    u.ParentsFirst ids := by
  cases hnext : s.nextEdit? with
  | none =>
    rw [prepare, prepareMessage, Effect.run_get_bind, hnext] at h
    cases h
    exact .nil
  | some asked =>
    obtain ⟨result, target, edit⟩ := asked
    have hprepare : prepare transport .message s =
        prepareEdit result target edit { s with inbox := s.inbox.tail } := by
      rw [prepare, prepareMessage, Effect.run_get_bind, hnext]
      rfl
    cases hplace : s.tree.place result target edit with
    | mk outcome tree =>
      cases outcome with
      | error e =>
        rw [hprepare, prepareEdit_eq, hplace] at h
        cases h
      | ok =>
        by_cases hwithheld : s.Withheld result
        · obtain ⟨p, hp, hresult⟩ := hwithheld
          obtain ⟨u', hkept, hparts, -⟩ := hh.after_edit_of_mem transport hnext hplace hp hresult
          cases h.symm.trans hkept
          exact hparts.ordered
        · have hdropped : s.Heeds { s with inbox := s.inbox.tail } :=
            .of_respects hh.toReticent (respects_of_eq rfl rfl rfl rfl)
          rw [hprepare, prepareEdit_of_not_withheld hdropped.reticent.toSecluded hwithheld hplace] at h
          cases h
          exact .nil

end order

/-- Handlers are wired as they are when the turn of their widget begins. In every state of a session what a turn
makes ready can be bound, and what an edit makes ready is listed parents first. Where the scripts of such widgets
are bound, each has its turn; if parents come first, those below it have had theirs. In it `init` is called once
where the scope has one, and the widget binds the handlers that the scope had when the turn began: those that it
has in the end just if `init` leaves them as they are. They replace what was bound to their events, and all else
stays bound. -/
theorem handlers_wired_as_turns_begin (config : Config) (network : σ) (first : Session σ)
    (hstart : start config network = .ok first) (turns : List (Turn σ)) :
    (∀ turn ids u, prepare transport turn (first.afterAll transport turns) = (.ok ids, u) →
      u.Bindable ids ∧ (turn = .message → u.ParentsFirst ids)) ∧
    ∀ (s t : Session σ) ids, s.Bindable ids → bindScripts ids s = (.ok (), t) →
      ∀ earlier x later, ids.reverse = earlier ++ x :: later → ∃ begun ended v scope,
        HasTurn s ids earlier x later begun ended t ∧
        (s.ParentsFirst ids → ∀ y ∈ ids, s.tree.Below y x → y ∈ earlier) ∧
        begun.tree.get? x = some v ∧ v.scope = some scope ∧ TakesTurn x scope (v.script.getD "") begun ended ∧
        ∀ w, ended.tree.get? x = some w → Wiring s begun x scope w ∧
          (ended.BindsHandlers scope w ↔ ∀ name f, (name, .function f) ∈ ended.world.scopes.handlers scope ↔
            (name, .function f) ∈ begun.world.scopes.handlers scope) := by
  constructor
  · intro turn ids u h
    have hs : (first.afterAll transport turns).Sound := sound_afterAll transport (sound_start hstart) turns
    have hh : (first.afterAll transport turns).Heedful :=
      (heedful_afterAll transport (sound_start hstart) (heedful_start hstart) turns).1
    refine ⟨hh.bindable transport hs h, fun hturn => ?_⟩
    subst hturn
    exact hh.parentsFirst transport h
  · intro s t ids hs h earlier x later heq
    have hx : x ∈ ids := List.mem_reverse.mp (heq ▸ List.mem_append_right _ List.mem_cons_self)
    have hout : x ∉ earlier := by
      have hnodup := List.nodup_reverse.mpr hs.nodup
      rw [heq] at hnodup
      exact fun hmem => (List.nodup_append.mp hnodup).2.2 x hmem x List.mem_cons_self rfl
    obtain ⟨begun, ended, hturn⟩ := exists_turn h heq
    obtain ⟨v, scope, hv, hscope, htakes, hwiring⟩ := hturn.wires hs hx hout
    refine ⟨begun, ended, v, scope, hturn, fun hfirst y hy => hfirst.mem_earlier hs heq hy, hv, hscope, htakes,
      fun w hw => ⟨hwiring w hw, ?_⟩⟩
    exact forall₂_congr fun name f => (iff_congr ((hwiring w hw).scripts name f) Iff.rfl).trans iff_comm

section examples

/-- A button that defines its handler when it is initialized. -/
def belated : Widget :=
  { kind := .button, script := some "function init() on_submit = function() return true end end" }

/-- A session with that button and no other widget. -/
def withBelated (s : Session σ) : Session σ :=
  { s with tree := (Tree.construct {} belated).2 }

theorem bindable_belated (s : Session σ) : s.withBelated.Bindable [⟨0⟩] := by
  have hbare : belated.IsBare := ⟨rfl, nofun⟩
  refine ⟨Tree.forest_empty.construct rfl rfl, List.nodup_singleton _, fun x _ => ?_⟩
  have hunused : Tree.Unused {} x := Nat.zero_le _
  exact (Tree.bare_of_unused hunused).construct hbare

/-- Once the scripts are bound the scope of the button has the handler. -/
theorem belated_state : ∃ first, start {} () = .ok first ∧ ∃ t,
    bindScripts [⟨0⟩] first.withBelated = (.ok (), t) ∧ (t.tree.get? ⟨0⟩).map (·.bindings) = some [] ∧
      t.tree.scope? ⟨0⟩ = some ⟨1⟩ ∧
      ((t.world.scopes.bindings ⟨1⟩).filterMap handler?).map Prod.fst = ["on_submit"] := by
  obtain ⟨first, hstart, hok, hstate⟩ := exists_start (p := fun first =>
    let r := bindScripts [⟨0⟩] first.withBelated
    r.1.isOk ∧ (r.2.tree.get? ⟨0⟩).map (·.bindings) = some [] ∧ r.2.tree.scope? ⟨0⟩ = some ⟨1⟩ ∧
      ((r.2.world.scopes.bindings ⟨1⟩).filterMap handler?).map Prod.fst = ["on_submit"]) (by decide +kernel)
  refine ⟨first, hstart, _, ?_, hstate⟩
  cases hr : bindScripts [⟨0⟩] first.withBelated with
  | mk result t =>
    rw [hr] at hok
    cases result with
    | ok => rfl
    | error e => cases hok

/-- The button does not bind it. -/
theorem belated_unwired : ∃ first, start {} () = .ok first ∧ first.withBelated.Bindable [⟨0⟩] ∧ ∃ t,
    bindScripts [⟨0⟩] first.withBelated = (.ok (), t) ∧ ∃ w scope, t.tree.get? ⟨0⟩ = some w ∧
      w.scope = some scope ∧ ¬ t.BindsHandlers scope w := by
  obtain ⟨first, hstart, t, hbound, hbindings, hscope, hhandlers⟩ := belated_state
  obtain ⟨w, hw, hnone⟩ := Option.map_eq_some_iff.mp hbindings
  have hown : w.scope = some ⟨1⟩ := by rwa [Tree.scope?, hw] at hscope
  refine ⟨first, hstart, bindable_belated first, t, hbound, w, ⟨1⟩, hw, hown, fun hbinds => ?_⟩
  obtain ⟨⟨name, binding⟩, hmem, -⟩ := List.mem_map.mp (hhandlers ▸ List.mem_cons_self)
  obtain ⟨b, -, hb⟩ := List.mem_filterMap.mp hmem
  obtain ⟨f, rfl⟩ := exists_script_of_handler? hb
  have hfound := (hbinds name f).mpr ((mem_handlers_iff _).mp hmem)
  rw [hnone] at hfound
  cases hfound

/-- The button has its turn, and binds what its scope had when that began. -/
theorem belated_turn : ∃ first, start {} () = .ok first ∧ ∃ begun ended t, ∃ v : Widget, ∃ scope,
    HasTurn first.withBelated [⟨0⟩] [] ⟨0⟩ [] begun ended t ∧
      TakesTurn ⟨0⟩ scope (v.script.getD "") begun ended ∧
      ∀ w, ended.tree.get? ⟨0⟩ = some w → Wiring first.withBelated begun ⟨0⟩ scope w := by
  obtain ⟨first, hstart, t, hbound, -⟩ := belated_state
  obtain ⟨-, hbinds⟩ := handlers_wired_as_turns_begin (serving "") {} () first hstart []
  obtain ⟨begun, ended, v, scope, hturn, -, -, -, htakes, hwiring⟩ :=
    hbinds first.withBelated t [⟨0⟩] (bindable_belated first) hbound [] ⟨0⟩ [] rfl
  exact ⟨first, hstart, begun, ended, t, v, scope, hturn, htakes, fun w hw => (hwiring w hw).1⟩

end examples

end Session

end Hypermedia
