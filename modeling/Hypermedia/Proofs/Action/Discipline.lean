import Hypermedia.Proofs.Action.Spelling
import Hypermedia.Proofs.Action.Trace

/-! The discipline of action lists: what they may ask of a host depends on what it has replied so far, and
they fail for reasons of their own in few ways. -/
namespace Hypermedia.Action

/-- The result that a list works with after an event: a fragment that was loaded, or the first match within
the result so far. -/
def Event.resultAfter (result : Option WidgetId) : Event → Option WidgetId
  | .ask (.loadFragment _) (.ok root) => some root
  | .ask (.select _ (some _)) (.ok (first :: _)) => some first
  | _ => result

def resultOf (log : List Event) : Option WidgetId :=
  log.foldl Event.resultAfter none

/-- What a question needs of the events before it. Fragments are made of successful responses only, just
after they came; parts are looked for in the result; what is placed is the result, and where the children of
the target change, the host has just said that it holds children. -/
def Ask.Proper (before : List Event) : Ask → Prop
  | .loadFragment response => (200 ≤ response.status ∧ response.status < 300) ∧
      ∃ call, before.getLast? = some (.fetch call (.ok response))
  | .select _ (some within) => resultOf before = some within
  | .edit result target change => resultOf before = some result ∧
      (change.changesChildren = true → before.getLast? = some (.ask (.isContainer target) (.ok true)))
  | .requestBody _ _ | .select _ none | .isContainer _ | .query _ => True

def Event.Proper (before : List Event) : Event → Prop
  | .ask q _ => q.Proper before
  | .fetch _ _ => True

/-- Events that are proper after those of `log`; one that reports an error is the last. -/
def Orderly : (log events : List Event) → Prop
  | _, [] => True
  | log, event :: rest =>
    event.Proper log ∧ (event.error? ≠ none → rest = []) ∧ Orderly (log ++ [event]) rest

/-- An error at the end is one that the host has just reported, or one of the list's own. -/
def Accounts {α : Type} (own : Error → Prop) (events : List Event) : Except Error α → Prop
  | .ok _ => ∀ event ∈ events, event.error? = none
  | .error e => (own e ∧ ∀ event ∈ events, event.error? = none) ∨
      ∃ event, events.getLast? = some event ∧ event.error? = some e

/-- A plan that asks properly after the events of `log`, has a result at its end, and fails by itself with
`own` errors only. -/
def Plan.Proper (own : Error → Prop) : (log : List Event) → Plan (Option WidgetId) → Prop
  | log, .done result => ∃ root, result = some root ∧ resultOf log = some root
  | _, .fail e => own e
  | log, .fetch call k => ∀ response, (k response).Proper own (log ++ [.fetch call (.ok response)])
  | log, .ask q k => q.Proper log ∧ ∀ answer, (k answer).Proper own (log ++ [.ask q (.ok answer)])

theorem resultOf_nil : resultOf [] = none := rfl

variable {σ α : Type} {own : Error → Prop} {log events : List Event} {event : Event}
  {r : Except Error α}

section orderly

theorem orderly_append {more : List Event} (h : Orderly log events)
    (hfine : ∀ event ∈ events, event.error? = none) (k : Orderly (log ++ events) more) :
    Orderly log (events ++ more) := by
  induction events generalizing log with
  | nil => simpa using k
  | cons event events ih =>
    obtain ⟨hproper, -, hrest⟩ := h
    obtain ⟨hevent, hfine⟩ := List.forall_mem_cons.mp hfine
    refine ⟨hproper, fun hfails => absurd hevent hfails, ih hrest hfine ?_⟩
    rwa [List.append_assoc]

theorem orderly_at {before after : List Event} (h : Orderly log (before ++ event :: after)) :
    event.Proper (log ++ before) ∧ (event.error? ≠ none → after = []) := by
  induction before generalizing log with
  | nil => exact ⟨by simpa using h.1, h.2.1⟩
  | cons first before ih =>
    obtain ⟨hproper, hlast⟩ := ih h.2.2
    exact ⟨by simpa using hproper, hlast⟩

theorem accounts_cons (hevent : event.error? = none) (h : Accounts own events r) :
    Accounts own (event :: events) r := by
  cases r with
  | ok a => exact List.forall_mem_cons.mpr ⟨hevent, h⟩
  | error e =>
    refine h.imp (fun ⟨hown, hfine⟩ => ⟨hown, List.forall_mem_cons.mpr ⟨hevent, hfine⟩⟩) ?_
    rintro ⟨last, hlast, he⟩
    exact ⟨last, by rw [List.getLast?_cons, hlast]; rfl, he⟩

theorem accounts_append {more : List Event} (hfine : ∀ event ∈ events, event.error? = none)
    (h : Accounts own more r) : Accounts own (events ++ more) r := by
  induction events with
  | nil => exact h
  | cons event events ih =>
    obtain ⟨hevent, hfine⟩ := List.forall_mem_cons.mp hfine
    exact accounts_cons hevent (ih hfine)

theorem Accounts.mono {own' : Error → Prop} (h : Accounts own events r) (himp : ∀ e, own e → own' e) :
    Accounts own' events r := by
  cases r with
  | ok a => exact h
  | error e => exact h.imp_left fun ⟨hown, hfine⟩ => ⟨himp e hown, hfine⟩

theorem Accounts.eq_of_getLast? {e : Error} (h : Accounts own events r)
    (hlast : events.getLast? = some event) (he : event.error? = some e) : r = .error e := by
  have hfails : ¬ ∀ event ∈ events, event.error? = none := fun hfine =>
    nomatch he.symm.trans (hfine event (List.mem_of_getLast? hlast))
  match r, h with
  | .ok _, hfine => exact absurd hfine hfails
  | .error _, .inl hown => exact absurd hown.2 hfails
  | .error _, .inr ⟨last, hlast', he'⟩ =>
    obtain rfl := Option.some.inj (hlast'.symm.trans hlast)
    rw [Option.some.inj (he'.symm.trans he)]

end orderly

section plans

/-- What a run of a proper plan calls a host for, and how it ends. -/
theorem Plan.Proper.run {p : Plan (Option WidgetId)} (h : p.Proper own log) (host : Host σ) (s : σ) :
    Orderly log (p.events host s) ∧ Accounts own (p.events host s) (p.run host s).1 ∧
      ∀ result, (p.run host s).1 = .ok result →
        ∃ root, result = some root ∧ resultOf (log ++ p.events host s) = some root := by
  induction p generalizing log s with
  | done result =>
    refine ⟨trivial, by simp [Plan.run, Plan.events, Accounts], ?_⟩
    rintro _ ⟨⟩
    rwa [Plan.events, List.append_nil]
  | fail e => exact ⟨trivial, .inl ⟨h, List.forall_mem_nil _⟩, fun _ hok => by cases hok⟩
  | fetch call k ih =>
    rw [Plan.run, Plan.events]
    cases hreply : host.fetch call s with
    | mk reply t =>
      cases reply with
      | ok response =>
        obtain ⟨horderly, haccounts, hresult⟩ := ih response (h response) t
        refine ⟨⟨trivial, fun hfails => absurd rfl hfails, horderly⟩, accounts_cons rfl haccounts, ?_⟩
        simpa using hresult
      | error e => exact ⟨⟨trivial, fun _ => rfl, trivial⟩, .inr ⟨_, rfl, rfl⟩, fun _ hok => by cases hok⟩
  | ask q k ih =>
    rw [Plan.run, Plan.events]
    cases hreply : host.answer q s with
    | mk reply t =>
      cases reply with
      | ok answer =>
        obtain ⟨horderly, haccounts, hresult⟩ := ih answer (h.2 answer) t
        refine ⟨⟨h.1, fun hfails => absurd rfl hfails, horderly⟩, accounts_cons rfl haccounts, ?_⟩
        simpa using hresult
      | error e => exact ⟨⟨h.1, fun _ => rfl, trivial⟩, .inr ⟨_, rfl, rfl⟩, fun _ hok => by cases hok⟩

end plans

section steps

variable {i : Instruction} {caller : WidgetId} {result : Option WidgetId}

open Instruction (Modified)

theorem resultOf_concat : resultOf (log ++ [event]) = event.resultAfter (resultOf log) := by
  rw [resultOf, List.foldl_append]
  rfl

theorem resultOf_isContainer {target : WidgetId} {reply : Except Error Bool} :
    resultOf (log ++ [.ask (.isContainer target) reply]) = resultOf log :=
  resultOf_concat

/-- The modifiers that are read and those that have a meaning for a tree edit are the same. -/
theorem Instruction.exists_edit (hm : Modified i.verb i.modifier) (hv : i.verb.isTreeEdit = true) :
    ∃ edit, i.edit = .ok edit := by
  match i, hm, hv with
  | ⟨.swap, _, none⟩, _, _ => exact ⟨_, rfl⟩
  | ⟨.swap, _, some m⟩, hm, _ => rcases hm with rfl | rfl | rfl <;> exact ⟨_, rfl⟩
  | ⟨.insert, _, some m⟩, hm, _ => rcases hm with rfl | rfl | rfl <;> exact ⟨_, rfl⟩
  | ⟨.append, _, none⟩, _, _ => exact ⟨_, rfl⟩
  | ⟨.append, _, some m⟩, hm, _ =>
    obtain rfl : m = "in" := hm
    exact ⟨_, rfl⟩

/-- The errors that a step makes itself, given the result so far. -/
def Instruction.Raises (i : Instruction) (result : Option WidgetId) (e : Error) : Prop :=
  (∀ cause, e ≠ .action cause) ∧
    (e = .selection .noResult → i.verb.isRemote = false ∧ result = none)

theorem Instruction.proper_remoteCall :
    (i.remoteCall caller).Proper (i.Raises result) log := by
  refine ⟨trivial, fun body response => ?_⟩
  dsimp only [Bind.bind, Plan.bind]
  split
  · next hsuccess =>
    have hstatus : 200 ≤ response.status ∧ response.status < 300 := by
      simpa [Network.Response.isSuccess] using hsuccess
    exact ⟨⟨hstatus, _, List.getLast?_concat⟩, fun root => ⟨root, rfl, resultOf_concat⟩⟩
  · exact ⟨nofun, nofun⟩

theorem Instruction.proper_narrow (hv : i.verb.isRemote = false) :
    (i.narrow (resultOf log)).Proper (i.Raises (resultOf log)) log := by
  cases hresult : resultOf log with
  | none => exact ⟨nofun, fun _ => ⟨hv, rfl⟩⟩
  | some result =>
    refine ⟨hresult, fun found => ?_⟩
    cases found with
    | nil => exact ⟨nofun, nofun⟩
    | cons first rest => exact ⟨first, rfl, resultOf_concat⟩

theorem Instruction.proper_treeEdit (hm : Modified i.verb i.modifier) (hv : i.verb.isTreeEdit = true) :
    (i.treeEdit (resultOf log)).Proper (i.Raises (resultOf log)) log := by
  have hlocal : i.verb.isRemote = false := by
    revert hv
    cases i.verb <;> decide
  obtain ⟨edit, hedit⟩ := Instruction.exists_edit hm hv
  cases hresult : resultOf log with
  | none => exact ⟨nofun, fun _ => ⟨hlocal, rfl⟩⟩
  | some result =>
    refine ⟨trivial, fun found => ?_⟩
    cases found with
    | nil => exact ⟨nofun, nofun⟩
    | cons target rest =>
      have hfound : resultOf (log ++ [.ask (.select i.argument none) (.ok (target :: rest))]) =
          some result := resultOf_concat.trans hresult
      dsimp only [Bind.bind, Plan.bind]
      rw [hedit]
      change Plan.Proper _ _ ((requireContainer target edit).bind fun _ =>
        (Plan.put (.edit result target edit)).bind fun _ => .done (some result))
      unfold requireContainer
      split
      · refine ⟨trivial, fun isContainer => ?_⟩
        cases isContainer with
        | false => exact ⟨trivial, fun query => ⟨nofun, nofun⟩⟩
        | true =>
          refine ⟨⟨resultOf_isContainer.trans hfound, fun _ => List.getLast?_concat⟩, fun _ => ?_⟩
          exact ⟨result, rfl, resultOf_concat.trans (resultOf_isContainer.trans hfound)⟩
      · next hkeeps =>
        exact ⟨⟨hfound, fun hchanges => absurd hchanges hkeeps⟩, fun _ =>
          ⟨result, rfl, resultOf_concat.trans hfound⟩⟩

theorem Instruction.proper_plan (hm : Modified i.verb i.modifier) :
    (i.plan caller (resultOf log)).Proper (i.Raises (resultOf log)) log := by
  unfold Instruction.plan
  split
  · exact Instruction.proper_remoteCall
  · next hlocal =>
    have hlocal : i.verb.isRemote = false := Bool.not_eq_true _ ▸ hlocal
    split
    · exact Instruction.proper_narrow hlocal
    · next hselect =>
      refine Instruction.proper_treeEdit hm ?_
      revert hlocal hselect
      cases i.verb <;> decide

end steps

section runs

variable {host : Host σ} {caller : WidgetId} {is : List Instruction} {s : σ}

open Instruction (Modified)

/-- The errors that a list makes itself: one that starts with a step that needs a result fails for want of
it. -/
def Raises (is : List Instruction) (result : Option WidgetId) (e : Error) : Prop :=
  (∀ cause, e ≠ .action cause) ∧
    (e = .selection .noResult → result = none ∧ ∃ i rest, is = i :: rest ∧ i.verb.isRemote = false)

theorem runAll_proper (hm : ∀ i ∈ is, Modified i.verb i.modifier) (host : Host σ) (caller : WidgetId)
    (log : List Event) (s : σ) :
    Orderly log ((taken host caller is (resultOf log) s).flatMap (·.events)) ∧
      Accounts (Raises is (resultOf log)) ((taken host caller is (resultOf log) s).flatMap (·.events))
        (runAll host caller is (resultOf log) s).1 := by
  induction is generalizing log s with
  | nil => exact ⟨trivial, by simp [taken, runAll, Accounts]⟩
  | cons i rest ih =>
    obtain ⟨hfirst, hrest⟩ := List.forall_mem_cons.mp hm
    have hplan : (i.plan caller (resultOf log)).Proper (i.Raises (resultOf log)) log :=
      Instruction.proper_plan hfirst
    obtain ⟨horderly, haccounts, hresult⟩ := hplan.run host s
    rw [runAll, taken]
    cases hrun : (i.plan caller (resultOf log)).run host s with
    | mk outcome t =>
      rw [hrun] at haccounts hresult
      cases outcome with
      | ok next =>
        obtain ⟨root, rfl, hnext⟩ := hresult next rfl
        have hlater := ih hrest (log ++ (i.plan caller (resultOf log)).events host s) t
        rw [hnext] at hlater
        refine ⟨orderly_append horderly haccounts hlater.1, accounts_append haccounts ?_⟩
        -- There is a result from here on, so nothing fails for want of one.
        exact hlater.2.mono fun e he => ⟨he.1, fun h => absurd (he.2 h).1 (Option.some_ne_none root)⟩
      | error e =>
        dsimp only
        rw [List.flatMap_singleton]
        exact ⟨horderly, haccounts.mono fun e he =>
          ⟨he.1, fun h => ⟨(he.2 h).2, i, rest, rfl, (he.2 h).1⟩⟩⟩

/-- A host that reports no errors of the action language. -/
structure Host.Foreign (host : Host σ) : Prop where
  fetch : ∀ call s cause, (host.fetch call s).1 ≠ .error (.action cause)
  answer : ∀ q s cause, (host.answer q s).1 ≠ .error (.action cause)

theorem Plan.foreign_events (hhost : host.Foreign) (p : Plan α) (s : σ) :
    ∀ event ∈ p.events host s, ∀ cause, event.error? ≠ some (.action cause) := by
  induction p generalizing s with
  | done a => exact List.forall_mem_nil _
  | fail e => exact List.forall_mem_nil _
  | fetch call k ih =>
    rw [Plan.events]
    cases hreply : host.fetch call s with
    | mk reply t =>
      cases reply with
      | ok response => exact List.forall_mem_cons.mpr ⟨fun _ he => (by cases he), ih response t⟩
      | error e =>
        refine List.forall_mem_singleton.mpr fun cause he => hhost.fetch call s cause ?_
        rw [hreply, Option.some.inj he]
  | ask q k ih =>
    rw [Plan.events]
    cases hreply : host.answer q s with
    | mk reply t =>
      cases reply with
      | ok answer => exact List.forall_mem_cons.mpr ⟨fun _ he => (by cases he), ih answer t⟩
      | error e =>
        refine List.forall_mem_singleton.mpr fun cause he => hhost.answer q s cause ?_
        rw [hreply, Option.some.inj he]

theorem foreign_taken (hhost : host.Foreign) (caller : WidgetId) (is : List Instruction)
    (result : Option WidgetId) (s : σ) :
    ∀ event ∈ (taken host caller is result s).flatMap (·.events),
      ∀ cause, event.error? ≠ some (.action cause) := by
  induction is generalizing result s with
  | nil => exact List.forall_mem_nil _
  | cons i rest ih =>
    have hfirst := Plan.foreign_events hhost (i.plan caller result) s
    rw [taken]
    cases hrun : (i.plan caller result).run host s with
    | mk outcome t =>
      cases outcome with
      | ok next =>
        rw [List.flatMap_cons]
        exact List.forall_mem_append.mpr ⟨hfirst, ih next t⟩
      | error e =>
        rw [List.flatMap_singleton]
        exact hfirst

/-- Some step needs a result and no request before it has brought one. -/
def Lacking (steps : List Step) : Prop :=
  ∃ before step after, steps = before ++ step :: after ∧
    (step.instruction.verb.isTreeEdit = true ∨ step.instruction.verb = .select) ∧
    ∀ earlier ∈ before, ¬ (earlier.instruction.verb.isRemote = true ∧ earlier.outcome = .ok ())

theorem Verb.isRemote_eq_false_iff {v : Verb} :
    v.isRemote = false ↔ v.isTreeEdit = true ∨ v = .select := by
  cases v <;> decide

/-- Only the first step of a run can be the one that lacks a result. -/
theorem Steps.first_of_lacking {steps : List Step} {outcome : Except Error Unit}
    (h : Steps is steps outcome) (hlacking : Lacking steps) :
    ∃ i rest, is = i :: rest ∧ i.verb.isRemote = false := by
  obtain ⟨before, step, after, rfl, hstep, hbefore⟩ := hlacking
  obtain ⟨rest, hrest⟩ := h.ordered
  cases before with
  | nil => exact ⟨_, _, hrest.symm, Verb.isRemote_eq_false_iff.mpr hstep⟩
  | cons first before =>
    have hdone : first.outcome = .ok () := by
      refine h.succeeded first ?_
      rw [List.dropLast_append_of_ne_nil (List.cons_ne_nil _ _)]
      exact List.mem_append_left _ List.mem_cons_self
    refine ⟨_, _, hrest.symm, Bool.eq_false_iff.mpr fun hremote => ?_⟩
    exact hbefore first List.mem_cons_self ⟨hremote, hdone⟩

theorem Instruction.plan_none {i : Instruction} (hv : i.verb.isRemote = false) :
    i.plan caller none = .fail (.selection .noResult) := by
  unfold Instruction.plan
  rw [hv]
  split
  · contradiction
  · split <;> rfl

theorem runAll_none {i : Instruction} {rest : List Instruction} (hv : i.verb.isRemote = false) :
    runAll host caller (i :: rest) none s = (.error (.selection .noResult), none, s) ∧
      taken host caller (i :: rest) none s = [⟨i, [], .error (.selection .noResult)⟩] := by
  rw [runAll, taken, Instruction.plan_none hv]
  exact ⟨rfl, rfl⟩

/-- What holds of the steps that a list takes and of its end: what it asks for is proper, nothing follows an
error, and of its own it fails with no error of the action language, and for want of a result only where a
step needs one that no request has brought. -/
structure Disciplined (is : List Instruction) (steps : List Step) (outcome : Except Error Unit) :
    Prop extends Steps is steps outcome where
  proper : ∀ before event after, steps.flatMap (·.events) = before ++ event :: after →
    event.Proper before
  stops : ∀ before event after, steps.flatMap (·.events) = before ++ event :: after →
    ∀ e, event.error? = some e → after = [] ∧ outcome = .error e
  foreign : ∀ cause, outcome ≠ .error (.action cause)
  lacks : (outcome = .error (.selection .noResult) ∧
    ∀ event ∈ steps.flatMap (·.events), event.error? = none) ↔ Lacking steps

theorem disciplined_taken (hm : ∀ i ∈ is, Modified i.verb i.modifier) (hhost : host.Foreign) :
    Disciplined is (taken host caller is none s) (runAll host caller is none s).1 := by
  have hsteps := steps_taken host caller is none s
  have hproper := runAll_proper hm host caller [] s
  rw [resultOf_nil] at hproper
  obtain ⟨horderly, haccounts⟩ := hproper
  have hforeign := foreign_taken hhost caller is none s
  refine ⟨hsteps, fun before event after hevents => ?_, fun before event after hevents e he => ?_,
    fun cause hcause => ?_, fun ⟨hfails, hfine⟩ => ?_, fun hlacking => ?_⟩
  · exact (orderly_at (hevents ▸ horderly)).1
  · have hlast : after = [] := (orderly_at (hevents ▸ horderly)).2 (by simp [he])
    refine ⟨hlast, haccounts.eq_of_getLast? ?_ he⟩
    rw [hevents, hlast, List.getLast?_concat]
  · rw [hcause] at haccounts
    obtain ⟨hown, -⟩ | ⟨event, hlast, he⟩ := haccounts
    · exact hown.1 cause rfl
    · exact hforeign event (List.mem_of_getLast? hlast) cause he
  · rw [hfails] at haccounts
    obtain ⟨hown, -⟩ | ⟨event, hlast, he⟩ := haccounts
    · obtain ⟨-, i, rest, rfl, hlocal⟩ := hown.2 rfl
      rw [(runAll_none hlocal).2]
      exact ⟨[], _, [], rfl, Verb.isRemote_eq_false_iff.mp hlocal, List.forall_mem_nil _⟩
    · exact nomatch he.symm.trans (hfine event (List.mem_of_getLast? hlast))
  · obtain ⟨i, rest, rfl, hlocal⟩ := hsteps.first_of_lacking hlacking
    rw [(runAll_none hlocal).1, (runAll_none hlocal).2]
    exact ⟨rfl, List.forall_mem_nil _⟩

/-- Whatever a host replies, and wherever a list that was read is cut short, the host is called as the steps
that were taken call it, and these are disciplined. -/
theorem runAll_disciplined (host : Host σ) (hhost : host.Foreign) (caller : WidgetId) {t : String}
    (h : compile t = .ok is) (n : Nat) (s : σ) :
    runAll host.noting caller (is.take n) none (s, []) =
        ((runAll host caller (is.take n) none s).1, (runAll host caller (is.take n) none s).2.1,
          (runAll host caller (is.take n) none s).2.2,
          (taken host caller (is.take n) none s).flatMap (·.events)) ∧
      Disciplined (is.take n) (taken host caller (is.take n) none s)
        (runAll host caller (is.take n) none s).1 := by
  refine ⟨runAll_noting host caller (is.take n) none s [], disciplined_taken (fun i hi => ?_) hhost⟩
  exact ((compile_eq_ok_iff.mp h).1 i (List.mem_of_mem_take hi)).modified

/-- A host that grants whatever it is asked for. -/
def Host.obliging : Host Unit where
  fetch call s := (.ok { status := 200, url := call.endpoint, body := "" }, s)
  answer
    | .requestBody _ _, s => (.ok .null, s)
    | .loadFragment _, s => (.ok ⟨1⟩, s)
    | .select _ _, s => (.ok [⟨2⟩], s)
    | .isContainer _, s => (.ok true, s)
    | .query _, s => (.ok "", s)
    | .edit _ _ _, s => (.ok (), s)

theorem Host.foreign_obliging : Host.obliging.Foreign where
  fetch := nofun
  answer q := by cases q <;> exact nofun

theorem runAll_disciplined_obliging :
    let is : List Instruction := [⟨.get, "/a", none⟩, ⟨.select, "#b", none⟩, ⟨.swap, "#c", some "in"⟩]
    compile "GET /a; SELECT #b; SWAP in #c" = .ok is ∧ Host.obliging.Foreign ∧
      (taken Host.obliging ⟨0⟩ (is.take 3) none ()).length = 3 ∧
      Disciplined (is.take 3) (taken Host.obliging ⟨0⟩ (is.take 3) none ())
        (runAll Host.obliging ⟨0⟩ (is.take 3) none ()).1 := by
  have hread : compile "GET /a; SELECT #b; SWAP in #c" =
      .ok [⟨.get, "/a", none⟩, ⟨.select, "#b", none⟩, ⟨.swap, "#c", some "in"⟩] := by decide
  exact ⟨hread, Host.foreign_obliging, rfl,
    (runAll_disciplined Host.obliging Host.foreign_obliging ⟨0⟩ hread 3 ()).2⟩

end runs

end Hypermedia.Action
