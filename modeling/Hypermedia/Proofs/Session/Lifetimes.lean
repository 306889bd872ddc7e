import Hypermedia.Proofs.Session.Owned
import Hypermedia.Proofs.Session.Rollback

/-! How long widgets live: as long as they have a place, wait for one or are loose, and no longer than
their page. -/
namespace Hypermedia.Session

variable {σ : Type} {s t u : Session σ} {x : WidgetId} {n : Node} {url : Url} {page : Markup.Page}
  (transport : Transport σ)

section turnover

theorem startAll_frame (lists : List (List Action.Instruction × WidgetId)) (s : Session σ) :
    ∃ workers nextWorker, lists.foldl (fun s list => s.startActions list.1 list.2) s =
      { s with workers, nextWorker } := by
  induction lists generalizing s with
  | nil => exact ⟨_, _, rfl⟩
  | cons list lists ih =>
    obtain ⟨workers, nextWorker, h⟩ := ih (s.startActions list.1 list.2)
    exact ⟨workers, nextWorker, h⟩

/-- A page that is complete leaves of the tree what is below no pending fragment and no layer of the old
page, and is not loose. -/
theorem commit_frame (u : Session σ) (o : Outgoing) (url : Url) (page : Markup.Page) :
    (u.commit o url page).pending = [] ∧ (u.commit o url page).loose = u.loose.drop o.loose ∧
      ∃ ids, o.pinned ⊆ ids ∧ (u.commit o url page).tree = u.tree.removeAll ids := by
  let cut := u.cancelInFlight.tree
  obtain ⟨dropped, -, hdrop⟩ := dropLoose_eq ((cut.removeAll o.root.toList).removeAll o.pinned)
    (u.loose.take o.loose)
  unfold commit
  dsimp only
  obtain ⟨workers, nextWorker, h⟩ := startAll_frame (u.cancelInFlight.deferred.getD []) _
  rw [h]
  refine ⟨rfl, rfl, u.pending.map (·.1) ++ o.root.toList ++ o.pinned ++ dropped, ?_, ?_⟩
  · exact fun _ hid => List.mem_append_left _ (List.mem_append_right _ hid)
  · refine hdrop.trans ?_
    simp only [Tree.removeAll, List.foldl_append]
    rfl

theorem world_commit (u : Session σ) (o : Outgoing) (url : Url) (page : Markup.Page) :
    (u.commit o url page).world = u.world := by
  unfold commit
  dsimp only
  obtain ⟨workers, nextWorker, h⟩ := startAll_frame (u.cancelInFlight.deferred.getD []) _
  rw [h]
  rfl

/-- What a page that is staged leaves once it is complete is its own. -/
theorem not_contains_commit (hs : s.Intact) (hstray : ∀ x, ¬ s.Stray x) (hu : s.Staged u)
    (hspares : s.Spares (u.commit s.aside url page)) (ho : (u.commit s.aside url page).outgoing = none)
    (hold : ¬ s.tree.Unused x) : (u.commit s.aside url page).tree.contains x = false := by
  obtain ⟨hpending, hloose, ids, hpinned, htree⟩ := commit_frame u s.aside url page
  obtain ⟨added, hadded, hnew⟩ := hu.loose
  have hforest := hu.grown.forest
  refine Bool.eq_false_iff.mpr fun hlive => ?_
  rw [htree] at hlive
  obtain ⟨a, hw, halive, htop⟩ := (hforest.removeAll ids).exists_top hlive
  have hwithin : u.tree.Within x a :=
    (hforest.within_removeAll (hforest.contains_removeAll_iff.mp hlive).2).mp hw
  -- old and new widgets are never below one another
  have ha : ¬ s.tree.Unused a := fun h =>
    hold ((hu.grown.unused_iff_of_within hs.tree.forest hwithin).mpr h)
  refine hstray a (hspares.stray a ⟨⟨⟨htree ▸ halive, htree ▸ htop, fun hr => ?_, fun hpin => ?_⟩, ?_⟩, ?_, ?_⟩)
  · rw [htree] at hr
    exact ha (hu.root a (Tree.root_of_root_removeAll hr))
  · rw [htree] at hpin
    obtain ⟨hbefore, hout⟩ := Tree.mem_pinned_of_removeAll hpin
    exact hout (hpinned (hu.grown.mem_pinned hbefore ha))
  · simp [ho]
  · intro hmem
    have hdrop : u.loose.drop s.loose.length = added := by rw [hadded, List.drop_left]
    rw [hloose] at hmem
    exact ha (hnew a (hdrop ▸ hmem))
  · rw [hpending]
    rfl

/-- With a page that is complete and self-contained all widgets of the page before are gone. -/
theorem install_of_ok (hs : s.Steady) (hstray : ∀ x, ¬ s.Stray x) (hself : s.SelfContained n)
    (h : install url n s = (.ok (), t)) (hold : ¬ s.tree.Unused x) : t.tree.contains x = false := by
  have hsecured := secures_install url n s hs
  rw [h] at hsecured
  rcases install_cases hs.intact hself with ⟨e, ws, -, hr⟩ | ⟨page, u, hstaged, hr | ⟨e, hr⟩⟩
  · cases h.symm.trans hr
  · cases h.symm.trans hr
    exact not_contains_commit hs.intact hstray hstaged hsecured.2 hsecured.1.outgoing hold
  · cases h.symm.trans hr

/-- The history that a route leaves to the session. -/
def historyTo (s : Session σ) (destination : String) (suppressHistory : Bool) : History :=
  if suppressHistory then s.history else s.history.push destination

theorem route_eq (destination : String) (suppressHistory : Bool) (s : Session σ) :
    route transport destination suppressHistory s =
      visit transport destination { s with history := s.historyTo destination suppressHistory } := by
  cases suppressHistory <;> rfl

/-- After a route that leads to a self-contained document the widgets of the page before are gone. -/
theorem route_of_ok {destination : String} {suppressHistory : Bool} (hs : s.Steady)
    (hstray : ∀ x, ¬ s.Stray x)
    (hself : ∀ found u, fetched transport destination
      { s with history := s.historyTo destination suppressHistory } = (.ok found, u) →
        u.SelfContained found.2)
    (h : route transport destination suppressHistory s = (.ok (), t)) (hold : ¬ s.tree.Unused x) :
    t.tree.contains x = false := by
  let moved := { s with history := s.historyTo destination suppressHistory }
  have hmoved : s.Secures moved := Guards.secures (guards_of_eq rfl rfl rfl rfl id)
  obtain ⟨hsteady, hspares⟩ := hmoved hs
  have hfetches := fetches_fetched transport destination moved
  rw [route_eq, visit_eq, Effect.run_bind] at h
  cases hr : fetched transport destination moved with
  | mk result u =>
    rw [hr] at h hfetches
    cases result with
    | error e => cases h
    | ok found =>
      obtain ⟨hfound, hlast⟩ := hfetches.guards.secures hsteady
      -- fetching changes the network and no widget
      have hnone : ∀ x, ¬ u.Stray x := fun x hx => hstray x (hspares.stray x (hlast.stray x hx))
      have hused : ¬ u.tree.Unused x := by
        obtain ⟨network, rfl⟩ := hfetches
        exact hold
      exact install_of_ok hfound hnone (hself found u hr) h hused

end turnover

section owners

/-- Above every live widget stands one without a parent that is a layer, pending or loose. -/
theorem Owned.exists_owner (ho : s.Owned) (hs : s.Steady) (hx : s.tree.contains x = true) :
    ∃ a, s.tree.Within x a ∧ s.tree.parent? a = none ∧
      (a ∈ s.tree.layers ∨ a ∈ s.pending.map (·.1) ∨ a ∈ s.loose) := by
  obtain ⟨a, hw, hlive, htop⟩ := hs.intact.tree.forest.exists_top hx
  refine ⟨a, hw, htop, ?_⟩
  by_contra hno
  simp only [not_or, Tree.mem_layers_iff] at hno
  obtain ⟨⟨hroot, hpin⟩, hpending, hloose⟩ := hno
  refine ho.stray a ⟨⟨⟨hlive, htop, hroot, hpin⟩, by simp [hs.outgoing]⟩, hloose, ?_⟩
  refine List.lookup_eq_none_iff.mpr fun p hp => bne_iff_ne.mpr ?_
  rintro rfl
  exact hpending (List.mem_map_of_mem hp)

/-- Where no list and no message has a fragment, none is pending. -/
theorem Owned.pending_eq_nil (ho : s.Owned) (hw : s.workers = [])
    (hm : ∀ m ∈ s.inbox, m.task.fragments = []) : s.pending = [] := by
  refine List.eq_nil_iff_forall_not_mem.mpr fun p hp => ?_
  have hkey : s.pending.lookup p.1 ≠ none := fun hnone => by
    simpa using List.lookup_eq_none_iff.mp hnone p hp
  obtain ⟨g, ⟨w, hmem, -⟩ | ⟨m, hmem, -, hroot⟩⟩ := ho.held p.1 hkey
  · rw [hw] at hmem
    cases hmem
  · rw [hm m hmem] at hroot
    cases hroot

end owners

/-- At all times of a session, however its turns and those of its action lists are mixed, if the rules of
all fragments that are loaded can be read: every live widget is in a document, a dialogue, a pending
fragment or a loose widget; once all action lists have ended and have given back their fragments, none
is pending; and a page change to a self-contained document leaves no widget of the page before. -/
theorem widgets_owned (config : Config) (network : σ) (first : Session σ)
    (hstart : start config network = .ok first) (turns : List (Turn σ))
    (hreadable : first.RunsReadably transport turns) :
    let s := first.afterAll transport turns
    (∀ x, s.tree.contains x = true → ∃ a, s.tree.Within x a ∧ s.tree.parent? a = none ∧
      (a ∈ s.tree.layers ∨ a ∈ s.pending.map (·.1) ∨ a ∈ s.loose)) ∧
    (s.workers = [] → (∀ m ∈ s.inbox, m.task.fragments = []) →
      s.pending = [] ∧ ∀ x, s.tree.contains x = true → ∃ a, s.tree.Within x a ∧
        s.tree.parent? a = none ∧ (a ∈ s.tree.layers ∨ a ∈ s.loose)) ∧
    (∀ history destination suppressHistory t, let s := { s with history }
      (∀ found u, fetched transport destination
        { s with history := s.historyTo destination suppressHistory } = (.ok found, u) →
          u.SelfContained found.2) →
      route transport destination suppressHistory s = (.ok (), t) →
        ∀ x, s.tree.contains x = true → t.tree.contains x = false) := by
  intro s
  have hsound : s.Sound := sound_afterAll transport (sound_start hstart) turns
  have howned : s.Owned := owned_afterAll transport (sound_start hstart) (consistent_start hstart)
    (owned_start hstart) hreadable
  refine ⟨fun x => howned.exists_owner hsound.toSteady, fun hw hm => ?_, ?_⟩
  · have hpending := howned.pending_eq_nil hw hm
    refine ⟨hpending, fun x hx => ?_⟩
    have howner := howned.exists_owner hsound.toSteady hx
    simpa [hpending] using howner
  · intro history destination suppressHistory t moved hself h x hx
    have hmoved : s.Secures moved := Guards.secures (guards_of_eq rfl rfl rfl rfl id)
    obtain ⟨hsteady, hspares⟩ := hmoved hsound.toSteady
    exact route_of_ok transport hsteady (fun x hx => howned.stray x (hspares.stray x hx)) hself h
      (Tree.not_unused_of_contains hx)

section examples

/-- Whether some action list asks for a fragment. -/
def isLoading (s : Session σ) : Bool :=
  s.workers.any fun w => w.phase matches .asking (.loadFragment _) _

theorem loadsReadably_of_not_isLoading (h : s.isLoading = false) (turn : Turn σ) :
    s.LoadsReadably transport turn := by
  cases turn with
  | message =>
    rintro m inbox - - w hw - q k hphase r fragment t rfl -
    have hnot := List.any_eq_false.mp h w hw
    rw [hphase] at hnot
    exact absurd rfl hnot
  | _ => trivial

/-- A page with a dialogue, and a list that asks for a widget that is not there. -/
def turnedDown : List (Turn Unit) :=
  [.route "/p" false, .start [{ verb := .get, argument := "/x", modifier := some "tower" }] ⟨3⟩,
    .worker 0, .worker 0, .message, .worker 0, .worker 0, .worker 0, .message]

/-- The list has ended, and with the next page the dialogue is gone. -/
theorem turnedDown_owned : ∃ first, start {} () = .ok first ∧
    let s := first.afterAll greeting turnedDown
    let t := (route greeting "/q" false s).2
    s.tree.pinned = [⟨3⟩] ∧ s.pending = [] ∧
      (∀ x, s.tree.contains x = true → ∃ a, s.tree.Within x a ∧ s.tree.parent? a = none ∧
        (a ∈ s.tree.layers ∨ a ∈ s.loose)) ∧
      t.tree.pinned = [⟨7⟩] ∧ ∀ x, s.tree.contains x = true → t.tree.contains x = false := by
  obtain ⟨first, hstart, hasked, htold, hpinned, hworkers, hinbox, hnext, hok, hown⟩ :=
    exists_start (p := fun first =>
      let s := first.afterAll greeting turnedDown
      (first.afterAll greeting (turnedDown.take 4)).isLoading = false ∧
      (first.afterAll greeting (turnedDown.take 8)).isLoading = false ∧
      s.tree.pinned = [⟨3⟩] ∧ s.workers.isEmpty ∧ s.inbox.isEmpty ∧
      (route greeting "/q" false s).2.tree.pinned = [⟨7⟩] ∧ (route greeting "/q" false s).1.isOk ∧
      (match fetched greeting "/q" { s with history := s.historyTo "/q" false } with
        | (.ok found, u) => decide (u.SelfContained found.2)
        | (.error _, _) => true) = true) (by decide +kernel)
  have hreadable : first.RunsReadably greeting turnedDown :=
    ⟨trivial, trivial, trivial, trivial, loadsReadably_of_not_isLoading greeting hasked .message, trivial,
      trivial, trivial, loadsReadably_of_not_isLoading greeting htold .message, trivial⟩
  obtain ⟨-, hended, hturnover⟩ := widgets_owned greeting {} () first hstart turnedDown hreadable
  refine ⟨first, hstart, ?_⟩
  generalize first.afterAll greeting turnedDown = s at hpinned hworkers hinbox hnext hok hown hended hturnover ⊢
  obtain ⟨hpending, howners⟩ := hended (List.isEmpty_iff.mp hworkers) (by simp [List.isEmpty_iff.mp hinbox])
  have hself : ∀ found u, fetched greeting "/q" { s with history := s.historyTo "/q" false } = (.ok found, u) →
      u.SelfContained found.2 := by
    intro found u hfound
    rw [hfound] at hown
    exact of_decide_eq_true hown
  refine ⟨hpinned, hpending, howners, ?_⟩
  cases hr : route greeting "/q" false s with
  | mk result t =>
    rw [hr] at hok hnext
    cases result with
    | error e => cases hok
    | ok => exact ⟨hnext, hturnover s.history "/q" false t hself hr⟩

end examples

end Hypermedia.Session
