import Hypermedia.Proofs.Session.Lifetimes

/-! Travels: the calls that take a session to another page, what they make of its history, and what is left
of a call that fails. -/
namespace Hypermedia.Session

open Effect (Moves)

variable {σ : Type} {s t u : Session σ} {e : Error} (transport : Transport σ)

/-- A call that takes the session to a page. -/
inductive Travel where
  | visit (destination : String)
  | back
  | forward
  | refresh

namespace Travel

def run : Travel → Act σ Unit
  | visit destination => route transport destination false
  | back => Session.back transport
  | forward => Session.forward transport
  | refresh => Session.refresh transport

/-- What a call makes of the history before it goes anywhere. -/
def move : Travel → History → History
  | visit destination, h => h.push destination
  | back, h => h.back
  | forward, h => h.forward
  | refresh, h => h

/-- Where a call leads to, if it leads anywhere. -/
def destination? (s : Session σ) : Travel → Option String
  | visit destination => some destination
  | back => s.history.back.current?
  | forward => s.history.forward.current?
  | refresh => some s.url.text

end Travel

section page

/-- The same page is shown, and the history stands where it stood. -/
structure Shows (s t : Session σ) : Prop where
  page : t.page = s.page
  url : t.url = s.url
  title : t.title = s.title
  history : t.history = s.history

instance : IsPreorder (Session σ) Shows where
  refl _ := ⟨rfl, rfl, rfl, rfl⟩
  trans _ _ _ h k := ⟨k.page.trans h.page, k.url.trans h.url, k.title.trans h.title,
    k.history.trans h.history⟩

theorem shows_carries : Binds (Shows (σ := σ)) (fun _ => True) (fun _ => True) where
  perform service s _ := by
    rcases perform_frame service s with ⟨_, _, _, _, _, h⟩ | ⟨-, ⟨_, _, h⟩ | ⟨_, h⟩⟩ <;> rw [h] <;>
      exact ⟨rfl, rfl, rfl, rfl⟩
  world _ _ _ := ⟨rfl, rfl, rfl, rfl⟩
  rules _ _ := ⟨rfl, rfl, rfl, rfl⟩
  bind _ _ _ _ _ _ := ⟨rfl, rfl, rfl, rfl⟩
  scope _ _ _ _ := ⟨rfl, rfl, rfl, rfl⟩

theorem shows_compiled {α : Type} (c : Markup.Compile α) : Moves Shows (compiled c : Act σ α) :=
  Effect.moves_get_bind fun _ => Effect.moves_set_bind ⟨rfl, rfl, rfl, rfl⟩ (moves_lift _ _)

/-- A page is shown when it is complete and not before. -/
theorem shows_install (url : Url) (n : Node) (s : Session σ) :
    match install url n s with
    | (.ok (), t) => t.url = url ∧ t.history = s.history
    | (.error _, t) => s.Shows t := by
  have hcompiled := shows_compiled (Markup.compilePage n) s
  obtain ⟨e, t, hc, h⟩ | ⟨page, t, u, hc, hr, h⟩ := install_outcomes url n s
  · rw [hc] at hcompiled
    rw [h]
    exact hcompiled
  · rw [hc] at hcompiled
    have hstaged : s.Shows (t.stage (page.content.map Markup.Fragment.root)) :=
      ⟨hcompiled.page, hcompiled.url, hcompiled.title, hcompiled.history⟩
    have hruns : Moves Shows (runPage page : Act σ Unit) :=
      (shows_carries.runPage fun _ _ _ _ => trivial).moves fun _ => trivial
    have hran := IsTrans.trans _ _ _ hstaged (hruns _)
    rw [hr] at hran
    rcases h with h | ⟨e, h⟩ <;> rw [h]
    · dsimp only [commit]
      obtain ⟨workers, nextWorker, hstarted⟩ := startAll_frame (u.cancelInFlight.deferred.getD []) _
      rw [hstarted]
      exact ⟨rfl, hran.history⟩
    · exact ⟨hran.page, hran.url, hran.title, hran.history⟩

theorem resolve_of_fetched {destination : String} {found : Url × Node}
    (h : fetched transport destination s = (.ok found, t)) :
    resolveEndpoint s.url destination = .ok found.1 := by
  rw [fetched, Effect.run_get_bind] at h
  obtain ⟨url, u, hlift, h⟩ := Effect.bind_eq_ok h
  obtain ⟨response, v, -, h⟩ := Effect.bind_eq_ok h
  obtain ⟨document, w, -, h⟩ := Effect.bind_eq_ok h
  obtain ⟨node, x, -, h⟩ := Effect.bind_eq_ok h
  cases h
  cases hr : resolveEndpoint s.url destination with
  | error e =>
    rw [hr] at hlift
    cases hlift
  | ok found =>
    rw [hr] at hlift
    cases hlift
    rfl

/-- A visit that fails leaves the page that is shown, and one that does not shows the page its destination
leads to from there. -/
theorem shows_visit (destination : String) (s : Session σ) :
    match visit transport destination s with
    | (.ok (), t) => resolveEndpoint s.url destination = .ok t.url ∧ t.history = s.history
    | (.error _, t) => s.Shows t := by
  rw [visit_eq, Effect.run_bind]
  have hfetches := fetches_fetched transport destination s
  cases hf : fetched transport destination s with
  | mk result t =>
    rw [hf] at hfetches
    obtain ⟨network, rfl⟩ := hfetches
    cases result with
    | error e => exact ⟨rfl, rfl, rfl, rfl⟩
    | ok found =>
      have hresolve := resolve_of_fetched transport hf
      have hinstall := shows_install found.1 found.2 { s with network }
      dsimp only
      generalize install found.1 found.2 { s with network } = r at hinstall ⊢
      obtain ⟨outcome, t⟩ := r
      cases outcome with
      | error e => exact ⟨hinstall.page, hinstall.url, hinstall.title, hinstall.history⟩
      | ok => exact ⟨hinstall.1 ▸ hresolve, hinstall.2⟩

end page

namespace Travel

variable (call : Travel)

theorem revisit_eq {move : History → History} (s : Session σ)
    (hmove : s.history.entries = [] → (move s.history).current? = none) :
    revisit transport move s = match (move s.history).current? with
      | some destination => Session.visit transport destination { s with history := move s.history }
      | none => (.ok (), { s with history := move s.history }) := by
  rw [revisit, Effect.run_get_bind, Effect.run_set_bind]
  split
  · next hempty =>
    rw [hmove (List.isEmpty_iff.mp hempty)]
    rfl
  · cases (move s.history).current? <;> rfl

/-- Every call moves through the history first, and then visits the page it leads to. -/
theorem run_eq (s : Session σ) :
    call.run transport s = match call.destination? s with
      | some destination => Session.visit transport destination { s with history := call.move s.history }
      | none => (.ok (), { s with history := call.move s.history }) := by
  cases call with
  | visit destination => exact route_eq transport destination false s
  | back => exact revisit_eq transport s fun h => by simp [History.back, History.current?, h]
  | forward => exact revisit_eq transport s fun h => by simp [History.forward, History.current?, h]
  | refresh =>
    rw [run, refresh_eq, route_eq]
    rfl

theorem run_of_destination {destination : String} (h : call.destination? s = some destination) :
    call.run transport s =
      Session.visit transport destination { s with history := call.move s.history } := by
  rw [run_eq, h]

end Travel

namespace History

variable {h : History} {destination : String}

theorem tail_concat_eq_self_iff (entries : List String) :
    (entries ++ [destination]).drop 1 = entries ↔ ∀ entry ∈ entries, entry = destination := by
  cases entries with
  | nil => simp
  | cons first entries =>
    rw [List.cons_append, List.drop_one, List.tail_cons]
    induction entries generalizing first with
    | nil => simp [eq_comm]
    | cons second entries ih =>
      have hsplit : second :: entries ++ [destination] = first :: second :: entries ↔
          second = first ∧ entries ++ [destination] = second :: entries := by
        rw [List.cons_append, List.cons_eq_cons]
      rw [hsplit, ih second]
      constructor
      · rintro ⟨rfl, hall⟩
        exact List.forall_mem_cons.mpr ⟨hall second List.mem_cons_self, hall⟩
      · intro hall
        obtain ⟨hfirst, hall⟩ := List.forall_mem_cons.mp hall
        exact ⟨(hall second List.mem_cons_self).trans hfirst.symm, hall⟩

/-- To record a destination changes nothing in a history that is full of it. -/
theorem push_eq_iff : h.push destination = h ↔
    h.entries.length = h.limit ∧ (∀ entry ∈ h.entries, entry = destination) ∧ h.offset = 0 := by
  obtain ⟨entries, offset, limit⟩ := h
  have hlength : (entries ++ [destination]).length = entries.length + 1 := by simp
  simp only [push, mk.injEq, hlength, and_true]
  constructor
  · rintro ⟨hentries, rfl⟩
    have hkept := congrArg List.length hentries
    rw [List.length_drop, hlength] at hkept
    have hfull : entries.length = limit := by omega
    rw [hfull, Nat.add_sub_cancel_left] at hentries
    exact ⟨hfull, (tail_concat_eq_self_iff entries).mp hentries, rfl⟩
  · rintro ⟨rfl, hall, rfl⟩
    rw [Nat.add_sub_cancel_left]
    exact ⟨(tail_concat_eq_self_iff entries).mpr hall, rfl⟩

theorem back_eq_iff : h.back = h ↔ h.entries = [] ∨ h.offset + 1 = h.entries.length := by
  obtain ⟨entries, offset, limit⟩ := h
  unfold back
  cases entries with
  | nil => simp
  | cons first entries =>
    simp only [List.isEmpty_cons, Bool.false_eq_true, if_false, mk.injEq, List.length_cons, reduceCtorEq,
      false_or, true_and, and_true]
    omega

theorem forward_eq_iff : h.forward = h ↔ h.entries = [] ∨ h.offset = 0 := by
  obtain ⟨entries, offset, limit⟩ := h
  unfold forward
  cases entries with
  | nil => simp
  | cons first entries =>
    simp only [List.isEmpty_cons, Bool.false_eq_true, if_false, mk.injEq, reduceCtorEq, false_or, true_and,
      and_true]
    omega

/-- A step forward takes a step back again. -/
theorem forward_back (hback : h.offset + 1 < h.entries.length) : h.back.forward = h := by
  obtain ⟨entries, offset, limit⟩ := h
  have hentries : entries.isEmpty = false := by
    cases entries with
    | nil => cases hback
    | cons => rfl
  have hoffset : min (offset + 1) (entries.length - 1) - 1 = offset := by
    dsimp only at hback
    omega
  simp [back, forward, hentries, hoffset]

theorem back_forward (hforward : 0 < h.offset) (hinside : h.offset < h.entries.length) :
    h.forward.back = h := by
  obtain ⟨entries, offset, limit⟩ := h
  have hentries : entries.isEmpty = false := by
    cases entries with
    | nil => cases hinside
    | cons => rfl
  have hoffset : min (offset - 1 + 1) (entries.length - 1) = offset := by
    dsimp only at hforward hinside
    omega
  simp [back, forward, hentries, hoffset]

end History

section failure

/-- The call has no other place in the history to go to. -/
def Travel.Stands (h : History) : Travel → Prop
  | visit destination =>
    h.entries.length = h.limit ∧ (∀ entry ∈ h.entries, entry = destination) ∧ h.offset = 0
  | back => h.entries = [] ∨ h.offset + 1 = h.entries.length
  | forward => h.entries = [] ∨ h.offset = 0
  | refresh => True

theorem Travel.move_eq_iff (call : Travel) (h : History) : call.move h = h ↔ call.Stands h := by
  cases call with
  | visit destination => exact History.push_eq_iff
  | back => exact History.back_eq_iff
  | forward => exact History.forward_eq_iff
  | refresh => exact iff_of_true rfl trivial

/-- A call that fails leaves the page that is shown, and the history where it is when the call succeeds:
what is recorded is recorded, and a step back or forward is taken, and can be taken back. -/
theorem failed_travel_keeps_page (call : Travel) (h : call.run transport s = (.error e, t)) :
    t.page = s.page ∧ t.url = s.url ∧ t.title = s.title ∧ t.history = call.move s.history ∧
      (t.history = s.history ↔ call.Stands s.history) ∧
      (s.history.offset < s.history.entries.length → ¬ call.Stands s.history →
        (call = .back → t.history.forward = s.history) ∧
        (call = .forward → t.history.back = s.history)) := by
  cases hd : call.destination? s with
  | none =>
    rw [call.run_eq, hd] at h
    cases h
  | some destination =>
    have hvisit := shows_visit transport destination { s with history := call.move s.history }
    rw [← call.run_of_destination transport hd, h] at hvisit
    have hhistory : t.history = call.move s.history := hvisit.history
    refine ⟨hvisit.page, hvisit.url, hvisit.title, hhistory, ?_, fun hinside hmoved => ⟨?_, ?_⟩⟩
    · rw [hhistory]
      exact call.move_eq_iff s.history
    · rintro rfl
      rw [hhistory]
      refine History.forward_back (Nat.lt_of_le_of_ne hinside fun hoffset => ?_)
      exact hmoved (.inr hoffset)
    · rintro rfl
      rw [hhistory]
      refine History.back_forward (Nat.pos_of_ne_zero fun hoffset => ?_) hinside
      exact hmoved (.inr hoffset)

section examples

/-- The page that is asked for cannot be had, and the history is at it and not at the page that is still
shown. -/
theorem lost_visit_moves_history : ∃ first, start {} () = .ok first ∧
    let s := first.afterAll resetting [.route "/p" false]
    let lost := route resetting "/slow" false s
    lost.1.isOk = false ∧ s.url.path.render = "/p".toList ∧ lost.2.url = s.url ∧
      s.history.entries = ["/p"] ∧ s.history.current? = some "/p" ∧
      lost.2.history.entries = ["/p", "/slow"] ∧ lost.2.history.current? = some "/slow" := by
  exact exists_start (by decide +kernel)

/-- The step back from the second page fails, and a step forward takes it back. -/
theorem lost_back_keeps_page : ∃ first, start {} () = .ok first ∧
    let lost := server fun _ => true
    let s := first.afterAll lost [.route "/p" false, .route "/q" false]
    let t := (Travel.back.run lost s).2
    (Travel.back.run lost s).1.isOk = false ∧ s.history.offset = 0 ∧ s.history.entries = ["/p", "/q"] ∧
      t.page = s.page ∧ t.url = s.url ∧ t.title = s.title ∧ t.history = s.history.back ∧
      t.history ≠ s.history ∧ t.history.forward = s.history := by
  obtain ⟨first, hstart, hfails, hoffset, hentries⟩ := exists_start (p := fun first =>
    let lost := server fun _ => true
    let s := first.afterAll lost [.route "/p" false, .route "/q" false]
    (Travel.back.run lost s).1.isOk = false ∧ s.history.offset = 0 ∧ s.history.entries = ["/p", "/q"])
    (by decide +kernel)
  let lost := server fun _ => true
  let s := first.afterAll lost [.route "/p" false, .route "/q" false]
  obtain ⟨e, t, h⟩ : ∃ e t, Travel.back.run lost s = (.error e, t) := by
    cases hr : Travel.back.run lost s with
    | mk result t =>
      rw [hr] at hfails
      cases result with
      | ok => cases hfails
      | error e => exact ⟨e, t, rfl⟩
  have hinside : s.history.offset < s.history.entries.length := by simp [s, lost, hoffset, hentries]
  have hmoved : ¬ Travel.back.Stands s.history := by simp [Travel.Stands, s, lost, hoffset, hentries]
  obtain ⟨hpage, hurl, htitle, hhistory, hsame, hundo⟩ := failed_travel_keeps_page lost .back h
  obtain ⟨hforward, -⟩ := hundo hinside hmoved
  refine ⟨first, hstart, hfails, hoffset, hentries, ?_⟩
  rw [h]
  exact ⟨hpage, hurl, htitle, hhistory, fun heq => hmoved (hsame.mp heq), hforward rfl⟩

end examples

end failure

end Hypermedia.Session
