import Hypermedia.Proofs.Session.Travel

/-! Trails: the URLs that the destinations of a history led to when they were recorded, and when the way
back leads to them again. -/
namespace Hypermedia

namespace Url

/-- `u` is on the site of another URL, and has a path there. -/
structure OnSite (site u : Url) : Prop where
  scheme : u.scheme = site.scheme
  username : u.username = site.username
  password : u.password = site.password
  host : u.host = site.host
  port : u.port = site.port
  path : ∃ segments, u.path = .segments segments

/-- What begins with one slash. -/
def isRooted (text : String) : Bool :=
  ['/'].isPrefixOf text.toList &&
    match clean text.toList with
    | '/' :: rest => rest.head?.all fun c => c != '/' && c != '\\'
    | _ => false

/-- Where a path from the root of a site leads to. -/
def rooted (site : Url) (path : List Char) : Url :=
  let tail := Tail.ofText path
  { site with path := pathFrom site.scheme [] (tail.path.drop 1) }.withTail tail

variable {site base : Url} {text : String}

theorem OnSite.rooted (path : List Char) : site.OnSite (site.rooted path) :=
  ⟨rfl, rfl, rfl, rfl, rfl, _, rfl⟩

theorem OnSite.rooted_eq (h : site.OnSite base) (path : List Char) : base.rooted path = site.rooted path := by
  simp only [Url.rooted, withTail, h.scheme, h.username, h.password, h.host, h.port]

theorem relative_of_slash {segments : List (List Char)} (hpath : base.path = .segments segments)
    (hfile : isFileScheme base.scheme = false) {rest : List Char}
    (hrest : rest.head?.all (fun c => c != '/' && c != '\\') = true) :
    base.relative ('/' :: rest) = some (base.rooted ('/' :: rest)) := by
  unfold relative
  rw [hpath]
  cases rest with
  | nil =>
    have hpath : (Tail.ofText ['/']).path.drop 1 = [] := by decide
    simp only [hfile, Url.rooted, hpath, isSlash, beq_self_eq_true, Bool.true_or, Bool.false_eq_true, if_false,
      if_true]
  | cons c rest =>
    simp only [List.head?_cons, Option.all_some, Bool.and_eq_true, bne_iff_ne, ne_eq] at hrest
    simp [hfile, isSlash, Url.rooted, hrest]

/-- From all of a site what begins with one slash leads to the same place there. -/
theorem join_of_isRooted (hfile : isFileScheme site.scheme = false) (h : site.OnSite base)
    (ht : isRooted text = true) : base.join text = some (site.rooted (clean text.toList)) := by
  obtain ⟨segments, hpath⟩ := h.path
  obtain ⟨-, hclean⟩ := Bool.and_eq_true_iff.mp ht
  rw [← h.rooted_eq, join]
  split at hclean
  · next rest hslash =>
    have hscheme : splitScheme ('/' :: rest) = none := by simp [splitScheme]
    rw [hslash, hscheme]
    exact relative_of_slash hpath (h.scheme ▸ hfile) hclean
  · cases hclean

end Url

namespace Session

variable {σ : Type} {s t : Session σ} (transport : Transport σ)

section endpoints

/-- The URL of a destination that has one by itself. -/
def absolute? (destination : String) : Option Url :=
  if ['/'].isPrefixOf destination.toList then none else (Url.parse destination).toOption

/-- From wherever a session is among some URLs, a destination leads to one and the same of them. -/
def Anchored (here : Url → Prop) (destination : String) : Prop :=
  ∃ url, here url ∧ ∀ base, here base → resolveEndpoint base destination = .ok url

variable {destination : String} {site url : Url}

theorem resolve_of_absolute (h : absolute? destination = some url) (base : Url) :
    resolveEndpoint base destination = .ok url := by
  unfold absolute? at h
  unfold resolveEndpoint
  split at h
  · cases h
  · next hslash =>
    dsimp only
    rw [if_neg hslash]
    cases hparse : Url.parse destination with
    | error fault =>
      rw [hparse] at h
      cases h
    | ok found =>
      rw [hparse] at h
      cases h
      rfl

theorem anchored_of_absolute {here : Url → Prop} (h : absolute? destination = some url) (hurl : here url) :
    Anchored here destination :=
  ⟨url, hurl, fun base _ => resolve_of_absolute h base⟩

theorem anchored_of_isRooted (hfile : Url.isFileScheme site.scheme = false)
    (h : Url.isRooted destination = true) : Anchored site.OnSite destination := by
  refine ⟨site.rooted (Url.clean destination.toList), .rooted _, fun base hbase => ?_⟩
  obtain ⟨hslash, -⟩ := Bool.and_eq_true_iff.mp h
  unfold resolveEndpoint
  dsimp only
  rw [if_pos hslash, Url.join_of_isRooted hfile hbase h]

end endpoints

/-- A session with the destinations of its history, newest first, and the URLs they led to when they were
recorded. -/
structure Trip (σ : Type) where
  session : Session σ
  trail : List (String × Url)

/-- What a call records. -/
def Travel.record (s : Session σ) (trail : List (String × Url)) : Travel → List (String × Url)
  | .visit destination =>
    match resolveEndpoint s.url destination with
    | .ok url => ((destination, url) :: trail).take s.history.limit
    | .error _ => trail
  | _ => trail

/-- All of the calls succeed. -/
def Succeeds : List Travel → Session σ → Prop
  | [], _ => True
  | call :: calls, s => (call.run transport s).1.isOk ∧ Succeeds calls (call.run transport s).2

namespace Trip

def start (s : Session σ) : Trip σ where
  session := s
  trail := []

def after (p : Trip σ) (call : Travel) : Trip σ where
  session := (call.run transport p.session).2
  trail := call.record p.session p.trail

def afterAll (p : Trip σ) (calls : List Travel) : Trip σ :=
  calls.foldl (after transport) p

/-- Where the history stands. -/
def current? (p : Trip σ) : Option (String × Url) :=
  p.trail[p.session.history.offset]?

/-- The session is where the history says. -/
def Kept (p : Trip σ) : Prop :=
  ∀ entry, p.current? = some entry → p.session.url = entry.2

/-- The call leads to where the history says, unless it makes the history say so. -/
def LeadsBack (p : Trip σ) : Travel → Prop
  | .visit _ => True
  | call => ∀ destination entry, call.destination? p.session = some destination →
      p.trail[(call.move p.session.history).offset]? = some entry →
        resolveEndpoint p.session.url destination = .ok entry.2

/-- The trail has the destinations of the history. -/
structure Sound (p : Trip σ) : Prop where
  entries : p.session.history.entries = (p.trail.map Prod.fst).reverse
  offset : p.trail = [] ∨ p.session.history.offset < p.trail.length
  limit : 0 < p.session.history.limit

variable {p : Trip σ} {call : Travel}

theorem Sound.current? (hp : p.Sound) : p.current?.map Prod.fst = p.session.history.current? := by
  have hlength : p.session.history.entries.length = p.trail.length := by simp [hp.entries]
  rw [Trip.current?, ← List.getElem?_map, History.current?, hlength, hp.entries]
  split
  · next hlt =>
    rw [List.getElem?_reverse (by simp; omega)]
    congr 1
    simp
    omega
  · next hge =>
    rw [List.getElem?_eq_none (by simpa using Nat.le_of_not_lt hge)]

theorem run_of_ok (hok : (call.run transport s).1.isOk) :
    (call.run transport s).2.history = call.move s.history ∧
      ∀ destination, call.destination? s = some destination →
        resolveEndpoint s.url destination = .ok (call.run transport s).2.url := by
  cases hd : call.destination? s with
  | none =>
    rw [call.run_eq, hd]
    exact ⟨rfl, nofun⟩
  | some destination =>
    have hvisit := shows_visit transport destination { s with history := call.move s.history }
    rw [call.run_of_destination transport hd] at hok ⊢
    generalize visit transport destination { s with history := call.move s.history } = r at hok hvisit ⊢
    obtain ⟨result, t⟩ := r
    cases result with
    | error e => cases hok
    | ok =>
      refine ⟨hvisit.2, ?_⟩
      rintro _ ⟨⟩
      exact hvisit.1

theorem resolved_of_ok {destination : String}
    (hok : ((Travel.visit destination).run transport s).1.isOk) :
    resolveEndpoint s.url destination = .ok ((Travel.visit destination).run transport s).2.url :=
  (run_of_ok transport hok).2 destination rfl

/-- After a visit the trail begins with it. -/
theorem record_visit {destination : String} {trail : List (String × Url)}
    (hok : ((Travel.visit destination).run transport s).1.isOk) :
    (Travel.visit destination).record s trail =
      ((destination, ((Travel.visit destination).run transport s).2.url) :: trail).take s.history.limit := by
  rw [Travel.record, resolved_of_ok transport hok]

theorem move_frame (hcall : ∀ destination, call ≠ .visit destination) (h : History) :
    (call.move h).entries = h.entries ∧ (call.move h).limit = h.limit ∧
      (h.offset < h.entries.length → (call.move h).offset < h.entries.length) := by
  cases call with
  | visit destination => exact absurd rfl (hcall destination)
  | back =>
    simp only [Travel.move, History.back]
    split
    · exact ⟨rfl, rfl, id⟩
    · refine ⟨rfl, rfl, fun hlt => ?_⟩
      dsimp only
      omega
  | forward =>
    simp only [Travel.move, History.forward]
    split
    · exact ⟨rfl, rfl, id⟩
    · refine ⟨rfl, rfl, fun hlt => ?_⟩
      dsimp only
      omega
  | refresh => exact ⟨rfl, rfl, id⟩

theorem after_of_ne (hcall : ∀ destination, call ≠ .visit destination) :
    (p.after transport call).trail = p.trail := by
  cases call with
  | visit destination => exact absurd rfl (hcall destination)
  | _ => rfl

theorem Sound.after_visit {destination : String} (hp : p.Sound)
    (hok : ((Travel.visit destination).run transport p.session).1.isOk) :
    (p.after transport (.visit destination)).Sound := by
  obtain ⟨hhistory, -⟩ := run_of_ok transport hok
  have htrail : (p.after transport (.visit destination)).trail = _ := record_visit transport hok
  have hsession : (p.after transport (.visit destination)).session.history =
      p.session.history.push destination := hhistory
  have hlimit := hp.limit
  refine ⟨?_, .inr ?_, ?_⟩
  · rw [hsession, htrail, History.push, hp.entries, List.map_take, List.reverse_take]
    simp
  · rw [hsession, htrail]
    simpa [History.push, Nat.lt_min] using hlimit
  · rw [hsession]
    exact hlimit

theorem Sound.after (hp : p.Sound) (hok : (call.run transport p.session).1.isOk) :
    (p.after transport call).Sound := by
  by_cases hcall : ∀ destination, call ≠ .visit destination
  · obtain ⟨hhistory, -⟩ := run_of_ok transport hok
    have hsession : (p.after transport call).session.history = call.move p.session.history := hhistory
    obtain ⟨hentries, hlimit, hoffset⟩ := move_frame hcall p.session.history
    have hlength : p.session.history.entries.length = p.trail.length := by simp [hp.entries]
    refine ⟨?_, ?_, ?_⟩
    · rw [hsession, hentries, after_of_ne transport hcall]
      exact hp.entries
    · rw [hsession, after_of_ne transport hcall, ← hlength]
      exact hp.offset.imp_right fun hlt => hoffset (hlength ▸ hlt)
    · rw [hsession, hlimit]
      exact hp.limit
  · obtain ⟨destination, rfl⟩ : ∃ destination, call = .visit destination := by simpa using hcall
    exact hp.after_visit transport hok

/-- A visit is recorded as what it leads to. -/
theorem kept_after_visit {destination : String} (hp : p.Sound)
    (hok : ((Travel.visit destination).run transport p.session).1.isOk) :
    (p.after transport (.visit destination)).Kept := by
  obtain ⟨hhistory, -⟩ := run_of_ok transport hok
  have htrail : (p.after transport (.visit destination)).trail = _ := record_visit transport hok
  have hoffset : (p.after transport (.visit destination)).session.history.offset = 0 := by
    rw [show (p.after transport (.visit destination)).session.history = _ from hhistory]
    rfl
  intro entry hentry
  rw [current?, hoffset, htrail, List.getElem?_take_of_lt hp.limit] at hentry
  cases hentry
  rfl

/-- Any other call leads to a page that the trail knows, if it leads there. -/
theorem kept_after_iff (hp : p.Sound) (hok : (call.run transport p.session).1.isOk) :
    (p.after transport call).Kept ↔ p.LeadsBack call := by
  by_cases hcall : ∀ destination, call ≠ .visit destination
  · obtain ⟨hhistory, hresolve⟩ := run_of_ok transport hok
    have hsession : (p.after transport call).session.history = call.move p.session.history := hhistory
    have hcurrent : (p.after transport call).current? = p.trail[(call.move p.session.history).offset]? := by
      rw [current?, hsession, after_of_ne transport hcall]
    have hleads : p.LeadsBack call ↔ ∀ destination entry, call.destination? p.session = some destination →
        p.trail[(call.move p.session.history).offset]? = some entry →
          resolveEndpoint p.session.url destination = .ok entry.2 := by
      cases call with
      | visit destination => exact absurd rfl (hcall destination)
      | _ => rfl
    rw [hleads]
    constructor
    · intro hkept destination entry hd hentry
      rw [hresolve destination hd]
      exact congrArg _ (hkept entry (hcurrent.trans hentry))
    · intro hback entry hentry
      cases hd : call.destination? p.session with
      | some destination =>
        have hurl := hback destination entry hd (hcurrent.symm.trans hentry)
        exact Except.ok.inj ((hresolve destination hd).symm.trans hurl)
      | none =>
        -- a call that leads nowhere has no entry to go to
        have hnone : (call.move p.session.history).current? = none := by
          cases call with
          | visit destination => exact absurd rfl (hcall destination)
          | back => exact hd
          | forward => exact hd
          | refresh => cases hd
        have hmap := (hp.after transport hok).current?
        rw [hsession, hnone, hentry] at hmap
        cases hmap
  · obtain ⟨destination, rfl⟩ : ∃ destination, call = .visit destination := by simpa using hcall
    exact iff_of_true (kept_after_visit transport hp hok) trivial

section runs

variable {calls : List Travel}

theorem sound_of_start {config : Config} {network : σ} (h : Session.start config network = .ok s) :
    (start s).Sound := by
  obtain ⟨url, -, rfl⟩ := Session.start_eq_ok h
  exact ⟨rfl, .inl rfl, Nat.lt_of_lt_of_le Nat.zero_lt_one (Nat.le_max_right _ 1)⟩

/-- What a run has come to after some of its calls, and what the next call makes of it. -/
theorem sound_prefix (hp : p.Sound) (hok : Succeeds transport calls p.session) (n : Nat) :
    (p.afterAll transport (calls.take n)).Sound ∧ ∀ call, calls[n]? = some call →
      (call.run transport (p.afterAll transport (calls.take n)).session).1.isOk ∧
        p.afterAll transport (calls.take (n + 1)) =
          (p.afterAll transport (calls.take n)).after transport call := by
  induction calls generalizing p n with
  | nil => exact ⟨by simpa [afterAll] using hp, nofun⟩
  | cons first calls ih =>
    obtain ⟨hfirst, hrest⟩ := hok
    cases n with
    | zero =>
      refine ⟨hp, ?_⟩
      rintro call ⟨⟩
      exact ⟨hfirst, rfl⟩
    | succ n =>
      have hnext := ih (hp.after transport hfirst) hrest n
      exact hnext

/-- The session and the entries of the trail are among some URLs, and from all of these the entries lead
to where they led. -/
structure Among (here : Url → Prop) (p : Trip σ) : Prop where
  url : here p.session.url
  entry : ∀ entry ∈ p.trail, here entry.2 ∧ ∀ base, here base → resolveEndpoint base entry.1 = .ok entry.2

/-- A call to a page that is fixed among some URLs, or back to where the session has been. -/
def Certain (here : Url → Prop) (p : Trip σ) : Travel → Prop
  | .visit destination => Anchored here destination
  | .back => True
  | .forward => True
  | .refresh => resolveEndpoint p.session.url p.session.url.text = .ok p.session.url

variable {here : Url → Prop}

theorem Among.visit {destination : String} (h : p.Among here)
    (hcertain : p.Certain here (.visit destination))
    (hok : ((Travel.visit destination).run transport p.session).1.isOk) :
    (p.after transport (.visit destination)).Among here := by
  obtain ⟨url, hurl, hall⟩ := hcertain
  have hresolved := resolved_of_ok transport hok
  have htrail : (p.after transport (.visit destination)).trail = _ := record_visit transport hok
  have hfound : ((Travel.visit destination).run transport p.session).2.url = url :=
    Except.ok.inj (hresolved.symm.trans (hall p.session.url h.url))
  refine ⟨hfound ▸ hurl, fun entry hentry => ?_⟩
  rw [htrail] at hentry
  rcases List.mem_cons.mp (List.mem_of_mem_take hentry) with rfl | hold
  · exact hfound ▸ ⟨hurl, hall⟩
  · exact h.entry entry hold

/-- A step through the history leads to an entry of the trail. -/
theorem Among.revisit (hp : p.Sound) (h : p.Among here) (hok : (call.run transport p.session).1.isOk)
    (hcall : call = .back ∨ call = .forward) :
    p.LeadsBack call ∧ (p.after transport call).Among here := by
  have hvisit : ∀ destination, call ≠ .visit destination := by
    rintro destination rfl
    rcases hcall with h | h <;> cases h
  obtain ⟨hhistory, hresolve⟩ := run_of_ok transport hok
  have hcurrent := (hp.after transport hok).current?
  have hdestination : call.destination? p.session = (call.move p.session.history).current? := by
    rcases hcall with rfl | rfl <;> rfl
  have hentry : ∀ destination, call.destination? p.session = some destination →
      ∃ entry, p.trail[(call.move p.session.history).offset]? = some entry ∧ entry.1 = destination := by
    intro destination hd
    rw [show (p.after transport call).session.history = _ from hhistory, ← hdestination, hd] at hcurrent
    obtain ⟨entry, hentry, rfl⟩ := Option.map_eq_some_iff.mp hcurrent
    rw [Trip.current?, show (p.after transport call).session.history = _ from hhistory,
      after_of_ne transport hvisit] at hentry
    exact ⟨entry, hentry, rfl⟩
  have hleads : ∀ destination entry, call.destination? p.session = some destination →
      p.trail[(call.move p.session.history).offset]? = some entry →
        resolveEndpoint p.session.url destination = .ok entry.2 := by
    intro destination entry hd hat
    obtain ⟨other, hother, rfl⟩ := hentry destination hd
    obtain rfl : other = entry := Option.some.inj (hother.symm.trans hat)
    exact (h.entry other (List.mem_of_getElem? hat)).2 p.session.url h.url
  refine ⟨by rcases hcall with rfl | rfl <;> exact hleads, ?_, ?_⟩
  · cases hd : call.destination? p.session with
    | none =>
      have hurl : (p.after transport call).session.url = p.session.url := by
        rw [Trip.after, call.run_eq, hd]
      rw [hurl]
      exact h.url
    | some destination =>
      obtain ⟨entry, hat, -⟩ := hentry destination hd
      have hurl : (p.after transport call).session.url = entry.2 :=
        Except.ok.inj ((hresolve destination hd).symm.trans (hleads destination entry hd hat))
      rw [hurl]
      exact (h.entry entry (List.mem_of_getElem? hat)).1
  · rw [after_of_ne transport hvisit]
    exact h.entry

theorem Among.refresh (h : p.Among here) (hkept : p.Kept) (hcertain : p.Certain here .refresh)
    (hok : (Travel.refresh.run transport p.session).1.isOk) :
    p.LeadsBack .refresh ∧ (p.after transport .refresh).Among here := by
  obtain ⟨-, hresolve⟩ := run_of_ok transport hok
  have hurl : (p.after transport .refresh).session.url = p.session.url :=
    Except.ok.inj ((hresolve _ rfl).symm.trans hcertain)
  refine ⟨?_, hurl ▸ h.url, h.entry⟩
  rintro destination entry ⟨⟩ hentry
  rw [← hkept entry hentry]
  exact hcertain

theorem Among.after (hp : p.Sound) (h : p.Among here) (hkept : p.Kept) (hcertain : p.Certain here call)
    (hok : (call.run transport p.session).1.isOk) :
    (p.after transport call).Kept ∧ (p.after transport call).Among here := by
  rw [kept_after_iff transport hp hok]
  cases call with
  | visit destination => exact ⟨trivial, h.visit transport hcertain hok⟩
  | back => exact h.revisit transport hp hok (.inl rfl)
  | forward => exact h.revisit transport hp hok (.inr rfl)
  | refresh => exact h.refresh transport hkept hcertain hok

end runs

end Trip

/-- All destinations have a URL by themselves, or all are of the site of `site`. -/
def OnCourse (site : Url) (calls : List Travel) : Prop :=
  (∀ destination, .visit destination ∈ calls → (absolute? destination).isSome) ∨
    ((∃ segments, site.path = .segments segments) ∧ Url.isFileScheme site.scheme = false ∧
      ∀ destination, .visit destination ∈ calls →
        Url.isRooted destination ∨ ∃ url, absolute? destination = some url ∧ site.OnSite url)

theorem OnCourse.anchored {site : Url} {calls : List Travel} (h : OnCourse site calls) :
    ∃ here : Url → Prop, here site ∧
      ∀ destination, .visit destination ∈ calls → Anchored here destination := by
  rcases h with habsolute | ⟨hpath, hfile, hsite⟩
  · refine ⟨fun _ => True, trivial, fun destination hmem => ?_⟩
    obtain ⟨url, hurl⟩ := Option.isSome_iff_exists.mp (habsolute destination hmem)
    exact anchored_of_absolute hurl trivial
  · refine ⟨site.OnSite, ⟨rfl, rfl, rfl, rfl, rfl, hpath⟩, fun destination hmem => ?_⟩
    rcases hsite destination hmem with hrooted | ⟨url, hurl, hon⟩
    · exact anchored_of_isRooted hfile hrooted
    · exact anchored_of_absolute hurl hon

/-- In a run of calls that all succeed, the session is after each call where its history says exactly if
the call leads there from where the session was; that is so at all times if the destinations that are
visited are absolute, or on one site with none that is relative to a page, and the URLs that are
refreshed read back. -/
theorem trail_leads_back (config : Config) (network : σ) (first : Session σ)
    (hstart : start config network = .ok first) (calls : List Travel)
    (hok : Succeeds transport calls first) :
    let trip := fun n => (Trip.start first).afterAll transport (calls.take n)
    (∀ n, (trip n).current?.map Prod.fst = (trip n).session.history.current?) ∧
    (∀ n call, calls[n]? = some call → ((trip (n + 1)).Kept ↔ (trip n).LeadsBack call)) ∧
    (OnCourse first.url calls →
      (∀ n, calls[n]? = some .refresh → resolveEndpoint (trip n).session.url (trip n).session.url.text =
        .ok (trip n).session.url) →
      ∀ n, (trip n).Kept) := by
  intro trip
  have hsound := Trip.sound_of_start hstart
  have hsteps := fun n => Trip.sound_prefix transport hsound hok n
  refine ⟨fun n => (hsteps n).1.current?, fun n call hcall => ?_, fun hcourse hrefresh n => ?_⟩
  · obtain ⟨hn, hnext⟩ := hsteps n
    obtain ⟨hran, hafter⟩ := hnext call hcall
    dsimp only [trip]
    rw [hafter]
    exact Trip.kept_after_iff transport hn hran
  · obtain ⟨here, hfirst, hanchored⟩ := hcourse.anchored
    have hall : ∀ n, (trip n).Kept ∧ (trip n).Among here := by
      intro n
      induction n with
      | zero => exact ⟨nofun, hfirst, nofun⟩
      | succ n ih =>
        cases hcall : calls[n]? with
        | none =>
          have hlength : calls.length ≤ n := List.getElem?_eq_none_iff.mp hcall
          have hsame : trip (n + 1) = trip n := by
            simp only [trip, List.take_of_length_le hlength, List.take_of_length_le (Nat.le_succ_of_le hlength)]
          rwa [hsame]
        | some call =>
          obtain ⟨hn, hnext⟩ := hsteps n
          obtain ⟨hran, hafter⟩ := hnext call hcall
          have hcertain : Trip.Certain here (trip n) call := by
            cases call with
            | visit destination => exact hanchored destination (List.mem_of_getElem? hcall)
            | back => trivial
            | forward => trivial
            | refresh => exact hrefresh n hcall
          dsimp only [trip]
          rw [hafter]
          exact ih.2.after transport hn ih.1 hcertain hran
    exact (hall n).1

section examples

instance decidableSucceeds : (calls : List Travel) → (s : Session σ) → Decidable (Succeeds transport calls s)
  | [], _ => .isTrue trivial
  | call :: calls, s =>
    have := decidableSucceeds calls (call.run transport s).2
    inferInstanceAs (Decidable (_ ∧ _))

/-- The destination of a link on one page, seen from another page, is not where the link led: on the way
back from the home page the session is where it has never been. -/
theorem relative_entry_strays : ∃ first, start {} () = .ok first ∧
    let calm := server fun _ => false
    let calls := [.visit "/docs/intro", .visit "guide/start", .visit "/home", .back]
    let trip := (Trip.start first).afterAll calm calls
    Succeeds calm calls first ∧ trip.current?.map Prod.fst = some "guide/start" ∧
      trip.current?.map (·.2.path.render) = some "/docs/guide/start".toList ∧
      trip.session.url.path.render = "/guide/start".toList := by
  exact exists_start (by decide +kernel)

/-- A way there and back on one site. -/
theorem rooted_entries_lead_back : ∃ first, start {} () = .ok first ∧
    let calm := server fun _ => false
    let calls := [.visit "/docs/intro", .visit "/home?a=b", .back, .back, .forward]
    Succeeds calm calls first ∧ OnCourse first.url calls ∧
      (∀ n, ((Trip.start first).afterAll calm (calls.take n)).current?.map Prod.fst =
        ((Trip.start first).afterAll calm (calls.take n)).session.history.current?) ∧
      ∀ n, ((Trip.start first).afterAll calm (calls.take n)).Kept := by
  obtain ⟨first, hstart, hok, hpath, hfile⟩ := exists_start (p := fun first =>
    Succeeds (server fun _ => false)
      [.visit "/docs/intro", .visit "/home?a=b", .back, .back, .forward] first ∧
    first.url.path = .segments [[]] ∧ Url.isFileScheme first.url.scheme = false) (by decide +kernel)
  have hcourse : OnCourse first.url
      [.visit "/docs/intro", .visit "/home?a=b", .back, .back, .forward] := by
    refine .inr ⟨⟨_, hpath⟩, hfile, fun destination hmem => .inl ?_⟩
    simp only [List.mem_cons, Travel.visit.injEq, reduceCtorEq, List.not_mem_nil, or_false] at hmem
    rcases hmem with rfl | rfl <;> decide +kernel
  obtain ⟨hcurrent, -, hkept⟩ := trail_leads_back (server fun _ => false) {} () first hstart _ hok
  refine ⟨first, hstart, hok, hcourse, hcurrent, hkept hcourse fun n hn => ?_⟩
  have hmem := List.mem_of_getElem? hn
  simp at hmem

end examples

end Session

end Hypermedia
