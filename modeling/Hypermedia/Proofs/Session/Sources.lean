import Hypermedia.Proofs.Session.Inlining

/-! What is fetched for a document: each source once, that of an element before those below it, and none is
left. -/
namespace Hypermedia.Session

open Node (Each Distinct)

/-- What was fetched, the oldest first: from where, and what was there. -/
abbrev Fetched := List (String × String)

variable {σ : Type}

/-- A server that takes note of what is fetched from it. -/
def Fetch.noting (fetch : Fetch σ) : Fetch (σ × Fetched) := fun src s =>
  match fetch src s.1 with
  | (.ok body, t) => (.ok body, t, s.2 ++ [(src, body)])
  | (.error e, t) => (.error e, t, s.2)

/-- What inlining a document fetches. -/
def fetchedFor (fetch : Fetch σ) (budget : Nat) (n : Node) (s : σ) : Fetched :=
  (inlineSources fetch.noting budget n (s, [])).state.2

/-- What a library is read from whose root leaves no `src` for the element that refers to the library. -/
def LeavesNoSource (body : String) : Prop :=
  ∀ root, Markup.parse body = .ok root → isSourceable root.tag ∨ root.attribute? "src" = none

mutual

/-- An element becomes another by what is fetched for it, its own source first: a style or a script takes its
body as its text, and a library is inlined itself before it joins the element that refers to it. Then come
the sources of the children that the element had. -/
inductive Inlines : Node → Fetched → Node → Prop
  | settled {n : Node} {more : Fetched} {cs : List Node} (here : Settled n.tag n.attributes)
      (below : InlinesAll n.children more cs) : Inlines n more (n.withChildren cs)
  | body {n : Node} {src body : String} {more : Fetched} {cs : List Node}
      (htag : n.tag = "style" ∨ n.tag = "script") (hsrc : n.attribute? "src" = some src)
      (below : InlinesAll n.children more cs) :
      Inlines n ((src, body) :: more) (((n.removeAttribute "src").2.withText (some body)).withChildren cs)
  | library {n root library : Node} {src body : String} {inner more : Fetched} {cs : List Node}
      (htag : n.tag = "complib") (hsrc : n.attribute? "src" = some src)
      (hroot : Markup.parse body = .ok root) (inside : Inlines root inner library)
      (below : InlinesAll n.children more cs) :
      Inlines n ((src, body) :: (inner ++ more))
        (joinLibrary ((n.removeAttribute "src").2.withChildren cs) library)

inductive InlinesAll : List Node → Fetched → List Node → Prop
  | nil : InlinesAll [] [] []
  | cons {n v : Node} {ns vs : List Node} {first more : Fetched} (head : Inlines n first v)
      (rest : InlinesAll ns more vs) : InlinesAll (n :: ns) (first ++ more) (v :: vs)

end

section settled

mutual

/-- Where no library leaves a `src`, no element that is inlined has one left. -/
theorem Inlines.settles {n v : Node} {log : Fetched} (h : Inlines n log v) (hn : n.Each Distinct)
    (hlog : ∀ entry ∈ log, LeavesNoSource entry.2) :
    v.Each Settled ∧ (isSourceable n.tag ∨ n.attribute? "src" = none → v.attribute? "src" = none) := by
  obtain ⟨hroot, hchildren⟩ := Each.iff_root_and_children.mp hn
  have hgone : (n.removeAttribute "src").2.attribute? "src" = none := Node.lookup_dropAttribute hroot
  rw [Each.iff_root_and_children]
  match h with
  | .settled here below =>
    exact ⟨⟨here, below.settles hchildren hlog⟩, fun hsrc => hsrc.elim here id⟩
  | .body _ _ below =>
    obtain ⟨-, hmore⟩ := List.forall_mem_cons.mp hlog
    exact ⟨⟨fun _ => hgone, below.settles hchildren hmore⟩, fun _ => hgone⟩
  | @Inlines.library _ root library _ _ _ _ cs _ _ hparse inside below =>
    obtain ⟨hbody, hinside⟩ := List.forall_mem_cons.mp hlog
    obtain ⟨hinner, hmore⟩ := List.forall_mem_append.mp hinside
    obtain ⟨hlibrary, hsrc⟩ := inside.settles (Markup.distinct_of_parse hparse) hinner
    have hjoined : (joinLibrary ((n.removeAttribute "src").2.withChildren cs) library).attribute? "src" =
        none := Node.attribute?_setAttributes hgone (hsrc (hbody root hparse))
    refine ⟨⟨fun _ => hjoined, ?_⟩, fun _ => hjoined⟩
    rw [joinLibrary, Node.children_setAttributes]
    refine List.forall_mem_append.mpr ⟨below.settles hchildren hmore, ?_⟩
    exact (Each.iff_root_and_children.mp hlibrary).2

theorem InlinesAll.settles {ns vs : List Node} {log : Fetched} (h : InlinesAll ns log vs)
    (hns : ∀ n ∈ ns, n.Each Distinct) (hlog : ∀ entry ∈ log, LeavesNoSource entry.2) :
    ∀ v ∈ vs, v.Each Settled := by
  match h with
  | .nil => exact List.forall_mem_nil _
  | .cons head rest =>
    obtain ⟨hn, hns⟩ := List.forall_mem_cons.mp hns
    obtain ⟨hfirst, hmore⟩ := List.forall_mem_append.mp hlog
    exact List.forall_mem_cons.mpr ⟨(head.settles hn hfirst).1, rest.settles hns hmore⟩

end

end settled

variable {fetch : Fetch σ} {n : Node} {s : σ} {depth budget : Nat}

section noting

/-- The same with a note of what was fetched. -/
def Inlined.noted {α : Type} (r : Inlined σ α) (log : Fetched) : Inlined (σ × Fetched) α :=
  ⟨r.outcome, r.value, r.state, log⟩

/-- A step that takes notes inlines what it would without, and notes down something more. -/
def Notes {α β : Type} (noting : α → σ × Fetched → Inlined (σ × Fetched) β) (plain : α → σ → Inlined σ β) :
    Prop :=
  ∀ a s, ∃ more, ∀ log, noting a (s, log) = (plain a s).noted (log ++ more)

variable {noting : Node → σ × Fetched → Inlined (σ × Fetched) Node} {inlineOne : Node → σ → Inlined σ Node}

theorem exists_noted_self {α : Type} (outcome : Except InlineStop Unit) (value : α) (s : σ) :
    ∃ more, ∀ log, (⟨outcome, value, s, log⟩ : Inlined (σ × Fetched) α) =
      (⟨outcome, value, s⟩ : Inlined σ α).noted (log ++ more) :=
  ⟨[], fun log => by rw [List.append_nil]; rfl⟩

theorem notes_inlineAll (h : Notes noting inlineOne) : Notes (inlineAll noting) (inlineAll inlineOne) := by
  intro ns
  induction ns with
  | nil => exact fun s => exists_noted_self _ _ _
  | cons n ns ih =>
    intro s
    obtain ⟨first, hfirst⟩ := h n s
    obtain ⟨more, hmore⟩ := ih (inlineOne n s).state
    simp only [inlineAll, hfirst, Inlined.noted]
    cases (inlineOne n s).outcome with
    | error stop => exact ⟨first, fun log => rfl⟩
    | ok =>
      refine ⟨first ++ more, fun log => ?_⟩
      simp only [hmore, Inlined.noted, List.append_assoc]

theorem notes_inlineLibrary (h : Notes noting inlineOne) (src body : String) :
    Notes (inlineLibrary noting depth src body) (inlineLibrary inlineOne depth src body) := by
  intro n s
  unfold inlineLibrary
  split
  next => exact exists_noted_self _ _ _
  split
  next => exact exists_noted_self _ _ _
  next library _ =>
    obtain ⟨more, hmore⟩ := h library s
    refine ⟨more, fun log => ?_⟩
    simp only [hmore, Inlined.noted]
    cases (inlineOne library s).outcome <;> rfl

theorem notes_inlineSource (fetch : Fetch σ) (depth : Nat) (h : Notes noting inlineOne) :
    Notes (inlineSource fetch.noting noting depth) (inlineSource fetch inlineOne depth) := by
  intro n s
  unfold inlineSource
  split
  next => exact exists_noted_self _ _ _
  next src _ =>
    dsimp only [Fetch.noting]
    cases fetch src s with
    | mk answer t =>
      cases answer with
      | error e => exact exists_noted_self _ _ _
      | ok body =>
        dsimp only
        split
        next =>
          obtain ⟨more, hmore⟩ := notes_inlineLibrary h src body (n.removeAttribute "src").2 t
          exact ⟨(src, body) :: more, fun log => by rw [hmore, List.append_assoc]; rfl⟩
        next => exact ⟨[(src, body)], fun log => rfl⟩

theorem notes_inlineWithin (fetch : Fetch σ) (budget depth : Nat) :
    Notes (inlineWithin fetch.noting budget depth) (inlineWithin fetch budget depth) := by
  induction budget generalizing depth with
  | zero => exact fun n s => exists_noted_self _ _ _
  | succ budget ih =>
    intro n s
    obtain ⟨own, hown⟩ := notes_inlineSource fetch depth (ih (depth + 1)) n s
    simp only [inlineWithin, hown, Inlined.noted]
    cases (inlineSource fetch (inlineWithin fetch budget (depth + 1)) depth n s).outcome with
    | error stop => exact ⟨own, fun log => rfl⟩
    | ok =>
      obtain ⟨more, hmore⟩ := notes_inlineAll (ih depth)
        (inlineSource fetch (inlineWithin fetch budget (depth + 1)) depth n s).value.children
        (inlineSource fetch (inlineWithin fetch budget (depth + 1)) depth n s).state
      refine ⟨own ++ more, fun log => ?_⟩
      simp only [hmore, Inlined.noted, List.append_assoc]

end noting

section cases

/-! What has happened where inlining succeeds. -/

variable {inlineOne : Node → σ → Inlined σ Node} {ns added : List Node}

theorem inlineLibrary_cases {src body : String}
    (hok : (inlineLibrary inlineOne depth src body n s).outcome = .ok ()) :
    ∃ root, Markup.parse body = .ok root ∧ (inlineOne root s).outcome = .ok () ∧
      inlineLibrary inlineOne depth src body n s =
        ⟨.ok (), joinLibrary n (inlineOne root s).value, (inlineOne root s).state⟩ := by
  unfold inlineLibrary at hok ⊢
  split_ifs at hok ⊢ with hdepth
  cases hp : Markup.parse body with
  | error fault =>
    rw [hp] at hok
    cases hok
  | ok root =>
    simp only [hp] at hok ⊢
    cases hroot : (inlineOne root s).outcome with
    | error stop =>
      rw [hroot] at hok
      cases hok
    | ok => exact ⟨root, rfl, hroot, rfl⟩

theorem inlineSource_cases (hok : (inlineSource fetch inlineOne depth n s).outcome = .ok ()) :
    (Settled n.tag n.attributes ∧ inlineSource fetch inlineOne depth n s = ⟨.ok (), n, s⟩) ∨
    ∃ src body t, n.attribute? "src" = some src ∧ fetch src s = (.ok body, t) ∧
      ((n.tag = "style" ∨ n.tag = "script") ∧ inlineSource fetch inlineOne depth n s =
          ⟨.ok (), (n.removeAttribute "src").2.withText (some body), t⟩ ∨
        n.tag = "complib" ∧ ∃ root, Markup.parse body = .ok root ∧ (inlineOne root t).outcome = .ok () ∧
          inlineSource fetch inlineOne depth n s = ⟨.ok (),
            joinLibrary (n.removeAttribute "src").2 (inlineOne root t).value, (inlineOne root t).state⟩) := by
  cases hcond : (if isSourceable n.tag then n.attribute? "src" else none) with
  | none =>
    have hsettled : Settled n.tag n.attributes := fun ht => by rwa [if_pos ht] at hcond
    exact .inl ⟨hsettled, inlineSource_of_settled hsettled⟩
  | some src =>
    obtain ⟨ht, hsrc⟩ : isSourceable n.tag ∧ n.attribute? "src" = some src := by
      split_ifs at hcond with ht
      exact ⟨ht, hcond⟩
    unfold inlineSource at hok ⊢
    simp only [hcond] at hok ⊢
    cases hf : fetch src s with
    | mk answer t =>
      rw [hf] at hok
      cases answer with
      | error e => cases hok
      | ok body =>
        refine .inr ⟨src, body, t, hsrc, hf, ?_⟩
        have hsame : (n.removeAttribute "src").2.tag = n.tag := rfl
        dsimp only at hok ⊢
        rw [hsame] at hok ⊢
        by_cases htag : n.tag = "complib"
        · rw [if_pos htag] at hok ⊢
          exact .inr ⟨htag, inlineLibrary_cases hok⟩
        · rw [if_neg htag]
          refine .inl ⟨?_, rfl⟩
          simpa [isSourceable, htag] using ht

theorem inlineWithin_cases (hok : (inlineWithin fetch (budget + 1) depth n s).outcome = .ok ()) :
    ∃ v t, inlineSource fetch (inlineWithin fetch budget (depth + 1)) depth n s = ⟨.ok (), v, t⟩ ∧
      (inlineAll (inlineWithin fetch budget depth) v.children t).outcome = .ok () ∧
      inlineWithin fetch (budget + 1) depth n s =
        ⟨.ok (), v.withChildren (inlineAll (inlineWithin fetch budget depth) v.children t).value,
          (inlineAll (inlineWithin fetch budget depth) v.children t).state⟩ := by
  rw [inlineWithin] at hok ⊢
  cases hs : inlineSource fetch (inlineWithin fetch budget (depth + 1)) depth n s with
  | mk outcome v t =>
    rw [hs] at hok
    cases outcome with
    | error stop => cases hok
    | ok =>
      dsimp only at hok ⊢
      exact ⟨v, t, rfl, hok, by rw [hok]⟩

theorem inlineAll_append_cases (hok : (inlineAll inlineOne (ns ++ added) s).outcome = .ok ()) :
    let first := inlineAll inlineOne ns s
    let more := inlineAll inlineOne added first.state
    first.outcome = .ok () ∧ more.outcome = .ok () ∧
      inlineAll inlineOne (ns ++ added) s = ⟨.ok (), first.value ++ more.value, more.state⟩ := by
  induction ns generalizing s with
  | nil => exact ⟨rfl, hok, by rw [← hok]; rfl⟩
  | cons n ns ih =>
    rw [List.cons_append, inlineAll] at hok
    simp only [List.cons_append, inlineAll]
    cases hn : (inlineOne n s).outcome with
    | error stop =>
      rw [hn] at hok
      cases hok
    | ok =>
      simp only [hn] at hok ⊢
      obtain ⟨hfirst, hmore, heq⟩ := ih hok
      exact ⟨hfirst, hmore, by rw [heq]; rfl⟩

theorem inlineAll_eq_self (h : ∀ n ∈ ns, ∀ s, (inlineOne n s).outcome = .ok () →
    inlineOne n s = ⟨.ok (), n, s⟩) (hok : (inlineAll inlineOne ns s).outcome = .ok ()) :
    inlineAll inlineOne ns s = ⟨.ok (), ns, s⟩ := by
  induction ns generalizing s with
  | nil => rfl
  | cons n ns ih =>
    rw [List.forall_mem_cons] at h
    rw [inlineAll] at hok ⊢
    cases hn : (inlineOne n s).outcome with
    | error stop =>
      rw [hn] at hok
      cases hok
    | ok =>
      have hfirst := h.1 s hn
      simp only [hfirst] at hok ⊢
      rw [ih h.2 hok]

/-- Where all is settled, nothing is fetched and nothing changes. -/
theorem inlineWithin_eq_self (h : n.Each Settled)
    (hok : (inlineWithin fetch budget depth n s).outcome = .ok ()) :
    inlineWithin fetch budget depth n s = ⟨.ok (), n, s⟩ := by
  induction budget generalizing n s with
  | zero => cases hok
  | succ budget ih =>
    obtain ⟨hroot, hchildren⟩ := Each.iff_root_and_children.mp h
    obtain ⟨v, t, hsource, hall, heq⟩ := inlineWithin_cases hok
    rw [inlineSource_of_settled hroot] at hsource
    cases hsource
    rw [heq, inlineAll_eq_self (fun c hc s => ih (hchildren c hc)) hall]
    cases n
    rfl

end cases

section noted

/-- Where a step that takes notes succeeds, it has noted down what it inlined, unless a library left a
`src`. -/
def NotesDown {α β : Type} (R : α → Fetched → β → Prop)
    (noting : α → σ × Fetched → Inlined (σ × Fetched) β) (a : α) : Prop :=
  ∀ s, (noting a s).outcome = .ok () → (∀ entry ∈ (noting a s).state.2, LeavesNoSource entry.2) →
    ∃ more, (noting a s).state.2 = s.2 ++ more ∧ R a more (noting a s).value

theorem notesDown_inlineAll {noting : Node → σ × Fetched → Inlined (σ × Fetched) Node} {ns : List Node}
    (h : ∀ n ∈ ns, NotesDown Inlines noting n) : NotesDown InlinesAll (inlineAll noting) ns := by
  induction ns with
  | nil => exact fun s _ _ => ⟨[], (List.append_nil _).symm, .nil⟩
  | cons n ns ih =>
    intro s hok hlog
    rw [List.forall_mem_cons] at h
    rw [inlineAll] at hok hlog ⊢
    cases hn : (noting n s).outcome with
    | error stop =>
      rw [hn] at hok
      cases hok
    | ok =>
      simp only [hn] at hok hlog ⊢
      obtain ⟨more, hmore, hrest⟩ := ih h.2 (noting n s).state hok hlog
      rw [hmore, List.forall_mem_append] at hlog
      obtain ⟨first, hfirst, hone⟩ := h.1 s hn hlog.1
      exact ⟨first ++ more, by rw [hmore, hfirst, List.append_assoc], .cons hone hrest⟩

theorem eq_of_noting {src body : String} {s t : σ × Fetched}
    (h : fetch.noting src s = (.ok body, t)) : t.2 = s.2 ++ [(src, body)] := by
  unfold Fetch.noting at h
  split at h
  · cases h
    rfl
  · cases h

theorem withChildren_joinLibrary {library : Node} {cs : List Node} :
    (joinLibrary n library).withChildren (cs ++ library.children) =
      joinLibrary (n.withChildren cs) library := by
  unfold joinLibrary
  rw [Node.withChildren_setAttributes]
  rfl

/-- The children of a library that has been inlined are come to again, and have nothing left to fetch. -/
theorem notesDown_added {ns added : List Node} {s : σ × Fetched}
    (hns : NotesDown InlinesAll (inlineAll (inlineWithin fetch.noting budget depth)) ns)
    (hadded : (∀ entry ∈ s.2, LeavesNoSource entry.2) → ∀ c ∈ added, c.Each Settled)
    (hok : (inlineAll (inlineWithin fetch.noting budget depth) (ns ++ added) s).outcome = .ok ())
    (hlog : ∀ entry ∈ (inlineAll (inlineWithin fetch.noting budget depth) (ns ++ added) s).state.2,
      LeavesNoSource entry.2) :
    ∃ more cs t, t.2 = s.2 ++ more ∧ InlinesAll ns more cs ∧
      inlineAll (inlineWithin fetch.noting budget depth) (ns ++ added) s = ⟨.ok (), cs ++ added, t⟩ := by
  obtain ⟨hfirst, hagain, heq⟩ := inlineAll_append_cases hok
  rw [heq] at hlog ⊢
  -- whatever the second walk fetches, the first has noted down less
  obtain ⟨rest, hrest⟩ := notes_inlineAll (notes_inlineWithin fetch budget depth) added
    (inlineAll (inlineWithin fetch.noting budget depth) ns s).state.1
  have hstate := congrArg (·.state.2)
    (hrest (inlineAll (inlineWithin fetch.noting budget depth) ns s).state.2)
  dsimp only [Inlined.noted] at hstate hlog
  rw [hstate, List.forall_mem_append] at hlog
  obtain ⟨more, hmore, hcs⟩ := hns s hfirst hlog.1
  rw [hmore, List.forall_mem_append] at hlog
  have hsettled := hadded hlog.1.1
  rw [inlineAll_eq_self (fun c hc s => inlineWithin_eq_self (hsettled c hc)) hagain]
  exact ⟨more, _, _, hmore, hcs, rfl⟩

theorem notesDown_inlineWithin (fetch : Fetch σ) (budget depth : Nat) (hn : n.Each Distinct) :
    NotesDown Inlines (inlineWithin fetch.noting budget depth) n := by
  induction budget generalizing n depth with
  | zero => exact fun s hok => nomatch hok
  | succ budget ih =>
    intro s hok hlog
    obtain ⟨-, hchildren⟩ := Each.iff_root_and_children.mp hn
    have hbelow := notesDown_inlineAll fun c hc => ih depth (hchildren c hc)
    obtain ⟨v, t, hsource, hall, heq⟩ := inlineWithin_cases hok
    rw [heq] at hlog ⊢
    rcases inlineSource_cases (congrArg Inlined.outcome hsource) with
      ⟨hsettled, hsame⟩ | ⟨src, body, t₁, hsrc, hfetch, ⟨htag, hbody⟩ | ⟨htag, root, hparse, hroot, hjoin⟩⟩
    · cases hsource.symm.trans hsame
      obtain ⟨more, hmore, hcs⟩ := hbelow _ hall hlog
      exact ⟨more, hmore, .settled hsettled hcs⟩
    · cases hsource.symm.trans hbody
      obtain ⟨more, hmore, hcs⟩ := hbelow t hall hlog
      refine ⟨(src, body) :: more, hmore.trans ?_, .body htag hsrc hcs⟩
      rw [eq_of_noting hfetch, List.append_assoc]
      rfl
    · cases hsource.symm.trans hjoin
      have hinner := ih (depth + 1) (Markup.distinct_of_parse hparse) t₁ hroot
      generalize inlineWithin fetch.noting budget (depth + 1) root t₁ = library at hinner hall hlog ⊢
      have hjoined : (joinLibrary (n.removeAttribute "src").2 library.value).children =
          n.children ++ library.value.children := Node.children_setAttributes
      rw [hjoined] at hall hlog ⊢
      have hadded (hleft : ∀ entry ∈ library.state.2, LeavesNoSource entry.2) :
          ∀ c ∈ library.value.children, c.Each Settled := by
        obtain ⟨inner, hstate, hinside⟩ := hinner hleft
        rw [hstate, List.forall_mem_append] at hleft
        have hsettled := (hinside.settles (Markup.distinct_of_parse hparse) hleft.2).1
        exact (Each.iff_root_and_children.mp hsettled).2
      obtain ⟨more, cs, t, ht, hcs, hrun⟩ := notesDown_added hbelow hadded hall hlog
      rw [hrun] at hlog ⊢
      dsimp only at hlog ⊢
      rw [ht, List.forall_mem_append] at hlog
      obtain ⟨inner, hstate, hinside⟩ := hinner hlog.1
      refine ⟨(src, body) :: (inner ++ more), ?_, ?_⟩
      · simp [ht, hstate, eq_of_noting hfetch]
      · rw [withChildren_joinLibrary]
        exact .library htag hsrc hparse hinside hcs

end noted

/-- Taking notes changes nothing else. -/
theorem inlineSources_noting (fetch : Fetch σ) (budget : Nat) (n : Node) (s : σ) :
    inlineSources fetch.noting budget n (s, []) =
      (inlineSources fetch budget n s).noted (fetchedFor fetch budget n s) := by
  obtain ⟨more, hmore⟩ := notes_inlineWithin fetch budget 0 n s
  unfold fetchedFor inlineSources
  rw [hmore]
  rfl

/-- Where inlining succeeds and no library that was fetched leaves a `src`, no element has one left, and what
was fetched is the source of each element, once. -/
theorem inlineSources_once (hn : n.Each Distinct)
    (hok : (inlineSources fetch budget n s).outcome = .ok ())
    (hroots : ∀ entry ∈ fetchedFor fetch budget n s, LeavesNoSource entry.2) :
    (inlineSources fetch budget n s).value.Each Settled ∧
      Inlines n (fetchedFor fetch budget n s) (inlineSources fetch budget n s).value := by
  have hrun := inlineSources_noting fetch budget n s
  have hvalue := congrArg Inlined.value hrun
  obtain ⟨log, hlog, hinlines⟩ := notesDown_inlineWithin fetch budget 0 hn (s, [])
    ((congrArg Inlined.outcome hrun).trans hok) hroots
  cases (hlog : fetchedFor fetch budget n s = [] ++ log)
  change Inlines n _ (inlineSources fetch.noting budget n (s, [])).value at hinlines
  rw [hvalue] at hinlines
  exact ⟨(hinlines.settles hn hroots).1, hinlines⟩

/-- A page with a style and a library, whose script is elsewhere. -/
def leaflet : Node :=
  .mk "page" [] none [.mk "style" [("src", "/s")] none [] none, libraryAt "/l"] none

/-- What that page is made of, as it is fetched. -/
def parts : Fetched :=
  [("/s", "a"), ("/l", "<lib><script src=\"/c\"/></lib>"), ("/c", "b")]

theorem parse_leaflet :
    Markup.parse "<page><style src=\"/s\"/><complib src=\"/l\"/></page>" = .ok leaflet := by
  cbv

theorem leavesNoSource_parts : ∀ entry ∈ parts, LeavesNoSource entry.2 := by
  have hstyle : Markup.parse "a" = .error .noRoot := by cbv
  have hlibrary : Markup.parse "<lib><script src=\"/c\"/></lib>" =
      .ok (.mk "lib" [] none [.mk "script" [("src", "/c")] none [] none] none) := by cbv
  have hscript : Markup.parse "b" = .error .noRoot := by cbv
  simp [parts, LeavesNoSource, hstyle, hlibrary, hscript, Node.attribute?, Node.attributes]

theorem fetchedFor_leaflet : (inlineSources (shelf parts) 4 leaflet 0).outcome = .ok () ∧
    fetchedFor (shelf parts) 4 leaflet 0 = parts := by
  cbv

theorem inlineSources_once_leaflet :
    leaflet.Each Distinct ∧ (inlineSources (shelf parts) 4 leaflet 0).outcome = .ok () ∧
      (∀ entry ∈ fetchedFor (shelf parts) 4 leaflet 0, LeavesNoSource entry.2) ∧
      fetchedFor (shelf parts) 4 leaflet 0 = parts ∧
      (inlineSources (shelf parts) 4 leaflet 0).value.Each Settled ∧
      Inlines leaflet parts (inlineSources (shelf parts) 4 leaflet 0).value := by
  have hn : leaflet.Each Distinct := Markup.distinct_of_parse parse_leaflet
  obtain ⟨hok, hfetched⟩ := fetchedFor_leaflet
  have honce := inlineSources_once hn hok (by rw [hfetched]; exact leavesNoSource_parts)
  rw [hfetched] at honce ⊢
  exact ⟨hn, hok, leavesNoSource_parts, rfl, honce⟩

theorem parse_sourced_root :
    Markup.parse "<lib src=\"/1\"/>" = .ok (.mk "lib" [("src", "/1")] none [] none) := by
  cbv

/-- The `src` of the root of a library is left at the element that referred to the library. -/
theorem source_of_root_left :
    (libraryAt "/0").Each Distinct ∧
      inlineSources (shelf [("/0", "<lib src=\"/1\"/>")]) 2 (libraryAt "/0") 0 =
        ⟨.ok (), libraryAt "/1", 1⟩ ∧ ¬ (libraryAt "/1").Each Settled := by
  refine ⟨?_, ?_, fun h => ?_⟩
  · exact Each.iff_root_and_children.mpr ⟨List.nodup_singleton _, List.forall_mem_nil _⟩
  · rw [inlineSources, inlineWithin_libraryAt rfl parse_sourced_root (by decide)]
    rfl
  · have hroot := (Each.iff_root_and_children.mp h).1 rfl
    exact Option.some_ne_none _ hroot

end Hypermedia.Session
