import Hypermedia.Proofs.Markup.Compiled
import Hypermedia.Proofs.Session.Late
import Hypermedia.Proofs.Session.Placement
import Hypermedia.Proofs.Session.Sound
import Hypermedia.Proofs.Session.Surroundings

/-! Loads that fail: a fragment that cannot be made leaves no trace, but one that is made and has a rule
that cannot be read stays in the tree, owned by nobody, and so do the rules before that one. -/
namespace Hypermedia

/-- Where nothing is left of what was added, each place is as it was. -/
theorem Tree.Regains.get?_eq {base t : Tree} (h : base.Regains t) (x : WidgetId) : t.get? x = base.get? x := by
  by_cases hx : base.Unused x
  · rw [get?_of_size_le hx]
    simpa [contains] using h.gone x hx
  · exact h.sprouts.grown.get?_eq x hx

namespace Style

/-- The first rule whose selector cannot be read: those before it are applied, and it and the rest are
not. -/
theorem RuleBook.applyEntries_of_error {b c : RuleBook} {priority : Int}
    {entries : List (String × Properties)} {e : SelectionError}
    (h : b.applyEntries priority entries = (.error e, c)) : ∃ before selector properties after,
      entries = before ++ (selector, properties) :: after ∧ Selector.parse selector = .error e ∧
      b.applyEntries priority before = (.ok (), c) := by
  induction entries generalizing b with
  | nil => cases h
  | cons entry entries ih =>
    obtain ⟨selector, properties⟩ := entry
    rw [applyEntries] at h
    cases happly : b.apply selector properties priority with
    | error e' =>
      rw [happly] at h
      cases h
      refine ⟨[], selector, properties, entries, rfl, ?_, rfl⟩
      simp only [apply, bind, Except.bind] at happly
      split at happly
      · next hparse =>
        cases happly
        exact hparse
      · cases happly
    | ok next =>
      rw [happly] at h
      obtain ⟨before, selector', properties', after, rfl, hparse, hbefore⟩ := ih h
      refine ⟨(selector, properties) :: before, selector', properties', after, rfl, hparse, ?_⟩
      rw [applyEntries, happly]
      exact hbefore

end Style

namespace Markup

open Effect (Meets)

variable {base : Tree}

/-- A fragment that was added to `base`, and has no place in it. -/
structure Fragment.Unplaced (base : Tree) (fragment : Fragment) (t : Tree) : Prop where
  new : fragment.New base t
  adrift : t.Adrift fragment.root

variable (hb : base.Sane)

include hb

theorem unplaced_buildContent (n : Node) :
    Meets (fun s : Workspace => s.tree = base) (buildContent n)
      (fun fragment t => fragment.Unplaced base t.tree) (fun t => base.Regains t.tree) := by
  intro s hs
  have hmeets := meets_buildContent hb n s hs
  subst hs
  rw [run_buildContent] at hmeets ⊢
  cases hr : buildFragment s.registry s.tree n with
  | mk outcome v =>
    rw [hr] at hmeets
    cases outcome with
    | error e => exact hmeets
    | ok c =>
      obtain ⟨m, t, -, hroots, rfl, -⟩ := roots_of_buildFragment hb hr
      have hnew : s.tree.Unused c.root := Nat.le_of_eq hroots.index.symm
      refine ⟨hmeets, hroots.outgrows.live _ hnew hroots.used, hroots.top, fun hroot => ?_, fun hpin => ?_⟩
      · rw [hroots.outgrows.root] at hroot
        exact hb.root _ hroot hnew
      · rw [hroots.outgrows.pinned] at hpin
        exact Tree.not_unused_of_contains (hb.pins.contains _ hpin) hnew

theorem unplaced_compileFragment (n : Node) :
    Meets (fun s : Workspace => s.tree = base) (compileFragment n)
      (fun fragment t => fragment.Unplaced base t.tree) (fun t => base.Regains t.tree) := by
  refine holds_compileFragment hb (unplaced_buildContent hb) n fun fragment rules t h => ?_
  exact ⟨⟨h.new.sprouts, h.new.root, h.new.used, h.new.widgets⟩, h.adrift⟩

end Markup

namespace Session

open Markup (Fragment)
open Style (RuleBook)

variable {σ : Type} {s t u : Session σ} {e : Error} {r : Network.Response} {fragment : Fragment}
  (transport : Transport σ)

/-- The widgets with their links, the layers, the pending fragments and the rules are as they were. -/
structure Untouched (s t : Session σ) : Prop where
  widgets : ∀ x, t.tree.get? x = s.tree.get? x
  root : t.tree.root = s.tree.root
  pinned : t.tree.pinned = s.tree.pinned
  pending : t.pending = s.pending
  rules : t.rules = s.rules

/-- What a fragment leaves behind that has a rule whose selector cannot be read: itself, as a stray, and
the rules before that one. -/
structure Litters (s t : Session σ) (fragment : Fragment) (e : Error) : Prop where
  unused : s.tree.Unused fragment.root
  stray : t.Stray fragment.root
  widgets : ∀ x, ¬ s.tree.Unused x → t.tree.get? x = s.tree.get? x
  root : t.tree.root = s.tree.root
  pinned : t.tree.pinned = s.tree.pinned
  pending : t.pending = s.pending
  rules : ∃ before selector properties after failure,
    fragment.rules.entries = before ++ (selector, properties) :: after ∧
    Selector.parse selector = .error failure ∧ e = .selection failure ∧
    s.rules.applyEntries Style.documentPriority before = (.ok (), t.rules)

theorem Acquires.untouched (h : s.Acquires s.tree.Regains t) : s.Untouched t := by
  obtain ⟨network, ws, rfl, hregains⟩ := h
  have hpinned := hregains.sprouts.grown.pinned_eq hregains.sprouts.pinned
  exact ⟨hregains.get?_eq, hregains.sprouts.root, hpinned, rfl, rfl⟩

theorem Litters.not_untouched (h : s.Litters t fragment e) : ¬ s.Untouched t := by
  intro hsame
  have hlive : s.tree.contains fragment.root = true := by
    rw [Tree.contains, ← hsame.widgets]
    exact h.stray.adrift.tree.live
  exact Tree.not_unused_of_contains hlive h.unused

/-- A fragment that was compiled and whose rules cannot all be read is left where it is. -/
theorem litters_awaitPlace (hs : s.Intact) (h : s.Acquires (fragment.Unplaced s.tree) u)
    (hawait : awaitPlace fragment u = (.error e, t)) : s.Litters t fragment e := by
  obtain ⟨network, ws, rfl, hunplaced⟩ := h
  have hsprouts := hunplaced.new.sprouts
  rw [awaitPlace_eq] at hawait
  cases happly : s.rules.applyMap fragment.rules Style.documentPriority with
  | mk result rules =>
    simp only [happly] at hawait
    cases result with
    | ok => cases hawait
    | error failure =>
      cases hawait
      have hunused := hunplaced.new.root
      obtain ⟨before, selector, properties, after, hentries, hparse, hbefore⟩ :=
        RuleBook.applyEntries_of_error happly
      exact {
        unused := hunused
        stray := {
          adrift := ⟨hunplaced.adrift, fun o ho hroot => hs.aside o ho _ hroot hunused⟩
          not_loose := fun hloose => hs.loose _ hloose hunused
          not_pending := hs.pending _ hunused }
        widgets := hsprouts.grown.get?_eq
        root := hsprouts.root
        pinned := hsprouts.grown.pinned_eq hsprouts.pinned
        pending := rfl
        rules := ⟨before, selector, properties, after, failure, hentries, hparse, rfl, hbefore⟩ }

/-- A load fails because no fragment can be made, and leaves no trace, or because of a rule. -/
theorem cases_of_failed_load (hs : s.Intact) (h : loadFragment transport r s = (.error e, t)) :
    (∃ u, compileResponse transport r s = (.error e, u)) ∧ s.Untouched t ∨
      ∃ fragment u, compileResponse transport r s = (.ok fragment, u) ∧ s.Litters t fragment e := by
  have hcompiled := holds_compileResponse transport hs.tree (Markup.unplaced_compileFragment hs.tree) r s rfl
  rw [loadFragment_eq, Effect.run_bind] at h
  cases hr : compileResponse transport r s with
  | mk result u =>
    rw [hr] at h hcompiled
    cases result with
    | error e' =>
      cases h
      exact .inl ⟨⟨_, rfl⟩, Acquires.untouched hcompiled⟩
    | ok fragment => exact .inr ⟨fragment, u, rfl, litters_awaitPlace hs hcompiled h⟩

/-- At all times of a session, a load that fails leaves no trace exactly if no fragment was made, or one
whose rules can all be read; else the fragment stays as a stray, and the rules before the first that
cannot be read stay in force. -/
theorem failed_load_untouched_iff (config : Config) (network : σ) (first : Session σ)
    (hstart : start config network = .ok first) (turns : List (Turn σ)) (inbox : List Message) :
    let s := { first.afterAll transport turns with inbox }
    ∀ r e t, loadFragment transport r s = (.error e, t) →
      (s.Untouched t ↔
        ∀ fragment u, compileResponse transport r s = (.ok fragment, u) → fragment.rules.Readable) ∧
      ∀ fragment u, compileResponse transport r s = (.ok fragment, u) → s.Litters t fragment e := by
  intro s r e t h
  have hsound : (first.afterAll transport turns).Sound := sound_afterAll transport (sound_start hstart) turns
  have hmoved : (first.afterAll transport turns).Guards s := guards_of_eq rfl rfl rfl rfl id
  obtain ⟨⟨hs, -⟩, -⟩ := hmoved hsound.intact
  rcases cases_of_failed_load transport hs h with ⟨⟨u, hr⟩, huntouched⟩ | ⟨made, u, hr, hlitters⟩
  · have hnone : ∀ fragment v, compileResponse transport r s ≠ (.ok fragment, v) := by
      intro fragment v hok
      rw [hr] at hok
      cases hok
    exact ⟨⟨fun _ fragment v hok => absurd hok (hnone fragment v), fun _ => huntouched⟩,
      fun fragment v hok => absurd hok (hnone fragment v)⟩
  · refine ⟨⟨fun hsame => absurd hsame hlitters.not_untouched, fun hreadable => ?_⟩, fun fragment v hok => ?_⟩
    · -- its rules cannot be read, for the load has failed
      obtain ⟨before, selector, properties, after, failure, hentries, hparse, -⟩ := hlitters.rules
      have hmem : (selector, properties) ∈ made.rules.entries := by
        rw [hentries]
        exact List.mem_append_right _ List.mem_cons_self
      obtain ⟨parsed, hok⟩ := hreadable made u hr _ hmem
      rw [hparse] at hok
      cases hok
    · rw [hr] at hok
      cases hok
      exact hlitters

section examples

/-- A network that answers nothing. -/
def silence : Transport Unit where
  send _ s := s
  reply _ s := (none, s)

def markupResponse (body : String) : Network.Response where
  url := "http://app.local/f"
  status := 200
  headers := .ofList [("content-type", "text/celx")]
  body := body

/-- A response without resources is compiled as it was sent. -/
theorem compileResponse_of {n : Node} {ws : Markup.Workspace} {result : Except Error Fragment}
    (hnode : Action.responseNode r = .ok n) (hinlined : ∀ base, inlined transport base n s = (.ok n, s))
    (hcompiled : (Markup.compileFragment n).run { registry := s.registry, tree := s.tree } = (result, ws)) :
    compileResponse transport r s = (result, { s with registry := ws.registry, tree := ws.tree }) := by
  have hmarkup : responseMarkup transport r s = (.ok n, s) := by
    rw [responseMarkup, hnode, run_lift_ok_bind, Effect.run_get_bind, hinlined]
  rw [compileResponse, Effect.run_bind, hmarkup]
  dsimp only
  rw [compiled, Effect.run_get_bind, hcompiled]
  cases result <;> rfl

/-- A tower whose second child is no widget. -/
def misspelled : Node :=
  .mk "tower" [] none [.ofTag "text", .ofTag "txet"] none

theorem misspelled_leaves_nothing : ∃ first, start {} () = .ok first ∧ ∃ e t,
    loadFragment silence (markupResponse "<tower><text/><txet/></tower>") first = (.error e, t) ∧
      first.Untouched t := by
  obtain ⟨first, hstart, -⟩ := exists_start (p := fun _ => True) (by decide +kernel)
  obtain ⟨htree, hregistry⟩ := start_empty hstart
  have hnode : Action.responseNode (markupResponse "<tower><text/><txet/></tower>") = .ok misspelled := by cbv
  have hinlined : ∀ base, inlined silence base misspelled first = (.ok misspelled, first) := by
    intro base
    cbv
  obtain ⟨e, ws, hcompiled⟩ : ∃ e ws,
      (Markup.compileFragment misspelled).run { registry := first.registry, tree := first.tree } =
        (.error e, ws) := by
    rw [htree, hregistry]
    exact ⟨.compile (.unknownTag "txet"), { tree := { slots := #[none, none] } }, by cbv⟩
  obtain ⟨t, hfails⟩ : ∃ t, compileResponse silence (markupResponse "<tower><text/><txet/></tower>") first =
      (.error e, t) := ⟨_, compileResponse_of silence hnode hinlined hcompiled⟩
  have hload : loadFragment silence (markupResponse "<tower><text/><txet/></tower>") first = (.error e, t) := by
    rw [loadFragment_eq, Effect.run_bind, hfails]
  obtain ⟨hiff, -⟩ := failed_load_untouched_iff silence {} () first hstart [] first.inbox _ e t hload
  refine ⟨first, hstart, e, t, hload, hiff.mpr fun fragment v hok => ?_⟩
  cases hok.symm.trans hfails

/-- A rule for the widget around it, and one for a group of it without a name. -/
def unreadableBlock : Node :=
  (Node.ofTag "style").withText (some "color: red\n\n.:\n  color: blue")

def unreadable : Node :=
  .mk "tower" [] none [unreadableBlock] none

def unreadableTree : Tree where
  slots := #[some { kind := .tower }]

def unreadableFragment : Fragment where
  root := ⟨0⟩
  rules := ⟨[("Tower@0", .ofList [("color", .str "red")]), ("Tower@0.", .ofList [("color", .str "blue")])]⟩
  widgets := [⟨0⟩]

theorem compileFragment_unreadable :
    (Markup.compileFragment unreadable).run {} = (.ok unreadableFragment, { tree := unreadableTree }) := by
  have hempty : ({} : Registry).get? "tower" = none := rfl
  have hkind : Widget.Kind.ofTag? "tower" = some .tower := by decide
  have hchildren : ∀ id, Markup.buildChildren {} 0 id Widget.Kind.tower.isContainer [unreadableBlock] = (do
      let scope ← Markup.Build.query id
      Markup.Build.addRules unreadableBlock scope
      pure ()) := by
    intro id
    have hstyle : Markup.isStyleTag unreadableBlock.tag = true := by decide
    rw [Markup.buildChildren, Markup.buildChildren]
    simp only [hstyle, if_true]
  have hbuilt : Markup.buildFragment {} {} unreadable = (.ok unreadableFragment, unreadableTree) := by
    rw [Markup.buildFragment, unreadable, Markup.buildNode]
    simp only [hempty, hkind, hchildren]
    rfl
  rw [Markup.compileFragment, if_pos (by decide)]
  change Markup.buildContent unreadable {} = _
  rw [Markup.buildContent, Effect.run_get_bind, hbuilt]
  rfl

/-- In a session that has just been started, a load that fails for its second rule leaves a widget, which
no layer holds and no fragment lists, and its first rule. -/
theorem unreadable_leaves_trace : ∃ first, start {} () = .ok first ∧ ∃ e t,
    loadFragment silence
      (markupResponse "<tower><style>color: red\n\n.:\n  color: blue</style></tower>") first = (.error e, t) ∧
    first.tree = {} ∧ t.tree = unreadableTree ∧ t.pending = first.pending ∧
    first.rules.rules.length = 0 ∧ t.rules.rules.length = 1 ∧ ¬ first.Untouched t := by
  obtain ⟨first, hstart, hnone, hone, herror⟩ := exists_start (p := fun first =>
    first.rules.rules.length = 0 ∧
    (first.rules.applyMap unreadableFragment.rules Style.documentPriority).2.rules.length = 1 ∧
    (first.rules.applyMap unreadableFragment.rules Style.documentPriority).1.isOk = false) (by decide +kernel)
  obtain ⟨htree, hregistry⟩ := start_empty hstart
  have hnode : Action.responseNode
      (markupResponse "<tower><style>color: red\n\n.:\n  color: blue</style></tower>") = .ok unreadable := by
    cbv
  have hinlined : ∀ base, inlined silence base unreadable first = (.ok unreadable, first) := by
    intro base
    cbv
  have hcompiled :
      (Markup.compileFragment unreadable).run { registry := first.registry, tree := first.tree } =
        (.ok unreadableFragment, { tree := unreadableTree }) := by
    rw [htree, hregistry]
    exact compileFragment_unreadable
  have hmade := compileResponse_of silence hnode hinlined hcompiled
  cases happly : first.rules.applyMap unreadableFragment.rules Style.documentPriority with
  | mk result rules =>
    rw [happly] at hone herror
    cases result with
    | ok => cases herror
    | error failure =>
      refine ⟨first, hstart, .selection failure, { first with registry := {}, tree := unreadableTree, rules },
        ?_, htree, rfl, rfl, hnone, hone, fun hsame => ?_⟩
      · rw [loadFragment_eq, Effect.run_bind, hmade]
        dsimp only
        rw [awaitPlace_eq, happly]
      · have hrules : rules = first.rules := hsame.rules
        have hlength : rules.rules.length = 1 := hone
        rw [hrules, hnone] at hlength
        cases hlength

end examples

end Session

end Hypermedia
