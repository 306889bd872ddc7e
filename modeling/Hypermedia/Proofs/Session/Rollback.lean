import Hypermedia.Proofs.Session.Late
import Hypermedia.Proofs.Session.Sound
import Hypermedia.Proofs.Session.Staging

/-! A page that fails leaves the session as it was: its widgets are gone, those of the old page and what
the session knows of them are as before, and no action list of it has been started. -/
namespace Hypermedia.Session

variable {σ : Type} {s t : Session σ} {n : Node} {url : Url} {e : Error} (transport : Transport σ)

section rollback

variable (hs : s.Intact) (htop : ∀ r, s.tree.root = some r → s.tree.parent? r = none)

include hs htop

/-- The old root comes back to where it was. -/
theorem extends_setRoot_back {tree : Tree} (h : s.tree.Extends tree) (hroot : tree.root = none) :
    s.tree.Extends (tree.setRoot s.tree.root) := by
  have hpin : ∀ x ∈ tree.pinned, s.tree.root ≠ some x := by
    intro x hx hr
    exact hs.tree.pins.not_root x (h.mem_pinned hx (hs.tree.root x hr)) hr
  cases hr : s.tree.root with
  | none => exact h.setRoot hs.tree.forest (by simp [hroot]) nofun
  | some r =>
    -- it has no parent now either, so there is no place it need be taken from
    have hparent : tree.parent? r = none := by rw [h.parent?_eq (hs.tree.root r hr), htop r hr]
    rw [Tree.setRoot_of_top hparent (fun hmem => hpin r hmem hr) hroot]
    exact h.withRoot fun x hx he => hpin x hx (hr.trans he)

theorem rollback_tree (h : s.Staged t) :
    s.tree.Extends (t.rollback s.aside).tree ∧ (t.rollback s.aside).tree.root = s.tree.root ∧
      (t.rollback s.aside).tree.pinned = s.tree.pinned := by
  have hforest := hs.tree.forest
  obtain ⟨added, hadded, hnew⟩ := h.loose
  have hbare : s.tree.Extends (t.tree.setRoot none) := h.grown.setRoot hforest h.root nofun
  have hgrown := extends_setRoot_back hs htop hbare rfl
  let back : Tree := (t.tree.setRoot none).setRoot s.tree.root
  let fresh := back.pinned.filter fun id => !s.tree.pinned.contains id
  obtain ⟨dropped, hsub, hdrop⟩ := dropLoose_eq (back.removeAll fresh) (t.loose.drop s.loose.length)
  have htree : (t.rollback s.aside).tree = (back.removeAll fresh).removeAll dropped := by
    rw [← hdrop]
    rfl
  -- an old pin is one of those that were put aside, so what goes is new
  have hfresh : ∀ x ∈ fresh, s.tree.Unused x := by
    intro x hx
    obtain ⟨hpin, hout⟩ := List.mem_filter.mp hx
    by_contra hold
    simp [hgrown.mem_pinned hpin hold] at hout
  have hdropped : ∀ x ∈ dropped, s.tree.Unused x := by
    intro x hx
    have hmem := hsub hx
    rw [hadded, List.drop_left] at hmem
    exact hnew x hmem
  have hremoved := (hgrown.removeAll hforest hfresh).removeAll hforest hdropped
  have hroot : ((back.removeAll fresh).removeAll dropped).root = s.tree.root :=
    hs.tree.root_removeAll (hs.tree.root_removeAll rfl hfresh) hdropped
  rw [htree]
  refine ⟨hremoved, hroot, hremoved.pinned_eq fun x hx => ?_⟩
  obtain ⟨hpin, hout⟩ := Tree.mem_pinned_of_removeAll (Tree.mem_pinned_of_removeAll hx).1
  have hmem : x ∈ s.tree.pinned := by
    by_contra hno
    exact hout (List.mem_filter.mpr ⟨hpin, by simpa using hno⟩)
  exact Tree.not_unused_of_contains (hs.tree.pins.contains x hmem)

end rollback

/-- Apart from its tree, a session is what it was before the page was staged. -/
theorem rollback_frame (hidle : s.deferred = none) (ho : s.outgoing = none) (h : s.Staged t) :
    t.rollback s.aside = { s with
      tree := (t.rollback s.aside).tree, registry := t.registry, world := t.world, alerts := t.alerts } := by
  obtain ⟨lists, hframe⟩ := h.frame
  obtain ⟨added, hadded, -⟩ := h.loose
  have htake : t.loose.take s.loose.length = s.loose := by rw [hadded, List.take_left]
  have hback : t.rollback s.aside = { s with
      tree := (t.rollback s.aside).tree, registry := t.registry, world := t.world, alerts := t.alerts
      loose := t.loose.take s.loose.length, deferred := none, outgoing := none } := by
    conv_lhs => rw [hframe]
    rfl
  refine hback.trans ?_
  simp only [htake, hidle, ho]

/-- Where no old widget is lost and no new one is owned by anybody, the widgets are the old ones. -/
theorem get?_eq_of_spares (hs : s.Intact) (hspares : s.Spares t) (hgrown : s.tree.Extends t.tree)
    (hroot : t.tree.root = s.tree.root) (hpinned : t.tree.pinned = s.tree.pinned)
    (hloose : t.loose = s.loose) (hpending : t.pending = s.pending) (ho : t.outgoing = none)
    (x : WidgetId) : t.tree.get? x = s.tree.get? x := by
  by_cases hx : s.tree.Unused x
  case neg => exact hgrown.get?_eq x hx
  have hgone : t.tree.contains x = false := by
    refine Bool.eq_false_iff.mpr fun hlive => ?_
    obtain ⟨a, hw, halive, htop⟩ := hgrown.forest.exists_top hlive
    have ha : s.tree.Unused a := (hgrown.unused_iff_of_within hs.tree.forest hw).mp hx
    -- nothing that the session knows by name is new, so nobody answers for `a`
    have hstray : t.Stray a := by
      refine ⟨⟨⟨halive, htop, fun hr => ?_, fun hpin => ?_⟩, by simp [ho]⟩, fun hmem => ?_, ?_⟩
      · exact hs.tree.root a (hroot ▸ hr) ha
      · exact Tree.not_unused_of_contains (hs.tree.pins.contains a (hpinned ▸ hpin)) ha
      · exact hs.loose a (hloose ▸ hmem) ha
      · exact hpending ▸ hs.pending a ha
    exact Tree.not_unused_of_contains (hspares.stray a hstray).adrift.tree.live ha
  have hnever : s.tree.contains x = false :=
    Bool.eq_false_iff.mpr fun hlive => Tree.not_unused_of_contains hlive hx
  simp only [Tree.contains, Option.isSome_eq_false_iff, Option.isNone_iff_eq_none] at hgone hnever
  rw [hgone, hnever]

/-- A page that fails leaves no trace but in the components, in what scripts made of the world, and in
what they told the user. -/
theorem install_of_error (hs : s.Steady) (htop : ∀ r, s.tree.root = some r → s.tree.parent? r = none)
    (hself : s.SelfContained n) (h : install url n s = (.error e, t)) :
    (∀ x, t.tree.get? x = s.tree.get? x) ∧ t.tree.root = s.tree.root ∧ t.tree.pinned = s.tree.pinned ∧
      t = { s with tree := t.tree, registry := t.registry, world := t.world, alerts := t.alerts } := by
  have hsecured := secures_install url n s hs
  rw [h] at hsecured
  rcases install_cases hs.intact hself with ⟨e', ws, hregains, hr⟩ | ⟨page, u, hstaged, hr | ⟨e', hr⟩⟩
  · cases h.symm.trans hr
    have hsprouts := hregains.sprouts
    have hpinned := hsprouts.grown.pinned_eq hsprouts.pinned
    refine ⟨fun x => ?_, hsprouts.root, hpinned, rfl⟩
    exact get?_eq_of_spares hs.intact hsecured.2 hsprouts.grown hsprouts.root hpinned rfl rfl hs.outgoing x
  · cases h.symm.trans hr
  · cases h.symm.trans hr
    obtain ⟨hgrown, hroot, hpinned⟩ := rollback_tree hs.intact htop hstaged
    have hframe := rollback_frame (hs.intact.idle hs.outgoing) hs.outgoing hstaged
    have hloose := congrArg Session.loose hframe
    have hpending := congrArg Session.pending hframe
    refine ⟨fun x => ?_, hroot, hpinned, hframe⟩
    exact get?_eq_of_spares hs.intact hsecured.2 hgrown hroot hpinned hloose hpending rfl x

/-- At all times of a session whose root has no parent, wherever its history stands, a page that fails,
wherever its scripts or its rules bring it to an error, leaves the session as it was if its scripts change
new widgets only: each widget, or what is left of its place, the root and the dialogues, and with them the
rules, the document, the timers, the page, the fragments, the loose widgets and the action lists. -/
theorem failed_page_rolls_back (config : Config) (network : σ) (first : Session σ)
    (hstart : start config network = .ok first) (turns : List (Turn σ)) (history : History) :
    let s := { first.afterAll transport turns with history }
    (∀ r, s.tree.root = some r → s.tree.parent? r = none) →
    ∀ url n e t, s.SelfContained n → install url n s = (.error e, t) →
      (∀ x, t.tree.get? x = s.tree.get? x) ∧ t.tree.root = s.tree.root ∧
      t.tree.pinned = s.tree.pinned ∧
      t = { s with tree := t.tree, registry := t.registry, world := t.world, alerts := t.alerts } := by
  intro s htop url n e t hself h
  have hsound : (first.afterAll transport turns).Sound := sound_afterAll transport (sound_start hstart) turns
  have hmoved : (first.afterAll transport turns).Secures s :=
    Guards.secures (guards_of_eq rfl rfl rfl rfl id)
  obtain ⟨hsteady, -⟩ := hmoved hsound.toSteady
  exact install_of_error hsteady htop hself h

section examples

/-- A document whose page has a script and nothing else. -/
def scripted (source : String) : Node :=
  (Node.ofTag "celx").withChildren [(Node.ofTag "page").withChildren
    [(Node.ofTag "script").withText (some source)]]

/-- A server whose pages greet with a dialogue. -/
def greeting : Transport Unit where
  send _ s := s
  reply r s :=
    let body := "<celx><page><script>alert(\"welcome\")</script></page></celx>"
    (some (.ok { url := r.url.text, status := 200, body }), s)

/-- A page that shows a dialogue and then fails. -/
def failing : Node :=
  scripted "alert(\"hello\") error(\"no\")"

/-- The dialogue of the page before is still there, and that of the page that fails is gone. -/
theorem failing_rolls_back : ∃ first, start {} () = .ok first ∧
    let s := first.afterAll greeting [.route "/p" false]
    let t := (install s.url failing s).2
    s.tree.pinned = [⟨3⟩] ∧ (install s.url failing s).1.isOk = false ∧
      (∀ x, t.tree.get? x = s.tree.get? x) ∧ t.tree.root = s.tree.root ∧
      t.tree.pinned = s.tree.pinned ∧
      t = { s with tree := t.tree, registry := t.registry, world := t.world, alerts := t.alerts } := by
  obtain ⟨first, hstart, hpinned, hroot, hfails, hself⟩ := exists_start (p := fun first =>
    let s := first.afterAll greeting [.route "/p" false]
    s.tree.pinned = [⟨3⟩] ∧ s.tree.root = none ∧ (install s.url failing s).1.isOk = false ∧
      s.SelfContained failing) (by decide +kernel)
  let s := first.afterAll greeting [.route "/p" false]
  obtain ⟨e, t, h⟩ : ∃ e t, install s.url failing s = (.error e, t) := by
    cases hr : install s.url failing s with
    | mk result t =>
      rw [hr] at hfails
      cases result with
      | ok => cases hfails
      | error e => exact ⟨e, t, rfl⟩
  have htop : ∀ r, s.tree.root = some r → s.tree.parent? r = none := by simp [s, hroot]
  have hback := failed_page_rolls_back greeting {} () first hstart [.route "/p" false] s.history htop
    s.url failing e t hself h
  refine ⟨first, hstart, hpinned, hfails, ?_⟩
  rw [h]
  exact hback

end examples

end Hypermedia.Session
