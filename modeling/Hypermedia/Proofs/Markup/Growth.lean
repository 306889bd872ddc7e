import Hypermedia.Markup.Page
import Hypermedia.Proofs.Effect
import Hypermedia.Proofs.Markup.Expansion
import Hypermedia.Proofs.Tree.Bare

/-! What compiling leads to: it only adds places to a tree, and what it makes stands at a new one. -/
namespace Hypermedia

/-- A widget that is made and then changed is made as it is after the change. -/
theorem Tree.modify_construct {t : Tree} {w : Widget} {f : Widget → Widget} :
    (t.construct w).2.modify (t.construct w).1 f = (t.construct (f w)).2 := by
  refine ext_get? (by simp) (fun x => ?_) rfl rfl
  rw [get?_modify, get?_construct, get?_construct]
  by_cases hx : x.index = t.slots.size
  · have hid : x = (t.construct w).1 := WidgetId.ext hx
    rw [if_pos hid, if_pos hx, if_pos hx]
    rfl
  · have hid : x ≠ (t.construct w).1 := fun h => hx (congrArg WidgetId.index h)
    simp [hx, hid]

namespace Markup

open Effect (Moves Gives)

theorem sameBonds_configure {c d : Configured} {entry : String × String}
    (h : configure c entry = .ok d) : d.widget.SameBonds c.widget := by
  unfold configure at h
  dsimp only at h
  split at h
  · cases h
    exact ⟨⟨rfl, rfl, rfl⟩, rfl⟩
  split at h
  · cases h
    exact ⟨⟨rfl, rfl, rfl⟩, rfl⟩
  split at h
  · split at h
    · split at h
      · cases h
        exact ⟨⟨rfl, rfl, rfl⟩, rfl⟩
      · cases h
    · cases h
      exact ⟨⟨rfl, rfl, rfl⟩, rfl⟩
  · cases h
    exact Widget.sameBonds_setAttribute _ _

theorem sameBonds_configureAll {c d : Configured} {entries : List (String × String)}
    (h : entries.foldlM configure c = .ok d) : d.widget.SameBonds c.widget := by
  induction entries generalizing c with
  | nil =>
    cases h
    exact .refl _
  | cons entry entries ih =>
    rw [List.foldlM_cons] at h
    cases hc : configure c entry with
    | error e =>
      rw [hc] at h
      cases h
    | ok b =>
      rw [hc] at h
      exact (ih h).trans (sameBonds_configure hc)

/-- What an attribute binds: the actions of its descriptor, if its name is that of an event; hyphens in the name
become underscores. -/
def declared? (entry : String × String) : Option (String × Binding) :=
  let name := String.ofList (Text.exchange '-' ['_'] entry.1.toList)
  if isEventName name then
    match entry.2.toList with
    | ':' :: descriptor =>
      match Action.compile (String.ofList descriptor) with
      | .ok list => some (name, .actions list)
      | .error _ => none
    | _ => none
  else none

/-- Whether an attribute of an element makes this binding. -/
def Declares (n : Node) (b : String × Binding) : Prop :=
  ∃ entry ∈ n.attributes, declared? entry = some b

/-- Elements bind lists of actions only. -/
theorem actions_of_declared? {entry : String × String} {b : String × Binding} (h : declared? entry = some b) :
    isEventName b.1 = true ∧ ∃ list, b.2 = .actions list := by
  unfold declared? at h
  dsimp only at h
  split at h
  · next hevent =>
    split at h
    · split at h
      · cases h
        exact ⟨hevent, _, rfl⟩
      · cases h
    · cases h
  · cases h

theorem isBare_of_declares {w : Widget} {kind : Widget.Kind} (hw : w.SameBonds { kind })
    (hbindings : ∀ b ∈ w.bindings, ∃ n, Declares n b) : w.IsBare where
  scope := hw.2
  bindings b hb f := by
    obtain ⟨n, entry, -, hdeclared⟩ := hbindings b hb
    obtain ⟨-, list, hlist⟩ := actions_of_declared? hdeclared
    simp [hlist]

theorem declared_of_configure {c d : Configured} {entry : String × String} {b : String × Binding}
    (h : configure c entry = .ok d) (hb : b ∈ d.widget.bindings) :
    b ∈ c.widget.bindings ∨ declared? entry = some b := by
  unfold configure at h
  dsimp only at h
  split at h
  · cases h
    exact .inl hb
  split at h
  · cases h
    exact .inl hb
  split at h
  · next hevent =>
    split at h
    · next descriptor hvalue =>
      split at h
      · next list hlist =>
        cases h
        refine (Widget.mem_bindIn hb).symm.imp_right fun heq => ?_
        simp [declared?, hevent, hvalue, hlist, heq]
      · cases h
    · cases h
      exact .inl hb
  · cases h
    exact .inl hb

theorem declared_of_configureAll {c d : Configured} {entries : List (String × String)} {b : String × Binding}
    (h : entries.foldlM configure c = .ok d) (hb : b ∈ d.widget.bindings) :
    b ∈ c.widget.bindings ∨ ∃ entry ∈ entries, declared? entry = some b := by
  induction entries generalizing c with
  | nil =>
    cases h
    exact .inl hb
  | cons entry entries ih =>
    rw [List.foldlM_cons] at h
    cases hc : configure c entry with
    | error e =>
      rw [hc] at h
      cases h
    | ok next =>
      rw [hc] at h
      rcases ih h with hold | ⟨later, hlater, hdeclared⟩
      · exact (declared_of_configure hc hold).imp_right fun hdeclared => ⟨entry, List.mem_cons_self, hdeclared⟩
      · exact .inr ⟨later, List.mem_cons_of_mem _ hlater, hdeclared⟩

/-- The tree under construction has no fewer places. -/
def Building.Grows (s t : Building) : Prop :=
  s.tree.slots.size ≤ t.tree.slots.size

instance : IsPreorder Building Building.Grows where
  refl _ := Nat.le_refl _
  trans _ _ _ := Nat.le_trans

/-- A widget at a place that was new. -/
def Building.Makes (s : Building) (id : WidgetId) (t : Building) : Prop :=
  s.tree.slots.size ≤ id.index ∧ id.index < t.tree.slots.size

/-- The building goes on with one widget more. -/
def Building.with (s : Building) (w : Widget) : Building :=
  { s with tree := (s.tree.construct w).2, widgets := s.widgets ++ [(s.tree.construct w).1] }

/-- A widget is made with all that its element says, or as its kind alone if that cannot be read. -/
theorem startWidget_eq (kind : Widget.Kind) (n : Node) (s : Building) :
    startWidget kind n s = match n.attributes.foldlM configure ⟨{ kind }, []⟩ with
      | .ok c => (.ok ((s.tree.construct { kind }).1, c.handlers),
          s.with { c.widget with content := widgetContent n })
      | .error e => (.error e, s.with { kind }) := by
  rw [startWidget, Effect.run_bind]
  cases hc : n.attributes.foldlM configure ⟨{ kind }, []⟩ with
  | error e => rfl
  | ok c =>
    change (Except.ok (_, c.handlers), { s with
      tree := (s.tree.construct { kind }).2.modify (s.tree.construct { kind }).1 _
      widgets := s.widgets ++ [(s.tree.construct { kind }).1] }) = _
    rw [Tree.modify_construct]
    rfl

/-- The elements that building comes to are of a kind: those that components stand for, and children. -/
structure Closed (registry : Registry) (E : Node → Prop) : Prop where
  expanded : ∀ m c, E m → registry.get? m.tag = some c → E (c.expand m)
  child : ∀ m child, E m → registry.get? m.tag = none → child ∈ m.children → isAside child = false → E child

theorem closed_true {registry : Registry} : Closed registry fun _ => True :=
  ⟨fun _ _ _ _ => trivial, fun _ _ _ _ _ _ => trivial⟩

/-- What building does leads along a relation, with what is known of the widgets that it makes of elements of a
kind. -/
structure Building.Conveys (E : Node → Prop) (R : Building → Building → Prop) : Prop where
  construct : ∀ (s : Building) (w : Widget), (∃ kind, w.SameBonds { kind }) →
    (∀ b ∈ w.bindings, ∃ n, E n ∧ Declares n b) → R s (s.with w)
  script : ∀ (s : Building) id script,
    R s { s with tree := s.tree.modify id fun w => { w with script } }
  append : ∀ (s : Building) parent child, R s { s with tree := (s.tree.append parent child).2 }
  rules : ∀ (s : Building) rules, R s { s with rules }

/-- What building does leads along a relation. -/
structure Building.Carries (R : Building → Building → Prop) : Prop where
  construct : ∀ (s : Building) (w : Widget), (∃ kind, w.SameBonds { kind }) → R s (s.with w)
  script : ∀ (s : Building) id script,
    R s { s with tree := s.tree.modify id fun w => { w with script } }
  append : ∀ (s : Building) parent child, R s { s with tree := (s.tree.append parent child).2 }
  rules : ∀ (s : Building) rules, R s { s with rules }

section carries

variable {R : Building → Building → Prop} [IsPreorder Building R]

theorem Build.moves_lift {ε α : Type} (into : ε → Error) (r : Except ε α) :
    Moves R (lift into r) := by
  cases r with
  | ok a => exact Effect.moves_pure a
  | error e => exact Effect.moves_throw (into e)

namespace Building.Conveys

variable {E : Node → Prop} (h : Building.Conveys E R)

include h

omit [IsPreorder Building R] in
theorem startWidget (kind : Widget.Kind) {n : Node} (hn : E n) : Moves R (startWidget kind n) := by
  intro s
  rw [startWidget_eq]
  cases hc : n.attributes.foldlM configure ⟨{ kind }, []⟩ with
  | error e => exact h.construct s _ ⟨kind, .refl _⟩ nofun
  | ok c =>
    refine h.construct s _ ⟨kind, sameBonds_configureAll hc⟩ fun b hb => ⟨n, hn, ?_⟩
    exact (declared_of_configureAll hc hb).resolve_left nofun

theorem addRules (n : Node) (scope : String) : Moves R (Build.addRules n scope) :=
  Effect.moves_bind (Build.moves_lift _ _) fun _ => Effect.moves_modify fun s => h.rules s _

theorem adopt (parent child : WidgetId) : Moves R (Build.adopt parent child) :=
  Effect.moves_get_bind fun s => Effect.moves_set_bind (h.append s parent child) (Build.moves_lift _ _)

mutual

theorem buildNode {registry : Registry} (hE : Closed registry E) (expansions : Nat) (n : Node) (hn : E n) :
    Moves R (buildNode registry expansions n) := by
  cases n with
  | mk tag attributes text children tail =>
    rw [Markup.buildNode]
    dsimp only
    split
    · next c hc =>
      split
      · exact buildNode hE (expansions + 1) _ (hE.expanded _ c hn hc)
      · exact Effect.moves_throw _
    · next hc =>
      split
      · exact Effect.moves_throw _
      · next kind _ =>
        refine Effect.moves_bind (h.startWidget kind hn) fun started => ?_
        have hchildren : ∀ child ∈ children, isAside child = false → E child := fun child =>
          hE.child _ child hn hc
        refine Effect.moves_bind (buildChildren hE expansions _ _ children hchildren) fun _ => ?_
        split
        · refine Effect.moves_bind (Effect.moves_modify fun s => h.script s _ _) fun _ => ?_
          exact Effect.moves_pure _
        · exact Effect.moves_pure _
termination_by (maxExpansions - expansions, sizeOf n)

theorem buildChildren {registry : Registry} (hE : Closed registry E) (expansions : Nat) (parent : WidgetId)
    (isContainer : Bool) (children : List Node) (hchildren : ∀ child ∈ children, isAside child = false → E child) :
    Moves R (buildChildren registry expansions parent isContainer children) := by
  cases children with
  | nil =>
    rw [Markup.buildChildren]
    exact Effect.moves_pure _
  | cons child rest =>
    obtain ⟨hfirst, hlater⟩ := List.forall_mem_cons.mp hchildren
    have hrest := buildChildren hE expansions parent isContainer rest hlater
    rw [Markup.buildChildren]
    refine Effect.moves_get_bind fun s => ?_
    split
    · exact Effect.moves_bind (h.addRules child _) (fun _ => hrest) s
    next hstyle =>
    split
    · exact hrest s
    next hscript =>
    split
    · exact Effect.moves_throw _ s
    · have haside : isAside child = false := by simp [isAside, hstyle, hscript]
      have hchild := buildNode hE expansions child (hfirst haside)
      refine Effect.moves_bind hchild (fun id => ?_) s
      exact Effect.moves_bind (h.adopt parent id) fun _ => hrest
termination_by (maxExpansions - expansions, sizeOf children)

end

end Building.Conveys

namespace Building.Carries

omit [IsPreorder Building R] in
theorem conveys (h : Building.Carries R) : Building.Conveys (fun _ => True) R where
  construct s w hw _ := h.construct s w hw
  script := h.script
  append := h.append
  rules := h.rules

variable (h : Building.Carries R)

include h

theorem buildNode (registry : Registry) (expansions : Nat) (n : Node) :
    Moves R (buildNode registry expansions n) :=
  h.conveys.buildNode closed_true expansions n trivial

theorem buildChildren (registry : Registry) (expansions : Nat) (parent : WidgetId) (isContainer : Bool)
    (children : List Node) : Moves R (buildChildren registry expansions parent isContainer children) :=
  h.conveys.buildChildren closed_true expansions parent isContainer children fun _ _ _ => trivial

end Building.Carries

end carries

theorem grows_carries : Building.Carries Building.Grows where
  construct s w _ := by
    change s.tree.slots.size ≤ (s.tree.construct w).2.slots.size
    simp
  script _ _ _ := Nat.le_of_eq Tree.size_modify.symm
  append s parent child := (Tree.leads_append s.tree parent child).later.size_le
  rules _ _ := Nat.le_refl _

theorem Building.Makes.grows {s t u : Building} {id : WidgetId} (h : s.Makes id t)
    (hg : t.Grows u) : s.Makes id u :=
  ⟨h.1, Nat.lt_of_lt_of_le h.2 hg⟩

theorem makes_startWidget (kind : Widget.Kind) (n : Node) :
    Gives (fun s (started : WidgetId × List Char) t => s.Makes started.1 t)
      (startWidget kind n) := by
  intro s started t h
  rw [startWidget_eq] at h
  split at h
  · next c _ =>
    cases h
    refine ⟨Nat.le_refl _, ?_⟩
    change s.tree.slots.size < (s.tree.construct _).2.slots.size
    simp
  · cases h

theorem makes_buildNode (registry : Registry) (expansions : Nat) (n : Node) :
    Gives Building.Makes (buildNode registry expansions n) := by
  cases n with
  | mk tag attributes text children tail =>
    rw [buildNode]
    dsimp only
    split
    · split
      · exact makes_buildNode registry (expansions + 1) _
      · exact Effect.gives_throw _
    · split
      · exact Effect.gives_throw _
      · next kind _ =>
        refine Effect.gives_bind_of_moves (R := Building.Grows) (K := fun started id => id = started.1)
          (makes_startWidget kind _) (fun started => ?_) (fun started => ?_) fun hmade hgrow he => ?_
        · refine Effect.moves_bind (grows_carries.buildChildren registry expansions _ _ children) fun _ => ?_
          split
          · refine Effect.moves_bind (Effect.moves_modify fun s => grows_carries.script s _ _) fun _ => ?_
            exact Effect.moves_pure _
          · exact Effect.moves_pure _
        · refine Effect.gives_bind_last fun _ => ?_
          split
          · exact Effect.gives_bind_last fun _ => Effect.gives_pure fun _ => rfl
          · exact Effect.gives_pure fun _ => rfl
        · rw [he]
          exact hmade.grows hgrow
termination_by maxExpansions - expansions

section buildFragment

variable {registry : Registry} {tree : Tree} {n : Node}

theorem size_buildFragment : tree.slots.size ≤ (buildFragment registry tree n).2.slots.size := by
  have hgrow := grows_carries.buildNode registry 0 n { tree }
  unfold buildFragment
  change Building.Grows { tree } ((buildNode registry 0 n).run { tree }).2 at hgrow
  split
  · next hrun =>
    rw [hrun] at hgrow
    exact hgrow
  · next hrun =>
    rw [hrun] at hgrow
    rw [Tree.size_removeAll]
    exact hgrow

/-- The root of a fragment stands at a place that the tree did not have before. -/
theorem root_buildFragment {fragment : Fragment} {grown : Tree}
    (h : buildFragment registry tree n = (.ok fragment, grown)) :
    tree.slots.size ≤ fragment.root.index ∧ fragment.root.index < grown.slots.size := by
  unfold buildFragment at h
  split at h
  · next root s hrun =>
    cases h
    exact makes_buildNode registry 0 n { tree } root s hrun
  · cases h

end buildFragment

section compile

/-- The tree of a workspace has no fewer places. -/
def Workspace.Grows (s t : Workspace) : Prop :=
  s.tree.slots.size ≤ t.tree.slots.size

instance : IsPreorder Workspace Workspace.Grows where
  refl _ := Nat.le_refl _
  trans _ _ _ := Nat.le_trans

/-- A fragment whose root is at a place that was new. -/
def Workspace.Makes (s : Workspace) (fragment : Fragment) (t : Workspace) : Prop :=
  s.tree.slots.size ≤ fragment.root.index ∧ fragment.root.index < t.tree.slots.size

theorem run_buildContent (n : Node) (s : Workspace) :
    buildContent n s = ((buildFragment s.registry s.tree n).1,
      { s with tree := (buildFragment s.registry s.tree n).2 }) := by
  rw [buildContent, Effect.run_get_bind]
  dsimp only
  rw [Effect.run_set_bind]
  cases (buildFragment s.registry s.tree n).1 <;> rfl

/-- What compiling does leads along a relation. -/
structure Workspace.Carries (R : Workspace → Workspace → Prop) : Prop where
  content : ∀ n, Moves R (buildContent n)
  registry : ∀ (s : Workspace) registry, R s { s with registry }

namespace Workspace.Carries

variable {R : Workspace → Workspace → Prop} [IsPreorder Workspace R] (h : Workspace.Carries R)

include h

theorem declareLibrary (library : Node) : Moves R (declareLibrary library) := by
  refine Effect.moves_get_bind fun s => ?_
  dsimp only
  refine Effect.moves_set_bind (h.registry s _) ?_
  split
  · exact Effect.moves_pure _
  · exact Effect.moves_throw _

theorem declareComponent (declaration : Node) : Moves R (declareComponent declaration) := by
  unfold Markup.declareComponent
  split
  · exact Effect.moves_modify fun s => h.registry s _
  · exact Effect.moves_throw _

theorem declare (p : Page) (child : Node) : Moves R (declare p child) := by
  unfold Markup.declare
  split
  · exact Effect.moves_bind (h.declareLibrary child) fun _ => Effect.moves_pure _
  split
  · exact Effect.moves_bind (h.declareComponent child) fun _ => Effect.moves_pure _
  split
  · split
    · exact Effect.moves_pure _
    · exact Effect.moves_throw _
  split
  · exact Effect.moves_pure _
  · exact Effect.moves_pure _

theorem declareAll (start : Page) (children : List Node) :
    Moves R (children.foldlM Markup.declare start) :=
  Effect.moves_foldlM h.declare _ _

theorem compileElement (page : Node) : Moves R (compileElement page) := by
  refine Effect.moves_bind (h.declareAll _ _) fun declared => ?_
  split
  · exact Effect.moves_pure _
  · exact Effect.moves_bind (h.content _) fun _ => Effect.moves_pure _

theorem compilePage (document : Node) : Moves R (compilePage document) := by
  unfold Markup.compilePage
  split
  · exact Effect.moves_throw _
  · dsimp only
    split
    · exact Effect.moves_throw _
    · exact h.compileElement _

theorem compileFragment (n : Node) : Moves R (compileFragment n) := by
  unfold Markup.compileFragment
  split
  · exact h.content n
  · refine Effect.moves_bind (h.compilePage n) fun page => ?_
    split
    · exact Effect.moves_throw _
    · exact Effect.moves_pure _

end Workspace.Carries

theorem compiling_grows : Workspace.Carries Workspace.Grows where
  content n s := by
    rw [run_buildContent]
    exact size_buildFragment
  registry _ _ := Nat.le_refl _

theorem makes_buildContent (n : Node) : Gives Workspace.Makes (buildContent n) := by
  intro s fragment t h
  rw [run_buildContent] at h
  obtain ⟨hfragment, rfl⟩ := Prod.mk.inj h
  exact root_buildFragment (Prod.ext hfragment rfl)

/-- Declarations bring no content. -/
theorem content_declare (p : Page) (child : Node) (h : p.content = none) :
    Gives (fun _ (p : Page) _ => p.content = none) (declare p child) := by
  have hkeep : Gives (fun _ (p : Page) _ => p.content = none) (pure p : Compile Page) :=
    Effect.gives_pure fun _ => h
  unfold declare
  split
  · exact Effect.gives_bind_last fun _ => hkeep
  split
  · exact Effect.gives_bind_last fun _ => hkeep
  split
  · split
    · exact Effect.gives_pure fun _ => h
    · exact Effect.gives_throw _
  split
  · exact Effect.gives_pure fun _ => h
  · exact hkeep

/-- The content of a page stands at a place that was new. -/
def Workspace.MakesContent (s : Workspace) (page : Page) (t : Workspace) : Prop :=
  ∀ fragment, page.content = some fragment → s.Makes fragment t

theorem makes_compileElement (page : Node) :
    Gives Workspace.MakesContent (compileElement page) := by
  have hdeclared := Effect.gives_and (Effect.gives_of_moves (compiling_grows.declareAll
    { properties := page.attributes, title := page.attribute? "title" } page.children))
    (Effect.gives_foldlM content_declare rfl page.children)
  refine Effect.gives_bind hdeclared fun s declared t hd p u h => ?_
  cases hn : contentNodes page with
  | nil =>
    rw [hn] at h
    cases h
    intro fragment hf
    rw [hd.2] at hf
    cases hf
  | cons n _ =>
    rw [hn] at h
    have hmade : Gives Workspace.MakesContent (do
        let fragment ← buildContent n
        let rules := declared.rules.merge fragment.rules
        return { declared with rules, content := some fragment }) := by
      refine Effect.gives_bind (makes_buildContent n) fun s fragment t hf p u h => ?_
      cases h
      rintro _ ⟨⟩
      exact hf
    intro fragment hf
    obtain ⟨hlow, hhigh⟩ := hmade t p u h fragment hf
    exact ⟨Nat.le_trans hd.1 hlow, hhigh⟩

theorem makes_compilePage (document : Node) :
    Gives Workspace.MakesContent (compilePage document) := by
  unfold compilePage
  split
  · exact Effect.gives_throw _
  · dsimp only
    split
    · exact Effect.gives_throw _
    · exact makes_compileElement _

/-- The root of a fragment that is compiled stands at a place that was new. -/
theorem makes_compileFragment (n : Node) : Gives Workspace.Makes (compileFragment n) := by
  unfold compileFragment
  split
  · exact makes_buildContent n
  · refine Effect.gives_bind (makes_compilePage n) fun s page t hmade fragment u h => ?_
    cases hcontent : page.content with
    | none =>
      rw [hcontent] at h
      cases h
    | some content =>
      rw [hcontent] at h
      cases h
      exact hmade content hcontent

end compile

end Markup

end Hypermedia
