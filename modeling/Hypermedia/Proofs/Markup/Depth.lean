import Hypermedia.Proofs.Markup.Expansion
import Hypermedia.Proofs.Markup.Growth
import Mathlib

/-! Compiling ends: the elements it comes to are finitely many, and no path to one of them goes through
more components than are allowed. -/
namespace Hypermedia.Markup

open Relation (ReflTransGen)

/-- What a component is refused with that would have to be expanded inside too many others. -/
def tooDeep (name : String) : Error :=
  .compile (.malformedComponent name
    ("expansion nested deeper than " ++ decimal maxExpansions ++ " levels"))

/-- An element is met `k` components deep below `n`: it takes the place of a component there, or is a child
of a widget there. -/
inductive Nested (registry : Registry) (n : Node) : Nat → Node → Prop
  | root : Nested registry n 0 n
  | expanded {k : Nat} {m : Node} {c : Component} : Nested registry n k m →
      registry.get? m.tag = some c → Nested registry n (k + 1) (c.expand m)
  | child {k : Nat} {m child : Node} : Nested registry n k m → registry.get? m.tag = none →
      child ∈ m.children → isAside child = false → Nested registry n k child

/-- An element that compiling has come to, with the number of open components and what is built so far. -/
structure Call where
  expansions : Nat
  node : Node
  building : Building

namespace Call

/-- What compiling makes of an element it has come to. -/
def outcome (registry : Registry) (a : Call) : Except Error WidgetId :=
  (buildNode registry a.expansions a.node a.building).1

/-- Where compiling goes from an element: to what its component stands for, or to a child of its widget
when the children before that are built. -/
inductive Leads (registry : Registry) : Call → Call → Prop
  | expansion {e : Nat} {n : Node} {s : Building} {c : Component} : registry.get? n.tag = some c →
      e < maxExpansions → Leads registry ⟨e, n, s⟩ ⟨e + 1, c.expand n, s⟩
  | child {e : Nat} {n child : Node} {s t u : Building} {kind : Widget.Kind} {id : WidgetId}
      {handlers : List Char} {before after : List Node} : registry.get? n.tag = none →
      Widget.Kind.ofTag? n.tag = some kind → startWidget kind n s = (.ok (id, handlers), t) →
      n.children = before ++ child :: after → isAside child = false → kind.isContainer = true →
      buildChildren registry e id true before t = (.ok (), u) → Leads registry ⟨e, n, s⟩ ⟨e, child, u⟩

end Call

section failure

/-! Nothing else is refused as a component is that nests too deep. -/

theorem action_of_configure {c : Configured} {entry : String × String} {e : Error}
    (h : configure c entry = .error e) : ∃ cause, e = .action cause := by
  unfold configure at h
  dsimp only at h
  split at h
  · cases h
  split at h
  · cases h
  split at h
  · split at h
    · split at h
      · cases h
      · cases h
        exact ⟨_, rfl⟩
    · cases h
  · cases h

theorem action_of_configureAll {c : Configured} {entries : List (String × String)} {e : Error}
    (h : entries.foldlM configure c = .error e) : ∃ cause, e = .action cause := by
  induction entries generalizing c with
  | nil => cases h
  | cons entry entries ih =>
    rw [List.foldlM_cons] at h
    cases hc : configure c entry with
    | error e' =>
      rw [hc] at h
      cases h
      exact action_of_configure hc
    | ok d =>
      rw [hc] at h
      exact ih h

theorem startWidget_ne_tooDeep (kind : Widget.Kind) (n : Node) (s : Building) (name : String) :
    (startWidget kind n s).1 ≠ .error (tooDeep name) := by
  intro h
  rw [startWidget_eq] at h
  cases hc : n.attributes.foldlM configure ⟨{ kind }, []⟩ with
  | ok c =>
    rw [hc] at h
    cases h
  | error e =>
    rw [hc] at h
    obtain ⟨cause, rfl⟩ := action_of_configureAll hc
    cases h

theorem style_of_line {r : Style.Reading} {number : Nat} {line : List Char} {e : CompileError}
    (h : r.line number line = .error e) : ∃ number message, e = .style number message := by
  unfold Style.Reading.line at h
  dsimp only at h
  split at h
  · cases h
  split at h
  · cases h
    exact ⟨_, _, rfl⟩
  split at h
  · cases h
  · cases h
  · cases h
    exact ⟨_, _, rfl⟩
  · cases h

theorem style_of_lines {r : Style.Reading} {number : Nat} {lines : List (List Char)} {e : CompileError}
    (h : r.lines number lines = .error e) : ∃ number message, e = .style number message := by
  induction lines generalizing r number with
  | nil => cases h
  | cons line lines ih =>
    rw [Style.Reading.lines] at h
    cases hl : r.line number line with
    | error e' =>
      rw [hl] at h
      cases h
      exact style_of_line hl
    | ok r' =>
      rw [hl] at h
      exact ih h

theorem addRules_ne_tooDeep (n : Node) (scope : String) (s : Building) (name : String) :
    (Build.addRules n scope s).1 ≠ .error (tooDeep name) := by
  intro h
  rw [Build.addRules, Effect.run_bind, Style.compileRules] at h
  cases hl : Style.Reading.lines {} 1
      (Text.lines (Style.blockSource (bodyOf n).toList (some scope))) with
  | ok reading =>
    rw [hl] at h
    cases h
  | error e =>
    rw [hl] at h
    obtain ⟨number, message, rfl⟩ := style_of_lines hl
    cases h

theorem adopt_ne_tooDeep (parent child : WidgetId) (s : Building) (name : String) :
    (Build.adopt parent child s).1 ≠ .error (tooDeep name) := by
  intro h
  rw [Build.adopt, Effect.run_get_bind] at h
  dsimp only at h
  rw [Effect.run_set_bind] at h
  cases hout : (s.tree.append parent child).1 with
  | ok => rw [hout] at h; cases h
  | error e => rw [hout] at h; cases h

end failure

section steps

variable {registry : Registry} {e : Nat} {n m : Node} {s t u : Building} {name : String}
  {parent id : WidgetId} {isContainer : Bool} {a b : Call} {k : Nat}

/-- What building does for one child of a widget. -/
def buildChild (registry : Registry) (e : Nat) (parent : WidgetId) (isContainer : Bool) (child : Node) :
    Build Unit := do
  let scope ← Build.query parent
  if isStyleTag child.tag then Build.addRules child scope
  else if isScriptTag child.tag then pure ()
  else if !isContainer then throw (.compile (.leafWithChildren scope))
  else
    let id ← buildNode registry e child
    Build.adopt parent id

theorem buildChildren_cons (child : Node) (rest : List Node) :
    buildChildren registry e parent isContainer (child :: rest) =
      (do buildChild registry e parent isContainer child
          buildChildren registry e parent isContainer rest) := by
  rw [buildChildren, buildChild, bind_assoc]
  congr 1
  funext scope
  split
  · rfl
  split
  · rw [pure_bind]
  split
  · rfl
  · rw [bind_assoc]

/-- Children are built one after another. -/
theorem buildChildren_append (before rest : List Node) :
    buildChildren registry e parent isContainer (before ++ rest) =
      (do buildChildren registry e parent isContainer before
          buildChildren registry e parent isContainer rest) := by
  induction before with
  | nil => rw [buildChildren, pure_bind, List.nil_append]
  | cons child before ih =>
    rw [List.cons_append, buildChildren_cons, buildChildren_cons, ih, bind_assoc]

/-- An element is what its component stands for, or a widget of the kind of its tag with its children. -/
theorem buildNode_eq : buildNode registry e n = match registry.get? n.tag with
    | some component =>
      if e < maxExpansions then buildNode registry (e + 1) (component.expand n)
      else throw (tooDeep component.name)
    | none =>
      match Widget.Kind.ofTag? n.tag with
      | none => throw (.compile (.unknownTag n.tag))
      | some kind => do
        let (id, handlers) ← startWidget kind n
        buildChildren registry e id kind.isContainer n.children
        match widgetScript n.children handlers with
        | some script => Build.modifyWidget id fun w => { w with script := some script }
        | none => pure ()
        return id := by
  cases n
  rw [buildNode]
  rfl

theorem buildNode_component {c : Component} (hc : registry.get? n.tag = some c)
    (he : e < maxExpansions) : buildNode registry e n = buildNode registry (e + 1) (c.expand n) := by
  rw [buildNode_eq, hc]
  exact if_pos he

theorem buildNode_tooDeep {c : Component} (hc : registry.get? n.tag = some c)
    (he : ¬ e < maxExpansions) : buildNode registry e n = throw (tooDeep c.name) := by
  rw [buildNode_eq, hc]
  exact if_neg he

theorem buildNode_unknown (hc : registry.get? n.tag = none) (hk : Widget.Kind.ofTag? n.tag = none) :
    buildNode registry e n = throw (.compile (.unknownTag n.tag)) := by
  rw [buildNode_eq, hc, hk]

theorem outcome_of_startWidget {kind : Widget.Kind} {handlers : List Char}
    (hc : registry.get? n.tag = none) (hk : Widget.Kind.ofTag? n.tag = some kind)
    (hs : startWidget kind n s = (.ok (id, handlers), t)) :
    (buildNode registry e n s).1 =
      (buildChildren registry e id kind.isContainer n.children t).1.map fun _ => id := by
  rw [buildNode_eq, hc, hk]
  simp only [Effect.run_bind, hs]
  cases buildChildren registry e id kind.isContainer n.children t with
  | mk r u =>
    cases r with
    | error f => rfl
    | ok _ => cases widgetScript n.children handlers <;> rfl

theorem outcome_of_startWidget_error {kind : Widget.Kind} {f : Error}
    (hc : registry.get? n.tag = none) (hk : Widget.Kind.ofTag? n.tag = some kind)
    (hs : startWidget kind n s = (.error f, t)) : (buildNode registry e n s).1 = .error f := by
  rw [buildNode_eq, hc, hk]
  simp only [Effect.run_bind, hs]

theorem run_buildChild (child : Node) :
    buildChild registry e parent isContainer child s =
      (if isStyleTag child.tag then Build.addRules child (s.tree.query parent)
      else if isScriptTag child.tag then pure ()
      else if !isContainer then throw (.compile (.leafWithChildren (s.tree.query parent)))
      else do Build.adopt parent (← buildNode registry e child) : Build Unit) s := rfl

theorem buildChild_node {child : Node} (h : isAside child = false) :
    buildChild registry e parent true child s =
      (do Build.adopt parent (← buildNode registry e child) : Build Unit) s := by
  obtain ⟨hstyle, hscript⟩ := Bool.or_eq_false_iff.mp h
  rw [run_buildChild, hstyle, hscript]
  rfl

/-- A child that nests too deep is one that is built. -/
theorem node_of_buildChild_tooDeep {child : Node}
    (h : (buildChild registry e parent isContainer child s).1 = .error (tooDeep name)) :
    isAside child = false ∧ isContainer = true ∧
      (buildNode registry e child s).1 = .error (tooDeep name) := by
  rw [run_buildChild] at h
  split at h
  · exact absurd h (addRules_ne_tooDeep _ _ _ _)
  · next hstyle =>
    split at h
    · cases h
    · next hscript =>
      split at h
      · cases h
      · next hleaf =>
        refine ⟨by simp [isAside, hstyle, hscript], by simpa using hleaf, ?_⟩
        rw [Effect.run_bind] at h
        cases hr : buildNode registry e child s with
        | mk r t =>
          rw [hr] at h
          cases r with
          | error f =>
            cases h
            rfl
          | ok id => exact absurd h (adopt_ne_tooDeep _ _ _ _)

/-- Where a child nests too deep, those before it are built. -/
theorem child_of_buildChildren_tooDeep {children : List Node}
    (h : (buildChildren registry e parent isContainer children s).1 = .error (tooDeep name)) :
    ∃ before child after t, children = before ++ child :: after ∧ isAside child = false ∧
      isContainer = true ∧ buildChildren registry e parent isContainer before s = (.ok (), t) ∧
      (buildNode registry e child t).1 = .error (tooDeep name) := by
  induction children generalizing s with
  | nil =>
    rw [buildChildren] at h
    cases h
  | cons child rest ih =>
    rw [buildChildren_cons, Effect.run_bind] at h
    cases hr : buildChild registry e parent isContainer child s with
    | mk r t =>
      rw [hr] at h
      cases r with
      | error f =>
        obtain ⟨haside, hholds, hnode⟩ := node_of_buildChild_tooDeep
          (by rw [hr]; exact h : (buildChild registry e parent isContainer child s).1 = _)
        exact ⟨[], child, rest, s, rfl, haside, hholds, by rw [buildChildren]; rfl, hnode⟩
      | ok _ =>
        obtain ⟨before, late, after, u, rfl, haside, hholds, hbefore, hnode⟩ := ih h
        refine ⟨child :: before, late, after, u, rfl, haside, hholds, ?_, hnode⟩
        rw [buildChildren_cons, Effect.run_bind, hr]
        exact hbefore

namespace Call

/-- An error stops all that it is part of. -/
theorem Leads.outcome_error {f : Error} (h : a.Leads registry b)
    (hb : b.outcome registry = .error f) : a.outcome registry = .error f := by
  cases h with
  | expansion hc he =>
    dsimp only [outcome] at hb ⊢
    rw [buildNode_component hc he, hb]
  | child hc hk hs hsplit haside hholds hbefore =>
    dsimp only [outcome] at hb ⊢
    rw [outcome_of_startWidget hc hk hs, hsplit, buildChildren_append, Effect.run_bind, hholds, hbefore]
    dsimp only
    rw [buildChildren_cons, Effect.run_bind, buildChild_node haside, Effect.run_bind]
    generalize buildNode registry _ _ _ = r at hb
    obtain ⟨r, v⟩ := r
    cases hb
    rfl

/-- A component that nests too deep is met, or it is met further on. -/
theorem tooDeep_cases (h : a.outcome registry = .error (tooDeep name)) :
    (∃ c, registry.get? a.node.tag = some c ∧ maxExpansions ≤ a.expansions ∧ c.name = name) ∨
      ∃ b, a.Leads registry b ∧ b.outcome registry = .error (tooDeep name) := by
  obtain ⟨e, n, s⟩ := a
  dsimp only [outcome] at h ⊢
  cases hc : registry.get? n.tag with
  | some c =>
    by_cases he : e < maxExpansions
    · rw [buildNode_component hc he] at h
      exact .inr ⟨_, .expansion hc he, h⟩
    · rw [buildNode_tooDeep hc he] at h
      cases h
      exact .inl ⟨c, rfl, Nat.le_of_not_lt he, rfl⟩
  | none =>
    cases hk : Widget.Kind.ofTag? n.tag with
    | none =>
      rw [buildNode_unknown hc hk] at h
      cases h
    | some kind =>
      cases hs : startWidget kind n s with
      | mk r t =>
        cases r with
        | error f =>
          rw [outcome_of_startWidget_error hc hk hs] at h
          cases h
          exact absurd (congrArg Prod.fst hs) (startWidget_ne_tooDeep _ _ _ _)
        | ok started =>
          rw [outcome_of_startWidget hc hk hs] at h
          have hchildren : (buildChildren registry e started.1 kind.isContainer n.children t).1 =
              .error (tooDeep name) := by
            cases hr : (buildChildren registry e started.1 kind.isContainer n.children t).1 with
            | ok _ =>
              rw [hr] at h
              cases h
            | error f =>
              rw [hr] at h
              cases h
              rfl
          obtain ⟨before, child, after, u, hsplit, haside, hholds, hbefore, hnode⟩ :=
            child_of_buildChildren_tooDeep hchildren
          rw [hholds] at hbefore
          exact .inr ⟨_, .child hc hk hs hsplit haside hholds hbefore, hnode⟩

/-- The components that are open are those around the element. -/
theorem Leads.nested (h : a.Leads registry b) (ha : Nested registry n a.expansions a.node) :
    Nested registry n b.expansions b.node := by
  cases h with
  | expansion hc _ => exact ha.expanded hc
  | child hc _ _ hsplit haside _ _ =>
    exact ha.child hc (hsplit ▸ List.mem_append_right _ List.mem_cons_self) haside

theorem Leads.expansions_le (h : a.Leads registry b) (ha : a.expansions ≤ maxExpansions) :
    b.expansions ≤ maxExpansions := by
  cases h with
  | expansion _ he => exact he
  | child => exact ha

end Call

section ends

/-! Each element that compiling comes to leaves fewer components to open, or as many and a smaller element
to build. -/

/-- The components that may still be opened, and the size of the element. -/
noncomputable def Call.measure (a : Call) : Nat × Nat :=
  (maxExpansions - a.expansions, sizeOf a.node)

theorem Call.Leads.measure_lt (h : a.Leads registry b) :
    Prod.Lex (· < ·) (· < ·) b.measure a.measure := by
  cases h with
  | expansion _ he =>
    exact .left _ _ (Nat.sub_lt_sub_left he (Nat.lt_succ_self _))
  | @child e n child s t u kind id handlers before after _ _ _ hsplit _ _ _ =>
    refine .right _ ?_
    have hmem : child ∈ n.children := hsplit ▸ List.mem_append_right _ List.mem_cons_self
    have hlt := List.sizeOf_lt_of_mem hmem
    cases n with
    | mk tag attributes text children tail =>
      simp only [Node.children, Node.mk.sizeOf_spec] at hlt ⊢
      omega

theorem wellFounded_leads (registry : Registry) :
    WellFounded fun b a : Call => a.Leads registry b :=
  Subrelation.wf (fun h => Call.Leads.measure_lt h)
    (InvImage.wf Call.measure (WellFounded.prod_lex wellFounded_lt wellFounded_lt))

/-- From an element compiling goes to what its component stands for, or to one of the children. -/
theorem finite_leads (registry : Registry) (a : Call) : {b | a.Leads registry b}.Finite := by
  obtain ⟨e, n, s⟩ := a
  cases hc : registry.get? n.tag with
  | some c =>
    refine (Set.finite_singleton (⟨e + 1, c.expand n, s⟩ : Call)).subset fun b hb => ?_
    cases hb with
    | expansion hc' _ =>
      cases hc.symm.trans hc'
      rfl
    | child hc' => cases hc.symm.trans hc'
  | none =>
    -- a child that is come to is told by its kind, its start, and how many are before it
    let call (kind : Widget.Kind) (id : WidgetId) (i : Nat) : Call :=
      ⟨e, n.children.getD i n,
        (buildChildren registry e id true (n.children.take i) (startWidget kind n s).2).2⟩
    by_cases hstarts : ∃ kind id handlers t, Widget.Kind.ofTag? n.tag = some kind ∧
        startWidget kind n s = (.ok (id, handlers), t)
    · obtain ⟨kind, id, handlers, t, hk, hs⟩ := hstarts
      refine ((Set.finite_lt_nat n.children.length).image (call kind id)).subset fun b hb => ?_
      cases hb with
      | expansion hc' _ => cases hc.symm.trans hc'
      | @child _ _ child _ _ _ _ _ _ before after _ hk' hs' hsplit _ _ hbefore =>
        cases hk.symm.trans hk'
        cases hs.symm.trans hs'
        exact ⟨before.length, by simp [hsplit], by simp [call, hs, hsplit, hbefore]⟩
    · refine Set.finite_empty.subset fun b hb => ?_
      cases hb with
      | expansion hc' _ => cases hc.symm.trans hc'
      | child _ hk hs => exact hstarts ⟨_, _, _, _, hk, hs⟩

theorem finite_reached (registry : Registry) (a : Call) :
    {b | ReflTransGen (Call.Leads registry) a b}.Finite := by
  induction a using (wellFounded_leads registry).induction with
  | _ a ih =>
    have hnext : (⋃ b ∈ {b | a.Leads registry b}, {c | ReflTransGen (Call.Leads registry) b c}).Finite :=
      (finite_leads registry a).biUnion ih
    refine (hnext.insert a).subset fun c hc => ?_
    rcases hc.cases_head with rfl | ⟨b, hab, hbc⟩
    · exact Set.mem_insert _ _
    · exact Set.mem_insert_of_mem _ (Set.mem_biUnion hab hbc)

end ends

section built

/-- A widget that is built has built each of its children. -/
theorem built_of_child {child : Node} (h : (buildNode registry e n s).1 = .ok id)
    (hc : registry.get? n.tag = none) (hmem : child ∈ n.children) (haside : isAside child = false) :
    ∃ t id', (buildNode registry e child t).1 = .ok id' := by
  cases hk : Widget.Kind.ofTag? n.tag with
  | none =>
    rw [buildNode_unknown hc hk] at h
    cases h
  | some kind =>
    cases hs : startWidget kind n s with
    | mk r t =>
      cases r with
      | error f =>
        rw [outcome_of_startWidget_error hc hk hs] at h
        cases h
      | ok started =>
        rw [outcome_of_startWidget hc hk hs] at h
        cases hr : buildChildren registry e started.1 kind.isContainer n.children t with
        | mk r u =>
          rw [hr] at h
          cases r with
          | error f => cases h
          | ok _ =>
            obtain ⟨before, after, hsplit⟩ := List.append_of_mem hmem
            rw [hsplit, buildChildren_append] at hr
            obtain ⟨_, v, -, hrest⟩ := Effect.bind_eq_ok hr
            rw [buildChildren_cons] at hrest
            obtain ⟨_, w, hchild, -⟩ := Effect.bind_eq_ok hrest
            rw [run_buildChild] at hchild
            obtain ⟨hstyle, hscript⟩ := Bool.or_eq_false_iff.mp haside
            cases hholds : kind.isContainer with
            | false =>
              simp only [hstyle, hscript, hholds] at hchild
              cases hchild
            | true =>
              simp only [hstyle, hscript, hholds] at hchild
              obtain ⟨id', x, hnode, -⟩ := Effect.bind_eq_ok hchild
              exact ⟨v, id', congrArg Prod.fst hnode⟩

/-- In an element that is built, nothing is nested in more components than may be open. -/
theorem Nested.built (h : Nested registry n k m) (hn : (buildNode registry 0 n s).1 = .ok id) :
    k ≤ maxExpansions ∧ ∃ t id', (buildNode registry k m t).1 = .ok id' := by
  induction h with
  | root => exact ⟨Nat.zero_le _, s, id, hn⟩
  | @expanded k m c _ hc ih =>
    obtain ⟨-, t, id', hm⟩ := ih
    by_cases he : k < maxExpansions
    · rw [buildNode_component hc he] at hm
      exact ⟨he, t, id', hm⟩
    · rw [buildNode_tooDeep hc he] at hm
      cases hm
  | child _ hc hmem haside ih =>
    obtain ⟨hle, t, id', hm⟩ := ih
    exact ⟨hle, built_of_child hm hc hmem haside⟩

end built

section reached

variable (h : ReflTransGen (Call.Leads registry) a b)

include h

theorem nested_of_reached (ha : Nested registry n a.expansions a.node)
    (hle : a.expansions ≤ maxExpansions) :
    Nested registry n b.expansions b.node ∧ b.expansions ≤ maxExpansions := by
  induction h with
  | refl => exact ⟨ha, hle⟩
  | tail _ hstep ih => exact ⟨hstep.nested ih.1, hstep.expansions_le ih.2⟩

theorem outcome_error_of_reached {f : Error} (hb : b.outcome registry = .error f) :
    a.outcome registry = .error f := by
  induction h with
  | refl => exact hb
  | tail _ hstep ih => exact ih (hstep.outcome_error hb)

end reached

/-- Compiling fails for a component that nests too deep just where it comes to such a component. -/
theorem tooDeep_iff (ha : a.expansions ≤ maxExpansions) :
    a.outcome registry = .error (tooDeep name) ↔
      ∃ m s c, ReflTransGen (Call.Leads registry) a ⟨maxExpansions, m, s⟩ ∧
        registry.get? m.tag = some c ∧ c.name = name := by
  constructor
  · intro h
    induction a using (wellFounded_leads registry).induction with
    | _ a ih =>
      rcases Call.tooDeep_cases h with ⟨c, hc, he, hname⟩ | ⟨b, hstep, hb⟩
      · obtain ⟨e, m, s⟩ := a
        cases Nat.le_antisymm ha he
        exact ⟨m, s, c, .refl, hc, hname⟩
      · obtain ⟨m, s, c, hreached, hc, hname⟩ := ih b hstep (hstep.expansions_le ha) hb
        exact ⟨m, s, c, .head hstep hreached, hc, hname⟩
  · rintro ⟨m, s, c, hreached, hc, rfl⟩
    refine outcome_error_of_reached hreached ?_
    dsimp only [Call.outcome]
    rw [buildNode_tooDeep hc (Nat.lt_irrefl _)]
    rfl

end steps

/-- The outcome of a fragment is that of its element. -/
theorem outcome_buildFragment (registry : Registry) (tree : Tree) (n : Node) :
    (buildFragment registry tree n).1.map Fragment.root =
      Call.outcome registry ⟨0, n, { tree }⟩ := by
  unfold buildFragment Call.outcome
  change _ = ((buildNode registry 0 n).run { tree }).1
  split
  · next hr =>
    rw [hr]
    rfl
  · next hr =>
    rw [hr]
    rfl

/-- Compiling ends, whatever the components expand to: it comes to finitely many elements and never to one
again in the same state. No path to one of them goes through more components than are allowed, and none in
an element that is compiled. Where compiling comes to a component inside as many as are allowed, it fails and
names that component; else it does not fail so. -/
theorem buildFragment_ends (registry : Registry) (tree : Tree) (n : Node) :
    (WellFounded fun b a : Call => a.Leads registry b) ∧
    {b | ReflTransGen (Call.Leads registry) ⟨0, n, { tree }⟩ b}.Finite ∧
    (∀ b, ReflTransGen (Call.Leads registry) ⟨0, n, { tree }⟩ b →
      Nested registry n b.expansions b.node ∧ b.expansions ≤ maxExpansions) ∧
    (∀ fragment, (buildFragment registry tree n).1 = .ok fragment →
      ∀ k m, Nested registry n k m → k ≤ maxExpansions) ∧
    ∀ name, (buildFragment registry tree n).1 = .error (tooDeep name) ↔
      ∃ m s c, ReflTransGen (Call.Leads registry) ⟨0, n, { tree }⟩ ⟨maxExpansions, m, s⟩ ∧
        registry.get? m.tag = some c ∧ c.name = name := by
  have hout := outcome_buildFragment registry tree n
  refine ⟨wellFounded_leads registry, finite_reached registry _, fun b hb => ?_, fun fragment h k m hm => ?_,
    fun name => ?_⟩
  · exact nested_of_reached hb .root (Nat.zero_le _)
  · rw [h] at hout
    exact (hm.built hout.symm).1
  · rw [← tooDeep_iff (Nat.zero_le _), ← hout]
    cases (buildFragment registry tree n).1 <;> simp [Except.map]

/-- A component that stands for itself. -/
def mirror : Component where
  name := "mirror"
  params := []
  template := .ofTag "mirror"

example : (buildFragment ⟨[("mirror", mirror)]⟩ {} (.ofTag "mirror")).1.map Fragment.root =
    .error (tooDeep "mirror") := by
  cbv

end Hypermedia.Markup
