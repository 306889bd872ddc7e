import Hypermedia.Proofs.Markup.Declarations
import Mathlib

/-! The order of a page's children: what is declared for components, for styles and by scripts makes up three
lists that do not depend on each other, and nothing depends on where the content stands. -/
namespace Hypermedia.Markup

open Style (RuleMap)

/-- The rules that a child of a page declares. -/
def pageRules (child : Node) : List RuleMap :=
  if child.tag = "style" then (Style.compileRules (bodyOf child) none).toOption.toList else []

/-- The script that a child of a page is, if it is one. -/
def pageScripts (child : Node) : List String :=
  if child.tag = "script" then [String.ofList (Text.dedent (bodyOf child).toList)] else []

def declaresComponents (child : Node) : Bool :=
  child.tag == "component" || child.tag == "complib"

/-- The same children in an order in which those that declare components, the styles and the scripts each stand
as before among themselves. -/
structure Reorders (cs ds : List Node) : Prop where
  perm : cs.Perm ds
  components : cs.filter declaresComponents = ds.filter declaresComponents
  styles : cs.filter (·.tag == "style") = ds.filter (·.tag == "style")
  scripts : cs.filter (·.tag == "script") = ds.filter (·.tag == "script")

/-- A page with what some children declare for its rules and its scripts. -/
def Page.declaring (p : Page) (children : List Node) : Page :=
  { p with
    rules := (children.flatMap pageRules).foldl RuleMap.merge p.rules
    scripts := p.scripts ++ children.flatMap pageScripts }

/-- A page element with all that its children declare, before its content is built. -/
def declaredPage (page : Node) : Page :=
  Page.declaring { properties := page.attributes, title := page.attribute? "title" } page.children

/-- A workspace with the components that some children declare. -/
def Workspace.declaring (s : Workspace) (children : List Node) : Workspace :=
  { s with registry := (children.flatMap components).foldl Registry.register s.registry }

section projections

variable {cs ds : List Node}

/-- What children give of which only some give anything is what those give. -/
theorem flatMap_filter_of_nil {α : Type} {p : Node → Bool} {f : Node → List α}
    (h : ∀ c, p c = false → f c = []) (cs : List Node) : (cs.filter p).flatMap f = cs.flatMap f := by
  induction cs with
  | nil => rfl
  | cons c cs ih =>
    cases hp : p c with
    | true => rw [List.filter_cons_of_pos hp, List.flatMap_cons, List.flatMap_cons, ih]
    | false => rw [List.filter_cons_of_neg (by simp [hp]), List.flatMap_cons, h c hp, List.nil_append, ih]

theorem components_of_not_declares {c : Node} (h : declaresComponents c = false) : components c = [] := by
  obtain ⟨hcomponent, hlibrary⟩ : c.tag ≠ "component" ∧ c.tag ≠ "complib" := by
    simpa [declaresComponents] using h
  rw [components, if_neg hlibrary, if_neg hcomponent]

theorem Reorders.flatMap_components (h : Reorders cs ds) :
    cs.flatMap Markup.components = ds.flatMap Markup.components := by
  rw [← flatMap_filter_of_nil (fun _ => components_of_not_declares) cs, h.components,
    flatMap_filter_of_nil fun _ => components_of_not_declares]

theorem Reorders.flatMap_pageRules (h : Reorders cs ds) : cs.flatMap pageRules = ds.flatMap pageRules := by
  have hnone : ∀ c : Node, (c.tag == "style") = false → pageRules c = [] := fun c hc => by
    rw [pageRules, if_neg (by simpa using hc)]
  rw [← flatMap_filter_of_nil hnone cs, h.styles, flatMap_filter_of_nil hnone]

theorem Reorders.flatMap_pageScripts (h : Reorders cs ds) : cs.flatMap pageScripts = ds.flatMap pageScripts := by
  have hnone : ∀ c : Node, (c.tag == "script") = false → pageScripts c = [] := fun c hc => by
    rw [pageScripts, if_neg (by simpa using hc)]
  rw [← flatMap_filter_of_nil hnone cs, h.scripts, flatMap_filter_of_nil hnone]

theorem Reorders.page (h : Reorders cs ds) (p : Page) : p.declaring cs = p.declaring ds := by
  rw [Page.declaring, Page.declaring, h.flatMap_pageRules, h.flatMap_pageScripts]

theorem Reorders.workspace (h : Reorders cs ds) (s : Workspace) : s.declaring cs = s.declaring ds := by
  rw [Workspace.declaring, Workspace.declaring, h.flatMap_components]

end projections

section declaring

variable {p q : Page} {s t : Workspace} {child : Node} {children : List Node}

/-- What a child adds to its page is what it declares. -/
theorem page_of_declare (h : declare p child s = (.ok q, t)) : q = p.declaring [child] := by
  unfold declare at h
  split at h
  · next htag =>
    obtain ⟨_, u, -, hlast⟩ := Effect.bind_eq_ok h
    cases hlast
    simp [Page.declaring, pageRules, pageScripts, htag]
  split at h
  · next htag =>
    obtain ⟨_, u, -, hlast⟩ := Effect.bind_eq_ok h
    cases hlast
    simp [Page.declaring, pageRules, pageScripts, htag]
  split at h
  · next htag =>
    cases hr : Style.compileRules (bodyOf child) none with
    | ok rules =>
      rw [hr] at h
      cases h
      simp [Page.declaring, pageRules, pageScripts, htag, hr, Except.toOption]
    | error e =>
      rw [hr] at h
      cases h
  split at h
  · next htag =>
    cases h
    simp [Page.declaring, pageRules, pageScripts, htag]
  · next hstyle hscript =>
    cases h
    simp [Page.declaring, pageRules, pageScripts, hstyle, hscript]

/-- A child that can be read adds what it declares, and one that cannot fails. -/
theorem declare_ok_iff :
    declare p child s = (.ok q, t) ↔
      isReadable child = true ∧ q = p.declaring [child] ∧ t = s.declaring [child] := by
  obtain ⟨hworkspace, hok⟩ := run_declare p child s
  have hs : (declare p child s).2 = s.declaring [child] := by
    rw [hworkspace, Workspace.declaring, List.flatMap_singleton]
  cases hr : declare p child s with
  | mk result u =>
    rw [hr] at hok hs
    subst hs
    rw [← hok]
    cases result with
    | error e => exact ⟨nofun, fun h => nomatch h.1⟩
    | ok p' =>
      obtain rfl := page_of_declare hr
      constructor
      · intro h
        cases h
        exact ⟨rfl, rfl, rfl⟩
      · rintro ⟨-, rfl, rfl⟩
        rfl

theorem Page.declaring_cons (p : Page) (child : Node) (children : List Node) :
    p.declaring (child :: children) = (p.declaring [child]).declaring children := by
  simp [Page.declaring, List.foldl_append]

theorem Workspace.declaring_cons (s : Workspace) (child : Node) (children : List Node) :
    s.declaring (child :: children) = (s.declaring [child]).declaring children := by
  simp [Workspace.declaring, List.foldl_append]

/-- All children of a page together add what they declare, unless one cannot be read. -/
theorem declareAll_ok_iff : children.foldlM declare p s = (.ok q, t) ↔
    children.all isReadable = true ∧ q = p.declaring children ∧ t = s.declaring children := by
  induction children generalizing p s with
  | nil =>
    have hpage : p.declaring [] = p := by simp [Page.declaring]
    rw [hpage]
    constructor
    · intro h
      cases h
      exact ⟨rfl, rfl, rfl⟩
    · rintro ⟨-, rfl, rfl⟩
      rfl
  | cons child children ih =>
    rw [List.foldlM_cons, List.all_cons, Page.declaring_cons, Workspace.declaring_cons, Bool.and_eq_true]
    constructor
    · intro h
      obtain ⟨p', s', hfirst, hrest⟩ := Effect.bind_eq_ok h
      obtain ⟨hchild, rfl, rfl⟩ := declare_ok_iff.mp hfirst
      obtain ⟨hall, hq, ht⟩ := ih.mp hrest
      exact ⟨⟨hchild, hall⟩, hq, ht⟩
    · rintro ⟨⟨hchild, hall⟩, hq, ht⟩
      rw [Effect.run_bind, declare_ok_iff.mpr ⟨hchild, rfl, rfl⟩]
      exact ih.mpr ⟨hall, hq, ht⟩

end declaring

section pages

variable {p : Page} {s t : Workspace} {page : Node} {children : List Node}

/-- With at most one content element there is but one order of them. -/
theorem Reorders.contentNodes_eq (h : Reorders page.children children)
    (hone : ¬ 1 < (contentNodes page).length) :
    contentNodes (page.withChildren children) = contentNodes page := by
  have hperm : (contentNodes page).Perm (contentNodes (page.withChildren children)) := h.perm.filter _
  cases hcontent : contentNodes page with
  | nil =>
    rw [hcontent] at hperm
    exact List.nil_perm.mp hperm
  | cons n rest =>
    rw [hcontent] at hperm hone
    obtain rfl : rest = [] := List.length_eq_zero_iff.mp (by simpa using hone)
    exact (List.singleton_perm.mp hperm).symm

/-- A page is what its children declare, all in all, with the content that is built after them. -/
theorem compileElement_ok_iff : compileElement page s = (.ok p, t) ↔
    page.children.all isReadable = true ∧ match contentNodes page with
      | [] => p = declaredPage page ∧ t = s.declaring page.children
      | n :: _ => ∃ fragment, buildContent n (s.declaring page.children) = (.ok fragment, t) ∧
          p = { declaredPage page with
            rules := (declaredPage page).rules.merge fragment.rules, content := some fragment } := by
  constructor
  · intro h
    obtain ⟨declared, u, hdeclared, hrest⟩ := Effect.bind_eq_ok h
    obtain ⟨hall, rfl, rfl⟩ := declareAll_ok_iff.mp hdeclared
    refine ⟨hall, ?_⟩
    dsimp only at hrest
    cases hcontent : contentNodes page with
    | nil =>
      rw [hcontent] at hrest
      cases hrest
      exact ⟨rfl, rfl⟩
    | cons n rest =>
      rw [hcontent] at hrest
      obtain ⟨fragment, v, hbuilt, hlast⟩ := Effect.bind_eq_ok hrest
      cases hlast
      exact ⟨fragment, hbuilt, rfl⟩
  · rintro ⟨hall, hcontents⟩
    unfold compileElement
    dsimp only
    rw [Effect.run_bind, declareAll_ok_iff.mpr ⟨hall, rfl, rfl⟩]
    dsimp only
    cases hcontent : contentNodes page with
    | nil =>
      rw [hcontent] at hcontents
      obtain ⟨rfl, rfl⟩ := hcontents
      rfl
    | cons n rest =>
      rw [hcontent] at hcontents
      obtain ⟨fragment, hbuilt, rfl⟩ := hcontents
      dsimp only
      rw [Effect.run_bind, hbuilt]
      rfl

theorem Reorders.compileElement_ok_iff (h : Reorders page.children children)
    (hone : ¬ 1 < (contentNodes page).length) :
    compileElement page s = (.ok p, t) ↔ compileElement (page.withChildren children) s = (.ok p, t) := by
  have hall : children.all isReadable = page.children.all isReadable := h.perm.all_eq.symm
  have hpage : declaredPage (page.withChildren children) = declaredPage page := (h.page _).symm
  have hworkspace : s.declaring (page.withChildren children).children = s.declaring page.children :=
    (h.workspace s).symm
  rw [Markup.compileElement_ok_iff, Markup.compileElement_ok_iff, h.contentNodes_eq hone, hpage, hworkspace]
  exact and_congr_left' (Bool.eq_iff_iff.mp hall.symm)

/-- Where the children of the page stand in another document in another order, with declarations of components,
styles and scripts each among themselves as before, the two documents compile alike: from the same workspace
either both fail, or both give the same page and leave the same workspace. -/
theorem compilePage_reorders_iff {document reordered : Node} (hpage : pageElement? document = some page)
    (hreordered : pageElement? reordered = some (page.withChildren children))
    (h : Reorders page.children children) (s : Workspace) (p : Page) (t : Workspace) :
    compilePage document s = (.ok p, t) ↔ compilePage reordered s = (.ok p, t) := by
  have hcount : (contentNodes (page.withChildren children)).length = (contentNodes page).length :=
    (h.perm.filter _).length_eq.symm
  rw [compilePage, compilePage, hpage, hreordered]
  dsimp only
  rw [hcount]
  by_cases hone : 1 < (contentNodes page).length
  · rw [if_pos hone, if_pos hone]
  · rw [if_neg hone, if_neg hone]
    exact h.compileElement_ok_iff hone

/-- A component, a style, a script, and a content that calls the component. -/
def ordered : List Node :=
  [.mk "component" [("name", "row")] none [.ofTag "tower"] none, .mk "style" [] (some "Tower:\n  gap: 1") [] none,
    .mk "script" [] (some "count = 0") [] none, .ofTag "row"]

/-- The same the other way round. -/
def reversed : List Node :=
  [.ofTag "row", .mk "script" [] (some "count = 0") [] none, .mk "style" [] (some "Tower:\n  gap: 1") [] none,
    .mk "component" [("name", "row")] none [.ofTag "tower"] none]

/-- A page that declares its component after the content that calls it is no different. -/
theorem compilePage_reversed : Reorders ordered reversed ∧
    ∃ p t, compilePage (.mk "page" [] none ordered none) {} = (.ok p, t) ∧ p.content.isSome = true ∧
      compilePage (.mk "page" [] none reversed none) {} = (.ok p, t) := by
  have hreorders : Reorders ordered reversed := ⟨(List.reverse_perm _).symm, rfl, rfl, rfl⟩
  have hpage : pageElement? (.mk "page" [] none ordered none) = some (.mk "page" [] none ordered none) := rfl
  have hreversed : pageElement? (.mk "page" [] none reversed none) =
      some ((Node.mk "page" [] none ordered none).withChildren reversed) := rfl
  have hreadable : ordered.all isReadable = true := by decide +kernel
  have hbuilt : (buildContent (.ofTag "row") (({} : Workspace).declaring ordered)).1.isOk = true := by cbv
  refine ⟨hreorders, ?_⟩
  cases hr : buildContent (.ofTag "row") (({} : Workspace).declaring ordered) with
  | mk result t =>
    rw [hr] at hbuilt
    cases result with
    | error e => cases hbuilt
    | ok fragment =>
      have hok : ∃ p, compilePage (.mk "page" [] none ordered none) {} = (.ok p, t) ∧ p.content.isSome = true :=
        ⟨_, compileElement_ok_iff.mpr ⟨hreadable, fragment, hr, rfl⟩, rfl⟩
      obtain ⟨p, hok, hcontent⟩ := hok
      have hsame := compilePage_reorders_iff hpage hreversed hreorders {} p t
      exact ⟨p, t, hok, hcontent, hsame.mp hok⟩

end pages

end Hypermedia.Markup
