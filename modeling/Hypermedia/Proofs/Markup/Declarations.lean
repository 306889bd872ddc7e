import Hypermedia.Proofs.Markup.Growth
import Hypermedia.Proofs.Style.Declared

/-! Components that a document declares: each is registered as it is come to, and stays so if what comes
later fails. -/
namespace Hypermedia

namespace Registry

variable {space : Option String}

/-- The components that declarations stand for, up to the first that is malformed. -/
def readable (space : Option String) (ns : List Node) : List Component :=
  ((ns.map (Component.ofNode · space)).takeWhile Except.isOk).filterMap Except.toOption

theorem readable_cons_of_ok {n : Node} {c : Component} (h : Component.ofNode n space = .ok c) (ns : List Node) :
    readable space (n :: ns) = c :: readable space ns := by
  rw [readable, List.map_cons, h, List.takeWhile_cons_of_pos rfl]
  rfl

theorem readable_cons_of_error {n : Node} {e : CompileError} (h : Component.ofNode n space = .error e)
    (ns : List Node) : readable space (n :: ns) = [] := by
  rw [readable, List.map_cons, h, List.takeWhile_cons_of_neg (by simp [Except.isOk, Except.toBool])]
  rfl

theorem registerAll_snd (r : Registry) (space : Option String) (ns : List Node) :
    (r.registerAll space ns).2 = (readable space ns).foldl register r := by
  induction ns generalizing r with
  | nil => rfl
  | cons n ns ih =>
    rw [registerAll]
    cases h : Component.ofNode n space with
    | ok c =>
      rw [readable_cons_of_ok h]
      exact ih _
    | error e =>
      rw [readable_cons_of_error h]
      rfl

theorem isOk_registerAll (r : Registry) (space : Option String) (ns : List Node) :
    (r.registerAll space ns).1.isOk = ns.all fun n => (Component.ofNode n space).isOk := by
  induction ns generalizing r with
  | nil => rfl
  | cons n ns ih =>
    rw [registerAll, List.all_cons]
    cases Component.ofNode n space with
    | ok c => exact ih _
    | error e => rfl

/-- The component that a name is declared for last. -/
def lastOf (cs : List Component) (name : String) : Option Component :=
  cs.reverse.find? (·.name = name)

/-- Each name stands for the component that was registered for it last. -/
theorem get?_foldl_register (cs : List Component) (r : Registry) (name : String) :
    (cs.foldl register r).get? name = (lastOf cs name).or (r.get? name) := by
  induction cs generalizing r with
  | nil => rfl
  | cons c cs ih =>
    rw [List.foldl_cons, ih, register, Dict.get?_insert, lastOf, lastOf, List.reverse_cons,
      List.find?_append, Option.or_assoc]
    congr 1
    by_cases hname : name = c.name
    · simp [hname]
    · simp [hname, Ne.symm hname]

end Registry

namespace Markup

open Effect (Moves)

/-- The components that a child of a page declares. -/
def components (child : Node) : List Component :=
  if child.tag = "complib" then Registry.readable (child.attribute? "namespace") child.children
  else if child.tag = "component" then Registry.readable none [child]
  else []

/-- Whether all of a child of a page can be read. -/
def isReadable (child : Node) : Bool :=
  if child.tag = "complib" then
    child.children.all fun n => (Component.ofNode n (child.attribute? "namespace")).isOk
  else if child.tag = "component" then (Component.ofNode child none).isOk
  else if child.tag = "style" then (Style.compileRules (bodyOf child) none).isOk
  else true

/-- The children of a page that are come to: those up to the first that cannot be read, and that one. -/
def reached : List Node → List Node
  | [] => []
  | child :: rest => child :: if isReadable child then reached rest else []

/-- The components that a document declares in its page before anything fails. -/
def declarations (document : Node) : List Component :=
  match pageElement? document with
  | none => []
  | some page => if 1 < (contentNodes page).length then [] else (reached page.children).flatMap components

/-- An answer that is no document declares nothing. -/
def fragmentDeclarations (n : Node) : List Component :=
  if n.tag ≠ "celx" ∧ n.tag ≠ "page" then [] else declarations n

/-- What a child of a page declares is registered, whether or not all of it can be read. -/
theorem run_declare (p : Page) (child : Node) (s : Workspace) :
    (declare p child s).2 = { s with registry := (components child).foldl Registry.register s.registry } ∧
      (declare p child s).1.isOk = isReadable child := by
  unfold declare components isReadable
  by_cases hlibrary : child.tag = "complib"
  · have hregistry := Registry.registerAll_snd s.registry (child.attribute? "namespace") child.children
    have hok := Registry.isOk_registerAll s.registry (child.attribute? "namespace") child.children
    simp only [if_pos hlibrary, declareLibrary, Registry.registerLibrary]
    rw [Effect.run_bind, Effect.run_get_bind, Effect.run_set_bind, ← hregistry, ← hok]
    cases (s.registry.registerAll (child.attribute? "namespace") child.children).1 with
    | ok => exact ⟨rfl, rfl⟩
    | error e => exact ⟨rfl, rfl⟩
  by_cases hcomponent : child.tag = "component"
  · simp only [if_neg hlibrary, if_pos hcomponent, declareComponent]
    rw [Effect.run_bind]
    cases h : Component.ofNode child none with
    | ok c =>
      rw [Registry.readable_cons_of_ok h]
      exact ⟨rfl, rfl⟩
    | error e =>
      rw [Registry.readable_cons_of_error h]
      exact ⟨rfl, rfl⟩
  simp only [if_neg hlibrary, if_neg hcomponent]
  by_cases hstyle : child.tag = "style"
  · simp only [if_pos hstyle]
    cases Style.compileRules (bodyOf child) none with
    | ok rules => exact ⟨rfl, rfl⟩
    | error e => exact ⟨rfl, rfl⟩
  · simp only [if_neg hstyle]
    split
    · exact ⟨rfl, rfl⟩
    · exact ⟨rfl, rfl⟩

theorem run_declareAll (children : List Node) (p : Page) (s : Workspace) :
    (children.foldlM declare p s).2 =
      { s with registry := ((reached children).flatMap components).foldl Registry.register s.registry } := by
  induction children generalizing p s with
  | nil => rfl
  | cons child children ih =>
    obtain ⟨hworkspace, hok⟩ := run_declare p child s
    rw [List.foldlM_cons, Effect.run_bind, reached, ← hok, List.flatMap_cons, List.foldl_append]
    cases hr : declare p child s with
    | mk result t =>
      rw [hr] at hworkspace
      obtain rfl := hworkspace
      cases result with
      | ok p => exact ih p _
      | error e => rfl

/-- Building the content of a page leaves the components as they are. -/
theorem registry_buildContent (n : Node) (s : Workspace) : (buildContent n s).2.registry = s.registry := by
  rw [run_buildContent]

/-- Compiling a page declares what is reached of it, and builds its content with that or nothing at all. -/
theorem state_compileElement (page : Node) (s : Workspace) :
    let declared := { s with
      registry := ((reached page.children).flatMap components).foldl Registry.register s.registry }
    (compileElement page s).2 = declared ∨
    ∃ n rest, contentNodes page = n :: rest ∧ (compileElement page s).2 = (buildContent n declared).2 := by
  have hdeclared := run_declareAll page.children
    { properties := page.attributes, title := page.attribute? "title" } s
  unfold compileElement
  dsimp only
  rw [Effect.run_bind]
  cases hr : page.children.foldlM declare
      { properties := page.attributes, title := page.attribute? "title" } s with
  | mk result t =>
    rw [hr] at hdeclared
    obtain rfl : t = _ := hdeclared
    cases result with
    | error e => exact .inl rfl
    | ok declared =>
      dsimp only
      cases contentNodes page with
      | nil => exact .inl rfl
      | cons n rest =>
        refine .inr ⟨n, rest, rfl, ?_⟩
        dsimp only
        rw [Effect.run_bind]
        cases buildContent n _ with
        | mk result u => cases result <;> rfl

theorem registry_compileElement (page : Node) (s : Workspace) :
    (compileElement page s).2.registry =
      ((reached page.children).flatMap components).foldl Registry.register s.registry := by
  obtain h | ⟨n, rest, -, h⟩ := state_compileElement page s <;> rw [h]
  exact registry_buildContent n _

theorem registry_compilePage (document : Node) (s : Workspace) :
    (compilePage document s).2.registry = (declarations document).foldl Registry.register s.registry := by
  unfold compilePage declarations
  cases pageElement? document with
  | none => rfl
  | some page =>
    dsimp only
    split
    · rfl
    · exact registry_compileElement page s

theorem state_compileFragment (n : Node) (s : Workspace) : (compileFragment n s).2 =
    if n.tag ≠ "celx" ∧ n.tag ≠ "page" then (buildContent n s).2 else (compilePage n s).2 := by
  unfold compileFragment
  split
  · rfl
  · rw [Effect.run_bind]
    cases compilePage n s with
    | mk result t =>
      cases result with
      | error e => rfl
      | ok page =>
        dsimp only
        cases page.content <;> rfl

theorem registry_compileFragment (n : Node) (s : Workspace) :
    (compileFragment n s).2.registry = (fragmentDeclarations n).foldl Registry.register s.registry := by
  rw [state_compileFragment, fragmentDeclarations]
  split
  · exact registry_buildContent n s
  · exact registry_compilePage n s

/-- Whatever comes of compiling a document or an answer, afterwards each name stands for the component that
was declared for it last before anything failed, or for what it stood for before. -/
theorem compile_registers_declarations (document : Node) (s : Workspace) (name : String) :
    (compilePage document s).2.registry.get? name =
        (Registry.lastOf (declarations document) name).or (s.registry.get? name) ∧
      (compileFragment document s).2.registry.get? name =
        (Registry.lastOf (fragmentDeclarations document) name).or (s.registry.get? name) := by
  constructor
  · rw [registry_compilePage, Registry.get?_foldl_register]
  · rw [registry_compileFragment, Registry.get?_foldl_register]

/-- A component without parameters, whose template is an element with the given tag. -/
def rowOf (tag : String) : Component where
  name := "row"
  params := []
  template := .ofTag tag

def declarationOf (tag : String) : Node :=
  .mk "component" [("name", "row")] none [.ofTag tag] none

/-- A page with a library in which a component without a name follows one with a name. -/
def brokenLibrary : Node :=
  .mk "page" [] none [.mk "complib" [] none [declarationOf "tower", .ofTag "component"] none, .ofTag "text"] none

def knownRow : Workspace where
  registry := ⟨[("row", rowOf "text")]⟩

/-- A library that fails in the middle has replaced a component that was known before it. -/
theorem brokenLibrary_replaces : knownRow.registry.get? "row" = some (rowOf "text") ∧
    (∃ e t, compilePage brokenLibrary knownRow = (.error e, t) ∧ t.registry.get? "row" = some (rowOf "tower")) ∧
    (∃ e t, compileFragment brokenLibrary knownRow = (.error e, t) ∧
      t.registry.get? "row" = some (rowOf "tower")) ∧
    rowOf "tower" ≠ rowOf "text" := by
  refine ⟨rfl, ⟨_, _, rfl, rfl⟩, ⟨_, _, rfl, rfl⟩, fun hsame => ?_⟩
  have htag : "tower" = "text" := congrArg (fun c => c.template.tag) hsame
  exact absurd htag (by decide)

end Markup

end Hypermedia
