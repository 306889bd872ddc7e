import Hypermedia.Markup.Reader

/-! Inlining: documents with the resources they refer to put in. -/
namespace Hypermedia.Session

/-- Libraries that refer to libraries deeper than this are rejected. -/
def maxInlineDepth : Nat := 16

def isSourceable (tag : String) : Bool :=
  tag == "style" || tag == "script" || tag == "complib"

abbrev Fetch (σ : Type) := String → σ → Except Error String × σ

inductive InlineStop where
  | failed (cause : Error)
  | outOfBudget

/-- How inlining ended, the element as far as it was inlined, and the state after the fetches. -/
structure Inlined (σ : Type) (α : Type) where
  outcome : Except InlineStop Unit
  value : α
  state : σ

variable {σ : Type}

/-- An element after its library's children and attributes joined it. -/
def joinLibrary (n library : Node) : Node :=
  (n.withChildren (n.children ++ library.children)).setAttributes library.attributes

def inlineAll (inlineOne : Node → σ → Inlined σ Node) : List Node → σ → Inlined σ (List Node)
  | [], s => ⟨.ok (), [], s⟩
  | n :: rest, s =>
    let first := inlineOne n s
    match first.outcome with
    | .error stop => ⟨.error stop, first.value :: rest, first.state⟩
    | .ok () =>
      let more := inlineAll inlineOne rest first.state
      ⟨more.outcome, first.value :: more.value, more.state⟩

/-- A library put into the element that refers to it as `src`, after its own resources. -/
def inlineLibrary (inlineOne : Node → σ → Inlined σ Node) (depth : Nat) (src body : String)
    (n : Node) (s : σ) : Inlined σ Node :=
  if maxInlineDepth ≤ depth then
    let reason := "component libraries nested too deeply"
    ⟨.error (.failed (.compile (.malformedComponent src reason))), n, s⟩
  else match Markup.parse body with
    | .error fault => ⟨.error (.failed (.compile (.markup fault))), n, s⟩
    | .ok library =>
      let inlined := inlineOne library s
      match inlined.outcome with
      | .error stop => ⟨.error stop, n, inlined.state⟩
      | .ok () => ⟨.ok (), joinLibrary n inlined.value, inlined.state⟩

/-- The resource of one element put into it; a style or script body becomes its text. -/
def inlineSource (fetch : Fetch σ) (inlineOne : Node → σ → Inlined σ Node) (depth : Nat)
    (n : Node) (s : σ) : Inlined σ Node :=
  match if isSourceable n.tag then n.attribute? "src" else none with
  | none => ⟨.ok (), n, s⟩
  | some src =>
    let n := (n.removeAttribute "src").2
    match fetch src s with
    | (.error e, s) => ⟨.error (.failed e), n, s⟩
    | (.ok body, s) =>
      if n.tag = "complib" then inlineLibrary inlineOne depth src body n s
      else ⟨.ok (), n.withText (some body), s⟩

/-- Inlines an element at a library depth, then its children, those of a fetched library among
them. -/
def inlineWithin (fetch : Fetch σ) : Nat → Nat → Node → σ → Inlined σ Node
  | 0, _, n, s => ⟨.error .outOfBudget, n, s⟩
  | budget + 1, depth, n, s =>
    let sourced := inlineSource fetch (inlineWithin fetch budget (depth + 1)) depth n s
    match sourced.outcome with
    | .error stop => ⟨.error stop, sourced.value, sourced.state⟩
    | .ok () =>
      -- the children of a library have been searched at their own depth, and are again at this one
      let below := inlineAll (inlineWithin fetch budget depth) sourced.value.children sourced.state
      ⟨below.outcome, sourced.value.withChildren below.value, below.state⟩

/-- Inlines a document; elements nested deeper than `budget` are not reached. -/
def inlineSources (fetch : Fetch σ) (budget : Nat) (n : Node) (s : σ) : Inlined σ Node :=
  inlineWithin fetch budget 0 n s

end Hypermedia.Session
