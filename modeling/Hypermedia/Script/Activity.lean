import Hypermedia.Script.Service
import Hypermedia.Script.World

/-! Activities of scripts: steps on the world, calls, failures, and requests to the session. -/
namespace Hypermedia.Script

/-- A line of a script, or of a function that comes with the program. -/
structure Position where
  line : Nat
  deriving DecidableEq

def chunkName : Bytes := Bytes.ofString "celx"

def Position.text (p : Position) : Bytes :=
  chunkName ++ Bytes.ofString ":" ++ Bytes.ofChars (Decimal.digitsOf p.line) ++ Bytes.ofString ": "

/-- Where a call stands: its line if a script makes it, what it calls the function, and whether it
is made within an operation. -/
structure Site where
  position : Option Position := none
  naming : Option Naming := none
  isNested : Bool := false

def Site.inner : Site := { isNested := true }

/-- How a statement ends: the next one follows, a loop is left, a label is looked for, or the
function gives back values. -/
inductive Flow where
  | next (environment : List Nat)
  | leave
  | jump (label : Bytes) (environment : List Nat)
  | giveBack (values : List Value)

def Flow.values : Flow → List Value
  | giveBack vs => vs
  | _ => []

/-- What is still to be done. Only `request` concerns the session; a `step` changes all of the world
but its scopes, which change by writes and new listeners alone. -/
inductive Code where
  | done (flow : Flow)
  | fail (error : Value)
  | step (f : World → World × Code)
  | assign (scope : ScopeId) (name : String) (value : Value) (k : Option Change → Code)
  | listen (scope : ScopeId) (name : String) (listener : Value) (k : Code)
  | call (function : FunctionId) (arguments : List Value) (site : Site) (k : List Value → Code)
  | tailCall (function : FunctionId) (arguments : List Value) (site : Site)
  | guard (body : Code) (k : Except Value Flow → Code)
  | request (service : Service) (k : Except String Field → Code)
  | caller (level : Nat) (k : Option Position → Code)
  | living (k : (ScopeId → Bool) → Code)

instance : Inhabited Code := ⟨.fail .nil⟩

/-- An activity that ends in a value; what follows is told what to go on with. -/
def Act (α : Type) : Type := (α → Code) → Code

namespace Act

instance : Monad Act where
  pure a := fun k => k a
  bind m f := fun k => m fun a => f a k

instance {α : Type} : Inhabited (Act α) := ⟨fun _ => .fail .nil⟩

def code (m : Act Flow) : Code := m .done

def raise {α : Type} (error : Value) : Act α := fun _ => .fail error

def update {α : Type} (f : World → α × World) : Act α := fun k =>
  .step fun w =>
    let (a, w) := f w
    (w, k a)

def look {α : Type} (f : World → α) : Act α := fun k => .step fun w => let a := f w; (w, k a)

def change (f : World → World) : Act Unit := fun k => .step fun w => (f w, k ())

/-- Writes a name in a scope, and gives the change if that made one. -/
def assign (scope : ScopeId) (name : String) (value : Value) : Act (Option Change) :=
  fun k => .assign scope name value k

def listen (scope : ScopeId) (name : String) (listener : Value) : Act Unit :=
  fun k => .listen scope name listener (k ())

def callFunction (f : FunctionId) (arguments : List Value) (site : Site) : Act (List Value) :=
  fun k => .call f arguments site k

def guarded (body : Act Flow) : Act (Except Value Flow) := fun k => .guard body.code k

def request (service : Service) : Act (Except String Field) := fun k => .request service k

/-- The position of the caller of the running function, or of a caller further out. -/
def caller (level : Nat) : Act (Option Position) := fun k => .caller level k

def living : Act (ScopeId → Bool) := fun k => .living k

def newTable (t : Table) : Act Value := update fun w =>
  let (id, w) := w.addTable t
  (.table id, w)

def newFunction (f : FunctionValue) : Act Value := update fun w =>
  let (id, w) := w.addFunction f
  (.function id, w)

def newHandle (object : Object) : Act Value := update (·.addHandle object)

def newCell (value : Value) : Act Nat := update (·.addCell value)

/-- Ends with an error of the session, which has no line. -/
def fault {α : Type} (message : Bytes) : Act α := do
  raise (← newHandle (.failure message))

def raiseAt {α : Type} (position : Option Position) (message : Bytes) : Act α :=
  raise (.str ((position.map Position.text).getD [] ++ message))

end Act

/-- What waits for the running code: a call for its values, or a guard for its end. -/
inductive Frame where
  | await (site : Site) (k : List Value → Code)
  | guard (k : Except Value Flow → Code)

inductive Outcome where
  | finished (flow : Flow)
  | failed (error : Value)
  | outOfFuel

def maxCalls : Nat := 190000

def maxNested : Nat := 195

/-- What waits, innermost first, and how deep calls nest. -/
structure Stack where
  frames : List Frame := []
  calls : Nat := 0
  nested : Nat := 0

namespace Stack

def Frame.isNested : Frame → Bool
  | .await site _ => site.isNested
  | .guard _ => true

def push (s : Stack) (f : Frame) : Stack :=
  { frames := f :: s.frames, calls := s.calls + 1
    nested := if Frame.isNested f then s.nested + 1 else s.nested }

def pop? (s : Stack) : Option (Frame × Stack) :=
  match s.frames with
  | [] => none
  | f :: frames =>
    some (f, { frames, calls := s.calls - 1
               nested := if Frame.isNested f then s.nested - 1 else s.nested })

/-- The call sites around the running function, innermost first. -/
def sites (s : Stack) : List Site :=
  s.frames.filterMap fun f => match f with
    | .await site _ => some site
    | .guard _ => none

/-- Why there is no room for another call, if there is none. -/
def overflow? (s : Stack) : Option String :=
  if maxCalls ≤ s.calls then some "stack overflow"
  else if maxNested ≤ s.nested then some "C stack overflow"
  else none

end Stack

def messageAt (position : Option Position) (message : String) : Value :=
  .str ((position.map Position.text).getD [] ++ Bytes.ofString message)

/-- How a run went: its end, the world, and the state of the session. -/
structure Run (σ : Type) where
  outcome : Outcome
  world : World
  state : σ

/-- Runs code on a stack; `apply` gives the code of a function's body. -/
def run {σ : Type} (host : Host σ) (apply : FunctionValue → List Value → Site → Code) :
    Nat → Code → Stack → World → σ → Run σ
  | 0, _, _, w, s => ⟨.outOfFuel, w, s⟩
  | n + 1, code, stack, w, s =>
    match code with
    | .done flow =>
      match stack.pop? with
      | none => ⟨.finished flow, w, s⟩
      | some (.await _ k, rest) => run host apply n (k flow.values) rest w s
      | some (.guard k, rest) => run host apply n (k (.ok flow)) rest w s
    | .fail e =>
      match stack.pop? with
      | none => ⟨.failed e, w, s⟩
      | some (.await _ _, rest) => run host apply n (.fail e) rest w s
      | some (.guard k, rest) => run host apply n (k (.error e)) rest w s
    | .step f =>
      let scopes := w.scopes
      let (w, code) := f w
      run host apply n code stack { w with scopes } s
    | .assign scope name value k =>
      let (c, scopes) := w.scopes.assign scope name value
      run host apply n (k c) stack { w with scopes } s
    | .listen scope name listener k =>
      run host apply n k stack { w with scopes := w.scopes.listen scope name listener } s
    | .call f arguments site k =>
      match stack.overflow? with
      | some message => run host apply n (.fail (messageAt site.position message)) stack w s
      | none =>
        let body := apply (w.functions.getD f.index default) arguments site
        run host apply n body (stack.push (.await site k)) w s
    | .tailCall f arguments site =>
      match w.functions.getD f.index default with
      | .native b =>
        let body := apply (.native b) arguments site
        run host apply n body (stack.push (.await site (.done ∘ .giveBack))) w s
      | closure => run host apply n (apply closure arguments site) stack w s
    | .guard body k => run host apply n body (stack.push (.guard k)) w s
    | .request service k =>
      let (answer, s) := host.perform service s
      run host apply n (k answer) stack w s
    | .caller level k =>
      run host apply n (k ((stack.sites[level - 1]?).bind (·.position))) stack w s
    | .living k =>
      let held := host.held s ++ w.held
      run host apply n (k (w.scopes.isHeld held)) stack w s

end Hypermedia.Script
