import Hypermedia.Text.Cut
import Hypermedia.Decimal.Read
import Hypermedia.Error

/-! Selectors: the text that names widgets by kind, eid, group, state and index. -/
namespace Hypermedia

structure Compound where
  kind : Option String := none
  eid : Option String := none
  groups : List String := []
  state : Option String := none
  identity : Option Nat := none
  deriving DecidableEq, Repr, Inhabited

/-- How strongly a selector binds: eids and indexes first, then groups and states, then kinds. -/
structure Specificity where
  names : Nat := 0
  classes : Nat := 0
  kinds : Nat := 0
  deriving DecidableEq, Repr, Inhabited

namespace Specificity

def add (a b : Specificity) : Specificity :=
  ⟨a.names + b.names, a.classes + b.classes, a.kinds + b.kinds⟩

end Specificity

/-- The parts of a selector from the outermost ancestor to the subject, and its text. -/
structure Selector where
  source : String
  above : List Compound
  subject : Compound
  deriving DecidableEq, Repr, Inhabited

namespace Compound

def isMarker (c : Char) : Bool :=
  c == '#' || c == '.' || c == '/' || c == '@'

def pieces : List Char → List Char × List (Char × List Char)
  | [] => ([], [])
  | c :: rest =>
    let (first, more) := pieces rest
    if isMarker c then ([], (c, first) :: more) else (c :: first, more)

def addPiece (compound : Compound) : Char × List Char → Option Compound
  | (_, []) => none
  | ('#', name) => some { compound with eid := some (String.ofList name) }
  | ('.', name) => some { compound with groups := compound.groups ++ [String.ofList name] }
  | ('/', name) => some { compound with state := some (String.ofList name) }
  | (_, digits) => (Decimal.index? digits).map fun n => { compound with identity := some n }

/-- Reads a compound: a kind, or nothing or `*` for any kind, and marked pieces. -/
def parse? (part : List Char) : Option Compound :=
  let (kind, marked) := pieces part
  marked.foldlM addPiece
    { kind := if kind = [] ∨ kind = ['*'] then none else some (String.ofList kind) }

def specificity (c : Compound) : Specificity where
  names := if c.eid.isSome || c.identity.isSome then 1 else 0
  classes := c.groups.length + (if c.state.isSome then 1 else 0)
  kinds := if c.kind.isSome then 1 else 0

end Compound

namespace Selector

def parts (s : Selector) : List Compound :=
  s.above ++ [s.subject]

def parse (text : String) : Except SelectionError Selector :=
  match (Text.words text.toList).mapM Compound.parse? with
  | none => .error (.invalidSelector text)
  | some compounds =>
    match compounds.getLast? with
    | none => .error (.invalidSelector text)
    | some subject =>
      .ok { source := String.ofList (Text.trim text.toList)
            above := compounds.dropLast
            subject }

def specificity (s : Selector) : Specificity :=
  s.parts.foldl (fun sum part => sum.add part.specificity) {}

def hasState (s : Selector) : Bool :=
  s.parts.any (·.state.isSome)

end Selector

end Hypermedia
