import Hypermedia.Text.Margin
import Hypermedia.Style.Value
import Hypermedia.Error

/-! Rule blocks: indented text that gives selectors their properties. -/
namespace Hypermedia.Style

abbrev Properties := Dict Value

/-- Selectors with their properties, in the order of their first mention. -/
structure RuleMap where
  entries : List (String × Properties) := []
  deriving Inhabited

namespace RuleMap

def get? (m : RuleMap) (selector : String) : Option Properties :=
  m.entries.lookup selector

/-- Puts the properties of a selector in place of its old ones, or at the end. -/
def insert (m : RuleMap) (selector : String) (properties : Properties) : RuleMap :=
  if m.entries.any (·.1 == selector) then
    ⟨m.entries.map fun entry => if entry.1 == selector then (entry.1, properties) else entry⟩
  else ⟨m.entries ++ [(selector, properties)]⟩

def merge (m other : RuleMap) : RuleMap :=
  other.entries.foldl (fun m entry => m.insert entry.1 entry.2) m

def size (m : RuleMap) : Nat :=
  m.entries.length

def setProperty (m : RuleMap) (selector name : String) (value : Value) : RuleMap :=
  m.insert selector (((m.get? selector).getD Dict.empty).insert name value)

end RuleMap

/-- A line `key: value` or `key:`; a quoted key may hold colons. -/
structure Entry where
  key : List Char
  value : List Char

def quotedEntry? (quote : Char) (rest : List Char) : Option Entry :=
  match rest.dropWhile (· != quote) with
  | [] => none
  | _ :: after =>
    match Text.trimStart after with
    | ':' :: value => some ⟨rest.takeWhile (· != quote), Text.trim value⟩
    | _ => none

def plainEntry? (line : List Char) : Option Entry :=
  match Text.splitOnce [':', ' '] line with
  | some (key, value) => some ⟨Text.trim key, Text.trim value⟩
  | none => (Text.dropEnding [':'] line).map fun key => ⟨Text.trim key, []⟩

def Entry.ofLine? (line : List Char) : Option Entry :=
  match line with
  | '\'' :: rest => quotedEntry? '\'' rest
  | '"' :: rest => quotedEntry? '"' rest
  | _ => plainEntry? line

def nestSelector (parent child : List Char) : List Char :=
  if child.contains '&' then Text.exchange '&' parent child
  else match child with
    | c :: _ =>
      if c = '.' ∨ c = '#' ∨ c = '/' ∨ c = '@' ∨ c = ':' then parent ++ child
      else parent ++ ' ' :: child
    | [] => parent ++ ' ' :: child

/-- The open blocks with their depths, innermost first, and the rules read so far. -/
structure Reading where
  blocks : List (Nat × List Char) := []
  rules : RuleMap := {}

/-- Blank lines and comments do not count; a comment has no colon. -/
def isSkipped (trimmed : List Char) : Bool :=
  match trimmed with
  | [] => true
  | c :: _ => c == '#' && !trimmed.contains ':'

/-- Depth of a line: the bytes of the blanks before it. -/
def depthOf (line : List Char) : Nat :=
  Text.byteLength (line.takeWhile Text.isBlank)

def Reading.line (r : Reading) (number : Nat) (line : List Char) :
    Except CompileError Reading :=
  let trimmed := Text.trim line
  if isSkipped trimmed then .ok r
  else
    let blocks := r.blocks.dropWhile (fun block => depthOf line ≤ block.1)
    match Entry.ofLine? trimmed with
    | none => .error (.style number
        ("expected 'key: value', found '" ++ String.ofList trimmed ++ "'"))
    | some entry =>
      match entry.value, blocks with
      | [], [] => .ok { r with blocks := [(depthOf line, entry.key)] }
      | [], (depth, parent) :: outer =>
        let inner := (depthOf line, nestSelector parent entry.key)
        .ok { r with blocks := inner :: (depth, parent) :: outer }
      | _ :: _, [] => .error (.style number
          ("property '" ++ String.ofList entry.key ++ "' outside of any selector"))
      | value, (_, selector) :: _ =>
        let value := Value.parse (String.ofList value)
        let rules := r.rules.setProperty (String.ofList selector) (String.ofList entry.key) value
        .ok { blocks, rules }

def Reading.lines (r : Reading) (number : Nat) : List (List Char) → Except CompileError Reading
  | [] => .ok r
  | l :: ls => do (← r.line number l).lines (number + 1) ls

/-- The text that is read for a block: its body, or the body nested in the selector `scope`. -/
def blockSource (text : List Char) : Option String → List Char
  | none => Text.dedent text
  | some scope =>
    '\'' :: scope.toList ++ "':\n".toList ++
      Text.indent (Text.dedent text) [' ', ' ', ' ', ' ']

/-- Reads a rule block; with a scope, bare properties belong to the scope itself. -/
def compileRules (text : String) (scope : Option String) : Except CompileError RuleMap := do
  let reading ← Reading.lines {} 1 (Text.lines (blockSource text.toList scope))
  return reading.rules

end Hypermedia.Style
