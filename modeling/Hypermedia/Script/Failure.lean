import Hypermedia.Text.Cut
import Hypermedia.Decimal.Format

/-! Failures of scripts: message, line, and the handler they left. -/
namespace Hypermedia.Script

structure Origin where
  handler : String
  widget : String
  snippet : String
  deriving DecidableEq, Inhabited, Repr

/-- A failed script: its message, the line in its source when known, and where it surfaced. -/
structure Failure where
  message : String
  line : Option Nat := none
  origin : Option Origin := none
  deriving DecidableEq, Inhabited, Repr

/-- Line numbers are machine words; this is the first number that is none. -/
def wordLimit : Nat := Nat.pow 2 64

/-- The sum of two line numbers, where a sum that is no word stops the program. -/
def checkedSum (a b : Nat) : Option Nat :=
  if a + b < wordLimit then some (a + b) else none

/-- The sum of two line numbers, where a sum that is no word wraps around. -/
def wrappedSum (a b : Nat) : Option Nat :=
  some ((a + b) % wordLimit)

/-- One line of a snippet, given with the number of lines before it; the failing line is marked. -/
def snippetLine? (sum : Nat → Nat → Option Nat) (line : Nat) (entry : List Char × Nat) : Option (List Char) := do
  let number ← sum entry.2 1
  return (if number = line then ['>', ' '] else [' ', ' ']) ++ Text.trimEnd entry.1

/-- The source lines at most four away from `line`; nothing for line zero. -/
def snippetWith (sum : Nat → Nat → Option Nat) (source : List Char) (line : Nat) : Option (List Char) :=
  if line = 0 then some []
  else do
    let ls := Text.lines source
    let stop := min (← sum line 4) ls.length
    let near := (ls.zipIdx.take stop).drop (line - 5)
    return Text.join ['\n'] (← near.mapM (snippetLine? sum line))

/-- The snippet that goes with a failure. Its sums wrap around, so that nothing stops it. -/
def snippet (source : List Char) (line : Nat) : List Char :=
  (snippetWith wrappedSum source line).getD []

namespace Failure

/-- The failure with a line, unless it has one already or the line is zero. -/
def orLine (f : Failure) (line : Nat) : Failure :=
  if f.line.isNone && 0 < line then { f with line := some line } else f

def withOrigin (f : Failure) (handler widget source : String) : Failure :=
  let origin : Origin :=
    { handler, widget, snippet := String.ofList (snippet source.toList (f.line.getD 0)) }
  { f with origin := some origin }

def lineText (line : Nat) : String :=
  String.ofList (Decimal.digitsOf line)

def text (f : Failure) : String :=
  match f.origin, f.line with
  | some o, line =>
    "error in '" ++ o.handler ++ "'\n\n" ++ o.widget ++ ":\n\n" ++
      (if o.snippet.isEmpty then "" else o.snippet ++ "\n\n") ++
      (match line with
        | some n => "line " ++ lineText n ++ ": " ++ f.message
        | none => f.message)
  | none, some n => "script error, line " ++ lineText n ++ ": " ++ f.message
  | none, none => "script error: " ++ f.message

end Failure

end Hypermedia.Script
