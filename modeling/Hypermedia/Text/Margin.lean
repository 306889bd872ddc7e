import Hypermedia.Text.Cut

/-! The common left margin of a text: taking it away, and adding one. -/
namespace Hypermedia.Text

/-- Margins are made of spaces and tabs only. -/
def isMarginal (c : Char) : Bool :=
  c == ' ' || c == '\t'

def lead (line : List Char) : List Char :=
  line.takeWhile isMarginal

def commonStart : List Char → List Char → List Char
  | a :: as, b :: bs => if a = b then a :: commonStart as bs else []
  | _, _ => []

/-- The longest lead that all non-blank lines share. -/
def margin (ls : List (List Char)) : List Char :=
  match (ls.filter (fun l => !allBlank l)).map lead with
  | [] => []
  | first :: rest => rest.foldl commonStart first

/-- A line without the margin; a blank line becomes empty. -/
def dropMargin (m line : List Char) : List Char :=
  if allBlank line then [] else (m.isPrefixOf? line).getD line

def dedent (s : List Char) : List Char :=
  let ls := lines s
  join ['\n'] (ls.map (dropMargin (margin ls)))

/-- Puts `lead` in front of every non-blank line and empties the others. -/
def indent (s lead : List Char) : List Char :=
  join ['\n'] ((lines s).map fun l => if allBlank l then [] else lead ++ l)

end Hypermedia.Text
