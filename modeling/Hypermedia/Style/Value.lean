import Hypermedia.Text.Cut
import Hypermedia.Decimal.Read
import Hypermedia.Json

/-! Values of style properties. -/
namespace Hypermedia.Style

inductive Value where
  | null
  | bool (value : Bool)
  | int (value : Int)
  | float (value : Float)
  | str (value : String)
  | list (items : List Value)
  deriving Inhabited

namespace Value

def unquote? (raw : List Char) : Option (List Char) :=
  match raw with
  | [] => none
  | first :: rest =>
    if (first = '"' ∨ first = '\'') ∧ rest.getLast? = some first then some rest.dropLast
    else none

def unbracket? (raw : List Char) : Option (List Char) :=
  match raw with
  | '[' :: rest => if rest.getLast? = some ']' then some rest.dropLast else none
  | _ => none

/-- Reads a value that is not a list: a keyword, a quoted text, a number, or else plain text. -/
def scalar (raw : List Char) : Value :=
  if raw = [] ∨ raw = ['~'] ∨ raw = "null".toList then null
  else if raw = "true".toList then bool true
  else if raw = "false".toList then bool false
  else match unquote? raw with
    | some s => str (String.ofList s)
    | none =>
      match Decimal.int64? raw with
      | some i => int i
      | none =>
        match Decimal.float? raw with
        | some x => float x
        | none => str (String.ofList raw)

/-- The items of a list, cut at every comma; blank ones do not count. -/
def itemsOf (inner : List Char) : List (List Char) :=
  ((Text.cut (· == ',') inner).map Text.trim).filter (fun item => !item.isEmpty)

/-- Reads a value whose brackets nest at most `depth` deep. -/
def parseWithin : Nat → List Char → Value
  | 0, raw => scalar (Text.trim raw)
  | depth + 1, raw =>
    let raw := Text.trim raw
    match unbracket? raw with
    | some inner => list ((itemsOf inner).map (parseWithin depth))
    | none => scalar raw

/-- Reads the written form of a value; no list nests deeper than its text is long. -/
def parse (raw : String) : Value :=
  parseWithin raw.length raw.toList

mutual

def text : Value → List Char
  | null => "null".toList
  | bool b => if b then "true".toList else "false".toList
  | int i => Json.integer i
  | float x => Decimal.plain x
  | str s => s.toList
  | list items => '[' :: textItems items ++ [']']

def textItems : List Value → List Char
  | [] => []
  | [item] => text item
  | item :: rest => text item ++ ',' :: ' ' :: textItems rest

end

end Value

end Hypermedia.Style
