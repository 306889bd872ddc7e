import Hypermedia.Decimal.Read
import Hypermedia.Json

/-! Attribute values. -/
namespace Hypermedia.Widget

inductive Attribute where
  | int (value : Int)
  | float (value : Float)
  | bool (value : Bool)
  | str (value : String)
  deriving Inhabited

namespace Attribute

/-- Whether a text is an unsigned decimal fraction: digits on both sides of a point, on the left
perhaps none. -/
def isFraction (s : List Char) : Bool :=
  match s.dropWhile Char.isDigit with
  | '.' :: places => !places.isEmpty && places.all Char.isDigit
  | _ => false

/-- Reads attribute text: integers and fractions become numbers, all else stays text. -/
def coerce (raw : String) : Attribute :=
  let cs := raw.toList
  let (_, digits) := Decimal.takeSign cs
  match Decimal.int64? cs with
  | some i => int i
  | none =>
    if isFraction digits then
      match Decimal.float? cs with
      | some x => float x
      | none => str raw
    else str raw

def asText? : Attribute → Option String
  | str s => some s
  | _ => none

/-- Zero, `false`, the empty text and the text `false` are not truthy. -/
def isTruthy : Attribute → Bool
  | bool b => b
  | int i => i != 0
  | float x => x != 0.0
  | str s => s != "" && s != "false"

def toJson : Attribute → Json
  | int i => .int i
  | float x => if x.isNaN || x.isInf then .null else .float x
  | bool b => .bool b
  | str s => .str s

def text : Attribute → String
  | int i => String.ofList (Json.integer i)
  | float x => String.ofList (Decimal.plain x)
  | bool b => if b then "true" else "false"
  | str s => s

end Attribute

end Hypermedia.Widget
