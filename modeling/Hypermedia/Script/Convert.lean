import Hypermedia.Decimal.Format
import Hypermedia.Script.Service
import Hypermedia.Script.World

/-! Values of scripts as text, attributes, style values and words. -/
namespace Hypermedia.Script

/-- A double as widgets show it: in full, integers with `.0`. -/
def floatDisplay (x : Float) : String :=
  if x.isNaN then "nan"
  else
    let plain := Decimal.plain x
    if x.isInf then String.ofList plain
    else if plain.all (fun c => c != '.') && x.abs < 1e16 then String.ofList (plain ++ ['.', '0'])
    else String.ofList plain

/-- A value as widgets show it; a scope has a number only while it is alive. -/
def Value.display (isAlive : ScopeId → Bool) (v : Value) : String :=
  match v with
  | .nil => "nil"
  | .bool b => if b then "true" else "false"
  | .number (.int i) => String.ofList (Json.integer i.toInt)
  | .number (.float x) => floatDisplay x
  | .str s => Bytes.text s
  | .handle _ (.widget id) => "widget: " ++ id.text
  | .handle _ (.scope id) =>
    if isAlive id then "scope: " ++ decimal id.index else "userdata: " ++ v.addressText
  | .handle _ (.failure _) => "error: 0x0"
  | v => v.typeName ++ ": " ++ v.addressText

def Value.toAttribute? : Value → Option Widget.Attribute
  | .number (.int i) => some (.int i.toInt)
  | .number (.float x) => some (.float x)
  | .bool b => some (.bool b)
  | .str s => some (.str (Bytes.text s))
  | _ => none

def Value.ofAttribute : Widget.Attribute → Value
  | .int i => .int (Int64.ofInt i)
  | .float x => .float x
  | .bool b => .bool b
  | .str s => .ofString s

namespace World

variable (w : World) (isAlive : ScopeId → Bool)

/-- The style value a value stands for, with tables read to a given depth. -/
def styleWithin : Nat → Value → Style.Value
  | _, .nil => .null
  | _, .bool b => .bool b
  | _, .number (.int i) => .int i.toInt
  | _, .number (.float x) => .float x
  | 0, .table _ => .list []
  | n + 1, .table t => .list ((w.table t).sequence.map (styleWithin n))
  | _, v => .str (v.display isAlive)

/-- Whether the sequences in a table nest less deep than a given depth. -/
def nestsWithin : Nat → Value → Bool
  | 0, .table _ => false
  | n + 1, .table t => (w.table t).sequence.all (nestsWithin n)
  | _, _ => true

def maxNesting : Nat := Nat.pow 2 62

/-- The style value a value stands for; a table that holds itself has none, and is read without end. -/
def toStyle? (v : Value) : Option Style.Value :=
  let depth := w.tables.size + maxNesting
  if w.nestsWithin depth v then some (w.styleWithin isAlive depth v) else none

/-- The words of a value: the items of a table, or those of a text between blanks. -/
def toWords (v : Value) : Except String (List String) :=
  match v with
  | .table t => .ok ((w.table t).sequence.map (·.display isAlive))
  | .str s => .ok ((Text.words (Bytes.text s).toList).map String.ofList)
  | .nil => .ok []
  | v => .error ("groups must be a table or string, got " ++ v.fineTypeName)

def offer (v : Value) : Offer where
  text := if v.isNil then none else some (v.display isAlive)
  datum := v.toAttribute?
  words := w.toWords isAlive v
  typeName := v.fineTypeName

end World

end Hypermedia.Script
