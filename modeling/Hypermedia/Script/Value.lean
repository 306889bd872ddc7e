import Hypermedia.Action.Instruction
import Hypermedia.Script.Syntax
import Hypermedia.Widget.Basic

/-! Values of scripts. -/
namespace Hypermedia.Script

structure TableId where
  index : Nat
  deriving DecidableEq, Repr, Inhabited

/-- What a handle of a script stands for. -/
inductive Object where
  | widget (id : WidgetId)
  | scope (id : ScopeId)
  | failure (message : Bytes)
  deriving Inhabited

/-- A value of a script; handles with the same serial number are the same handle. -/
inductive Value where
  | nil
  | bool (value : Bool)
  | number (value : Number)
  | str (value : Bytes)
  | table (id : TableId)
  | function (id : FunctionId)
  | handle (serial : Nat) (object : Object)
  deriving Inhabited

namespace Value

def ofString (s : String) : Value := str (Bytes.ofString s)

def ofNat (n : Nat) : Value := number (.int (Int64.ofNat n))

def int (i : Int64) : Value := number (.int i)

def float (x : Float) : Value := number (.float x)

def isNil : Value → Bool
  | nil => true
  | _ => false

def isTruthy : Value → Bool
  | nil => false
  | bool b => b
  | _ => true

def isCallable : Value → Bool
  | function _ => true
  | _ => false

/-- Whether two values are the same without asking what they say of themselves. -/
def same : Value → Value → Bool
  | nil, nil => true
  | bool a, bool b => a == b
  | number a, number b => a.equal b
  | str a, str b => a == b
  | table a, table b => a == b
  | function a, function b => a == b
  | handle a _, handle b _ => a == b
  | _, _ => false

def typeName : Value → String
  | nil => "nil"
  | bool _ => "boolean"
  | number _ => "number"
  | str _ => "string"
  | table _ => "table"
  | function _ => "function"
  | handle _ _ => "userdata"

/-- The name of a value's type as widget operations report it. -/
def fineTypeName : Value → String
  | number (.int _) => "integer"
  | handle _ (.failure _) => "error"
  | v => v.typeName

def widget? : Value → Option WidgetId
  | handle _ (.widget id) => some id
  | _ => none

def scope? : Value → Option ScopeId
  | handle _ (.scope id) => some id
  | _ => none

def toNumber? : Value → Option Number
  | number n => some n
  | str s => Number.read? s
  | _ => none

def toInt? (v : Value) : Option Int64 :=
  v.toNumber?.bind Number.toInt?

def toText? : Value → Option Bytes
  | str s => some s
  | number n => some n.text
  | _ => none

def address (region index : Nat) : String :=
  "0x" ++ String.ofList (Nat.toDigits 16 (0x550000000000 + region * 0x100000000 + 32 * (index + 1)))

def addressText : Value → String
  | table id => address 1 id.index
  | function id => address 2 id.index
  | handle serial (.failure _) => address 3 serial
  | handle serial _ => address 4 serial
  | _ => "0x0"

end Value

end Hypermedia.Script
