import Hypermedia.Script.Access

/-! Arguments of functions that come with the program, and the errors they raise. -/
namespace Hypermedia.Script

structure Invocation where
  builtin : Builtin
  site : Site
  arguments : List Value

namespace Invocation

variable (c : Invocation)

/-- The argument at a position, counted from one; a missing one is absent. -/
def value (n : Nat) : Value :=
  c.arguments.getD (n - 1) .nil

def has (n : Nat) : Bool :=
  n ≤ c.arguments.length

/-- Ends with an error of the function, at the line that calls it. -/
def fail {α : Type} (message : String) : Act α :=
  Act.raiseAt c.site.position (Bytes.ofString message)

/-- Ends with an error about an argument; the object of a method call does not count. -/
def argumentFault {α : Type} (n : Nat) (message : Bytes) : Act α :=
  let place : Bytes := match c.site.naming with
    | some ⟨"method", name⟩ =>
      if n = 1 then
        Bytes.ofString "calling '" ++ name ++ Bytes.ofString "' on bad self ("
      else
        Bytes.ofString ("bad argument #" ++ decimal (n - 1) ++ " to '") ++ name ++
          Bytes.ofString "' ("
    | some ⟨_, name⟩ =>
      Bytes.ofString ("bad argument #" ++ decimal n ++ " to '") ++ name ++ Bytes.ofString "' ("
    | none => Bytes.ofString ("bad argument #" ++ decimal n ++ " to '" ++ c.builtin.name ++ "' (")
  Act.raiseAt c.site.position (place ++ message ++ Bytes.ofString ")")

def typeFault {α : Type} (n : Nat) (expected : String) : Act α := do
  let got ← if c.has n then Act.look (·.typeName (c.value n)) else pure (Bytes.ofString "no value")
  c.argumentFault n (Bytes.ofString (expected ++ " expected, got ") ++ got)

def any (n : Nat) : Act Value :=
  if c.has n then return c.value n
  else c.argumentFault n (Bytes.ofString "value expected")

def table (n : Nat) : Act TableId :=
  match c.value n with
  | .table t => return t
  | _ => c.typeFault n "table"

/-- An argument that is or spells a number. -/
def number (n : Nat) : Act Number :=
  match (c.value n).toNumber? with
  | some x => return x
  | none => c.typeFault n "number"

def int (n : Nat) : Act Int64 := do
  let x ← c.number n
  match x.toInt? with
  | some i => return i
  | none => c.argumentFault n (Bytes.ofString "number has no integer representation")

/-- An argument that equals an integer, or a default when it is absent. -/
def intOr (n : Nat) (d : Int64) : Act Int64 :=
  if (c.value n).isNil then return d else c.int n

def text (n : Nat) : Act Bytes :=
  match (c.value n).toText? with
  | some s => return s
  | none => c.typeFault n "string"

def textOr (n : Nat) (d : Bytes) : Act Bytes :=
  if (c.value n).isNil then return d else c.text n

/-- Ends with an error of conversion, which has no line. -/
def conversionFault {α : Type} (n : Nat) (target : String) : Act α :=
  Act.fault (Bytes.ofString ("bad argument #" ++ decimal n ++ ": error converting Lua " ++
    (c.value n).fineTypeName ++ " to " ++ target))

def asText (n : Nat) : Act String :=
  Act.orFault (Act.textArgument n none (c.value n))

def asFunction (n : Nat) : Act FunctionId :=
  match c.value n with
  | .function f => return f
  | _ => c.conversionFault n "function"

def asTable (n : Nat) : Act TableId :=
  match c.value n with
  | .table t => return t
  | _ => c.conversionFault n "table"

def asFloatOr (n : Nat) (d : Float) : Act Float :=
  if (c.value n).isNil then return d
  else match (c.value n).toNumber? with
    | some x => return x.toFloat
    | none => c.conversionFault n "f64 (expected number or string coercible to number)"

end Invocation

end Hypermedia.Script
