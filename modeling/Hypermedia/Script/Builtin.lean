import Hypermedia.Script.Value
import Hypermedia.Widget.Kind

/-! Functions that scripts find and do not define. -/
namespace Hypermedia.Script

inductive BaseFunction where
  | assert | error | getmetatable | ipairs | next | pairs | pcall | rawequal | rawget | rawlen
  | rawset | select | setmetatable | tonumber | tostring | type | xpcall | print
  deriving DecidableEq, Repr

inductive TextFunction where
  | byte | char | find | format | gmatch | gsub | len | lower | matching | rep | reverse | sub
  | upper
  deriving DecidableEq, Repr

inductive SequenceFunction where
  | concat | insert | remove | sort | unpack
  deriving DecidableEq, Repr

inductive MathFunction where
  | abs | ceil | cos | deg | exp | floor | fmod | log | max | min | modf | rad | random | sin
  | sqrt | tan | tointeger | type | ult
  deriving DecidableEq, Repr

inductive TimeFunction where
  | clock | date | difftime | time
  deriving DecidableEq, Repr

inductive SessionFunction where
  | onChange | find | style | timeout | chocl | alert | confirm | prompt
  deriving DecidableEq, Repr

/-- A function that no script defines, with what it was made with. -/
inductive Builtin where
  | base (f : BaseFunction)
  | text (f : TextFunction)
  | sequence (f : SequenceFunction)
  | math (f : MathFunction)
  | time (f : TimeFunction)
  | session (f : SessionFunction)
  /-- The step of `ipairs`. -/
  | nextItem
  /-- The step of `gmatch`; two cells hold where to go on and where the last match ended. -/
  | nextMatch (subject pattern : Bytes) (position : Nat)
  | textArithmetic (op : BinaryOp)
  | textNegation
  | refuseWrite
  | pairsOf (table : TableId)
  | sizeOf (table : TableId)
  | construct (kind : Widget.Kind)
  | append
  | start (actions : List Action.Instruction) (owner : Option WidgetId)
  | close (callback : Option (FunctionId × Value))
  deriving Inhabited

namespace BaseFunction

def named : List (String × BaseFunction) :=
  [("assert", assert), ("error", error), ("getmetatable", getmetatable), ("ipairs", ipairs),
    ("next", next), ("pairs", pairs), ("pcall", pcall), ("rawequal", rawequal), ("rawget", rawget),
    ("rawlen", rawlen), ("rawset", rawset), ("select", select), ("setmetatable", setmetatable),
    ("tonumber", tonumber), ("tostring", tostring), ("type", type), ("xpcall", xpcall),
    ("print", print)]

end BaseFunction

namespace TextFunction

def named : List (String × TextFunction) :=
  [("byte", byte), ("char", char), ("find", find), ("format", format), ("gmatch", gmatch),
    ("gsub", gsub), ("len", len), ("lower", lower), ("match", matching), ("rep", rep),
    ("reverse", reverse), ("sub", sub), ("upper", upper)]

end TextFunction

namespace SequenceFunction

def named : List (String × SequenceFunction) :=
  [("concat", concat), ("insert", insert), ("remove", remove), ("sort", sort), ("unpack", unpack)]

end SequenceFunction

namespace MathFunction

def named : List (String × MathFunction) :=
  [("abs", abs), ("ceil", ceil), ("cos", cos), ("deg", deg), ("exp", exp), ("floor", floor),
    ("fmod", fmod), ("log", log), ("max", max), ("min", min), ("modf", modf), ("rad", rad),
    ("random", random), ("sin", sin), ("sqrt", sqrt), ("tan", tan), ("tointeger", tointeger),
    ("type", type), ("ult", ult)]

end MathFunction

namespace TimeFunction

def named : List (String × TimeFunction) :=
  [("clock", clock), ("date", date), ("difftime", difftime), ("time", time)]

end TimeFunction

namespace SessionFunction

def named : List (String × SessionFunction) :=
  [("on_change", onChange), ("find", find), ("style", style), ("timeout", timeout),
    ("chocl", chocl), ("alert", alert), ("confirm", confirm), ("prompt", prompt)]

end SessionFunction

def nameIn {α : Type} [DecidableEq α] (f : α) (entries : List (String × α)) : String :=
  ((entries.find? fun e => e.2 = f).map (·.1)).getD "?"

/-- The name of a function in messages when its call site has none. -/
def Builtin.name : Builtin → String
  | base f => nameIn f BaseFunction.named
  | text f => "string." ++ nameIn f TextFunction.named
  | sequence f => "table." ++ nameIn f SequenceFunction.named
  | math f => "math." ++ nameIn f MathFunction.named
  | time f => "os." ++ nameIn f TimeFunction.named
  | _ => "?"

end Hypermedia.Script
