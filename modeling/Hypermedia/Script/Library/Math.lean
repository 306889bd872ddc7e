import Hypermedia.Script.Library.Argument

/-! Functions on numbers. -/
namespace Hypermedia.Script

namespace Random

def rotate (x : UInt64) (n : UInt64) : UInt64 :=
  (x <<< n) ||| (x >>> (64 - n))

def next (r : Random) : UInt64 × Random :=
  let c := r.c ^^^ r.a
  let d := r.d ^^^ r.b
  (rotate (r.b * 5) 7 * 9,
    { a := r.a ^^^ d, b := r.b ^^^ c, c := c ^^^ (r.b <<< 17), d := rotate d 45 })

end Random

namespace Library

variable (c : Invocation)

def pi : Float := Float.ofBits 0x400921FB54442D18

/-- A whole double as an integer where it is one. -/
def whole (x : Float) : Value :=
  match Number.floatToInt? x with
  | some i => .int i
  | none => .float x

/-- An argument that is an integer and no text. -/
def plainInt? (n : Nat) : Option Int64 :=
  match c.value n with
  | .number (.int i) => some i
  | _ => none

def onFloat (f : Float → Float) : Act (List Value) := do
  return [.float (f (← c.number 1).toFloat)]

/-- A double rounded to a whole number; integers stay as they are. -/
def rounded (f : Float → Float) : Act (List Value) := do
  match plainInt? c 1 with
  | some i => return [.int i]
  | none => return [whole (f (← c.number 1).toFloat)]

def absolute : Act (List Value) := do
  match plainInt? c 1 with
  | some i => return [.int (if i < 0 then -i else i)]
  | none => onFloat c Float.abs

/-- The remainder of a division toward zero. -/
def remainder : Act (List Value) := do
  match plainInt? c 1, plainInt? c 2 with
  | some i, some j =>
    if j == 0 then c.argumentFault 2 (Bytes.ofString "zero")
    else return [.int (Int64.ofInt (Int.tmod i.toInt j.toInt))]
  | _, _ =>
    let x ← c.number 1
    let y ← c.number 2
    return [.float (Number.remainder x.toFloat y.toFloat)]

def logarithm : Act (List Value) := do
  let x := (← c.number 1).toFloat
  if (c.value 2).isNil then return [.float x.log]
  else
    let b := (← c.number 2).toFloat
    return [.float (if b == 2.0 then x.log2 else if b == 10.0 then x.log10 else x.log / b.log)]

/-- The one of some values that no other one beats. -/
def unbeaten (beats : Value → Value → Act Bool) (best : Value) : List Value → Act Value
  | [] => return best
  | v :: rest => do
    if ← beats v best then unbeaten beats v rest
    else unbeaten beats best rest

def unbeatenArgument (beats : Value → Value → Act Bool) : Act (List Value) := do
  return [← unbeaten beats (← c.any 1) c.arguments.tail]

def parts : Act (List Value) := do
  match plainInt? c 1 with
  | some i => return [.int i, .float 0.0]
  | none =>
    let x := (← c.number 1).toFloat
    let n := if x < 0.0 then x.ceil else x.floor
    return [whole n, .float (if x == n then 0.0 else x - n)]

def randomWord : Act UInt64 :=
  Act.update fun w =>
    let (x, random) := w.random.next
    (x, { w with random })

/-- A random number: below one, or an integer between bounds. -/
def randomNumber : Act (List Value) := do
  let x ← randomWord
  let between (lo hi : Int64) : Act (List Value) :=
    if hi < lo then
      c.argumentFault 2 (Bytes.ofString "interval is empty")
    else
      let n := (hi.toInt - lo.toInt).toNat + 1
      return [.int (Int64.ofInt (lo.toInt + x.toNat % n))]
  match c.arguments.length with
  | 0 => return [.float ((x >>> 11).toFloat / 9007199254740992.0)]
  | 1 =>
    let hi ← c.int 1
    if hi == 0 then return [.int x.toInt64] else between 1 hi
  | 2 => between (← c.int 1) (← c.int 2)
  | _ => c.fail "wrong number of arguments"

def toInteger : Act (List Value) := do
  match (c.value 1).toInt? with
  | some i => return [.int i]
  | none =>
    let _ ← c.any 1
    return [.nil]

def kindOf : Act (List Value) := do
  match c.value 1 with
  | .number (.int _) => return [.ofString "integer"]
  | .number (.float _) => return [.ofString "float"]
  | _ =>
    let _ ← c.any 1
    return [.nil]

def math (f : MathFunction) : Act (List Value) := do
  match f with
  | .abs => absolute c
  | .ceil => rounded c Float.ceil
  | .cos => onFloat c Float.cos
  | .deg => onFloat c (· * (180.0 / pi))
  | .exp => onFloat c Float.exp
  | .floor => rounded c Float.floor
  | .fmod => remainder c
  | .log => logarithm c
  | .max => unbeatenArgument c fun v best => Act.less best v false none
  | .min => unbeatenArgument c fun v best => Act.less v best false none
  | .modf => parts c
  | .rad => onFloat c (· * (pi / 180.0))
  | .random => randomNumber c
  | .sin => onFloat c Float.sin
  | .sqrt => onFloat c Float.sqrt
  | .tan => onFloat c Float.tan
  | .tointeger => toInteger c
  | .type => kindOf c
  | .ult => return [.bool ((← c.int 1).toBitVec.toNat < (← c.int 2).toBitVec.toNat)]

end Library

end Hypermedia.Script
