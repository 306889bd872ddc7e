import Hypermedia.Decimal.Format
import Hypermedia.Decimal.Read
import Hypermedia.Script.Bytes

/-! Numbers of scripts: integers that wrap around and doubles, their arithmetic, order and text. -/
namespace Hypermedia.Script

inductive Number where
  | int (value : Int64)
  | float (value : Float)
  deriving Inhabited

namespace Number

def integer? (x : Float) : Option Int :=
  if x.isNaN || x.isInf then none
  else
    let b := Decimal.decode x
    let magnitude : Option Nat :=
      if 0 ≤ b.exponent then some (b.mantissa * Nat.pow 2 b.exponent.toNat)
      else if b.mantissa % Nat.pow 2 (-b.exponent).toNat = 0 then
        some (b.mantissa / Nat.pow 2 (-b.exponent).toNat)
      else none
    magnitude.map fun n => if b.negative then -(n : Int) else n

def inRange (i : Int) : Bool :=
  -(Nat.pow 2 63 : Int) ≤ i && i < Nat.pow 2 63

def floatToInt? (x : Float) : Option Int64 :=
  (integer? x).bind fun i => if inRange i then some (Int64.ofInt i) else none

def toInt? : Number → Option Int64
  | int i => some i
  | float x => floatToInt? x

def ofInt (i : Int) : Float :=
  Decimal.ofRatio (i < 0) i.natAbs 1

def toFloat : Number → Float
  | int i => ofInt i.toInt
  | float x => x

def remainder (x y : Float) : Float :=
  if x.isNaN || y.isNaN || x.isInf || y == 0.0 then 0.0 / 0.0
  else if y.isInf then x
  else
    let a := Decimal.decode x
    let b := Decimal.decode y
    let e := min a.exponent b.exponent
    let m := a.mantissa * Nat.pow 2 (a.exponent - e).toNat
    let n := b.mantissa * Nat.pow 2 (b.exponent - e).toNat
    Decimal.ofBinary a.negative (m % n) e

/-- The remainder of a division of doubles toward negative infinity. -/
def modulo (x y : Float) : Float :=
  let r := remainder x y
  if (r > 0.0 && y < 0.0) || (r < 0.0 && y > 0.0) then r + y else r

def power (x y : Float) : Float :=
  if y == 2.0 then x * x else x.pow y

/-- A shift of bits to the left, or to the right for a negative amount; bits shifted out are
lost. -/
def shift (i amount : Int64) : Int64 :=
  let bits := i.toBitVec.toNat
  let n := amount.toInt
  if n ≤ -64 ∨ 64 ≤ n then 0
  else if n < 0 then Int64.ofNat (bits / Nat.pow 2 (-n).toNat)
  else Int64.ofNat (bits * Nat.pow 2 n.toNat)

/-- Whether the real number `i` is less than a double; with `orEqual` also when they are equal. -/
def intLess (i : Int) (x : Float) (orEqual : Bool) : Bool :=
  if x.isNaN then false
  else if x.isInf then x > 0.0
  else
    let b := Decimal.decode x
    let (num, den) := b.ratio
    let v : Int := if b.negative then -(num : Int) else num
    if orEqual then i * den ≤ v else i * den < v

def lessInt (x : Float) (i : Int) (orEqual : Bool) : Bool :=
  !x.isNaN && !intLess i x (!orEqual)

def less : Number → Number → Bool
  | int a, int b => a < b
  | float a, float b => a < b
  | int a, float b => intLess a.toInt b false
  | float a, int b => lessInt a b.toInt false

def lessEqual : Number → Number → Bool
  | int a, int b => a ≤ b
  | float a, float b => a ≤ b
  | int a, float b => intLess a.toInt b true
  | float a, int b => lessInt a b.toInt true

/-- Whether two numbers are the same real number. -/
def equal : Number → Number → Bool
  | int a, int b => a == b
  | float a, float b => a == b
  | int a, float b => floatToInt? b == some a
  | float a, int b => floatToInt? a == some b

def intText (i : Int64) : Bytes :=
  Bytes.ofChars (Decimal.signed (i < 0) (Decimal.digitsOf i.toInt.natAbs))

/-- A double with up to 14 significant digits; one that looks like an integer gets `.0`. -/
def floatText (x : Float) : Bytes :=
  if x.isNaN then Bytes.ofChars "-nan".toList
  else
    let b := Decimal.decode x
    if x.isInf then Bytes.ofChars (Decimal.signed b.negative "inf".toList)
    else
      let (num, den) := b.ratio
      let s := Decimal.general num den 14 false
      let s := if s.all Char.isDigit then s ++ ['.', '0'] else s
      Bytes.ofChars (Decimal.signed b.negative s)

def text : Number → Bytes
  | int i => intText i
  | float x => floatText x

def takeSign : Bytes → Bool × Bytes
  | 45 :: rest => (true, rest)
  | 43 :: rest => (false, rest)
  | s => (false, s)

def afterHexMark? : Bytes → Option Bytes
  | 48 :: b :: rest => if b == 120 || b == 88 then some rest else none
  | _ => none

def hexValue (ds : Bytes) : Nat :=
  ds.foldl (fun n b => 16 * n + (Bytes.hexValue? b).getD 0) 0

def decimalValue (ds : Bytes) : Nat :=
  ds.foldl (fun n b => 10 * n + (b.toNat - 48)) 0

/-- Reads an integer: hexadecimal ones wrap around, decimal ones must fit. -/
def readInt? (s : Bytes) : Option Int64 :=
  let (negative, body) := takeSign s
  match afterHexMark? body with
  | some ds =>
    if ds.isEmpty || !ds.all Bytes.isHex then none
    else
      let n := Int64.ofNat (hexValue ds)
      some (if negative then -n else n)
  | none =>
    if body.isEmpty || !body.all Bytes.isDigit then none
    else
      let n : Int := decimalValue body
      let n := if negative then -n else n
      if inRange n then some (Int64.ofInt n) else none

/-- Digits with an optional point among them: those before, those after, and the rest. -/
def takeFraction (isDigit : UInt8 → Bool) (s : Bytes) : Bytes × Bytes × Bytes :=
  let whole := s.takeWhile isDigit
  match s.dropWhile isDigit with
  | 46 :: rest => (whole, rest.takeWhile isDigit, rest.dropWhile isDigit)
  | rest => (whole, [], rest)

/-- The exponent that ends a number, after one of two marks; an empty text is the exponent zero. -/
def exponent? (mark : UInt8) : Bytes → Option Int
  | [] => some 0
  | b :: rest =>
    if Bytes.lower b == mark then
      let (negative, ds) := takeSign rest
      if ds.isEmpty || !ds.all Bytes.isDigit then none
      else
        let n : Int := decimalValue ds
        some (if negative then -n else n)
    else none

def readFloat? (s : Bytes) : Option Float :=
  let (negative, body) := takeSign s
  match afterHexMark? body with
  | some ds =>
    let (whole, fraction, rest) := takeFraction Bytes.isHex ds
    if whole.isEmpty && fraction.isEmpty then none
    else (exponent? 112 rest).map fun e =>
      Decimal.ofBinary negative (hexValue (whole ++ fraction)) (e - 4 * fraction.length)
  | none =>
    let (whole, fraction, rest) := takeFraction Bytes.isDigit body
    if whole.isEmpty && fraction.isEmpty then none
    else (exponent? 101 rest).map fun e =>
      Decimal.ofDecimal negative (decimalValue (whole ++ fraction)) (e - fraction.length)

def trimSpaces (s : Bytes) : Bytes :=
  ((s.dropWhile Bytes.isSpace).reverse.dropWhile Bytes.isSpace).reverse

def read? (s : Bytes) : Option Number :=
  let s := trimSpaces s
  match readInt? s with
  | some i => some (int i)
  | none => (readFloat? s).map float

end Number

end Hypermedia.Script
