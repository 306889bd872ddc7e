import Hypermedia.Decimal.Binary

/-! Reading numbers. -/
namespace Hypermedia.Decimal

def valueOf (ds : List Char) : Nat :=
  ds.foldl (fun n c => 10 * n + (c.toNat - 48)) 0

/-- The digits, if the text is a run of at least one decimal digit. -/
def natural? (s : List Char) : Option Nat :=
  if s.isEmpty || !s.all Char.isDigit then none else some (valueOf s)

def takeSign : List Char → Bool × List Char
  | '-' :: rest => (true, rest)
  | '+' :: rest => (false, rest)
  | s => (false, s)

/-- A signed integer of 64 bits: an optional sign and decimal digits. -/
def int64? (s : List Char) : Option Int :=
  let (negative, ds) := takeSign s
  (natural? ds).bind fun n =>
    let value : Int := if negative then -(n : Int) else n
    if -(Nat.pow 2 63 : Int) ≤ value ∧ value < Nat.pow 2 63 then some value else none

/-- An unsigned integer of 64 bits: an optional plus sign and decimal digits. -/
def index? (s : List Char) : Option Nat :=
  let ds := match s with
    | '+' :: rest => rest
    | s => s
  (natural? ds).bind fun n => if n < Nat.pow 2 64 then some n else none

/-- The exponent that ends a decimal number; an empty text is the exponent zero. -/
def exponent? : List Char → Option Int
  | [] => some 0
  | c :: rest =>
    if c = 'e' ∨ c = 'E' then
      let (negative, ds) := takeSign rest
      (natural? ds).map fun n => if negative then -(n : Int) else n
    else none

/-- Digits with an optional point among them and an optional exponent. -/
def unsigned? (negative : Bool) (s : List Char) : Option Float :=
  let whole := s.takeWhile Char.isDigit
  let (fraction, rest) := match s.dropWhile Char.isDigit with
    | '.' :: rest => (rest.takeWhile Char.isDigit, rest.dropWhile Char.isDigit)
    | rest => ([], rest)
  if whole.isEmpty && fraction.isEmpty then none
  else (exponent? rest).map fun e =>
    ofDecimal negative (valueOf (whole ++ fraction)) (e - fraction.length)

/-- A decimal number, or one of the words `inf`, `infinity` and `nan` in any letter case. -/
def float? (s : List Char) : Option Float :=
  let (negative, body) := takeSign s
  let word := body.map Char.toLower
  if word = "inf".toList ∨ word = "infinity".toList then
    some (ofRatio negative (Nat.pow 10 311) 1)
  else if word = "nan".toList then some (0.0 / 0.0)
  else unsigned? negative body

end Hypermedia.Decimal
