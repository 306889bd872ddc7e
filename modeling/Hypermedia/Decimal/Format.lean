import Hypermedia.Decimal.Shortest

/-! Written forms of doubles. -/
namespace Hypermedia.Decimal

def digitsOf (n : Nat) : List Char :=
  Nat.toDigits 10 n

/-- Digits with a point after the first `point` of them, zeros filling up on either side. -/
def positional (digits : List Char) (point : Int) : List Char :=
  if point ≤ 0 then '0' :: '.' :: List.replicate (-point).toNat '0' ++ digits
  else if digits.length ≤ point then
    digits ++ List.replicate (point.toNat - digits.length) '0'
  else digits.take point.toNat ++ '.' :: digits.drop point.toNat

def signed (negative : Bool) (text : List Char) : List Char :=
  if negative then '-' :: text else text

/-- The shortest form without an exponent: `3`, `0.1`, `-0`, `NaN`, `inf`. -/
def plain (x : Float) : List Char :=
  if x.isNaN then "NaN".toList
  else
    let b := decode x
    if x.isInf then signed b.negative "inf".toList
    else
      let d := shortest b
      if d.digits = 0 then signed b.negative ['0']
      else
        let ds := digitsOf d.digits
        signed b.negative (positional ds (ds.length + d.exponent))

/-- The shortest form in a data document: `1.0` and `0.00001` in full, `1e+16` and `1e-6` with an
exponent. -/
def inDocument (x : Float) : List Char :=
  let b := decode x
  let d := shortest b
  if d.digits = 0 then signed b.negative "0.0".toList
  else
    let ds := digitsOf d.digits
    let point : Int := ds.length + d.exponent
    signed b.negative <|
      if 0 ≤ d.exponent ∧ point ≤ 16 then positional ds point ++ ['.', '0']
      else if -5 < point ∧ point ≤ 16 then positional ds point
      else
        let exponent := point - 1
        let mantissa := if ds.length = 1 then ds else positional ds 1
        mantissa ++ 'e' :: (if exponent < 0 then '-' else '+') :: digitsOf exponent.natAbs

/-- A ratio with a fixed number of places, a tie to the even digit. -/
def fixed (num den places : Nat) : List Char :=
  let ds := digitsOf (roundEven (num * Nat.pow 10 places) den)
  let ds := List.replicate (places + 1 - ds.length) '0' ++ ds
  if places = 0 then ds
  else ds.take (ds.length - places) ++ '.' :: ds.drop (ds.length - places)

/-- An exponent with its sign and at least two digits. -/
def exponentPart (e : Int) : List Char :=
  let ds := digitsOf e.natAbs
  (if e < 0 then '-' else '+') :: List.replicate (2 - ds.length) '0' ++ ds

/-- A ratio as one digit, a point, `places` digits and an exponent. -/
def scientific (num den places : Nat) (point : Bool) : List Char :=
  let d : Digits := if num = 0 then ⟨0, -places⟩ else significant num den (places + 1)
  let ds := digitsOf d.digits
  let ds := List.replicate (places + 1 - ds.length) '0' ++ ds
  let mantissa := match ds with
    | [] => []
    | first :: rest => if rest.isEmpty && !point then [first] else first :: '.' :: rest
  mantissa ++ 'e' :: exponentPart (if num = 0 then 0 else d.exponent + places)

/-- Digits after a point lose their trailing zeros, and the point goes with the last of them. -/
def dropFractionZeros (s : List Char) : List Char :=
  if s.contains '.' then
    let kept := s.reverse.dropWhile (· == '0')
    (if kept.head? = some '.' then kept.tail else kept).reverse
  else s

/-- A ratio with `n` significant digits: in full for exponents from -4 up to `n`, else with an
exponent. -/
def general (num den n : Nat) (keepZeros : Bool) : List Char :=
  let n := max n 1
  let d : Digits := if num = 0 then ⟨0, 1 - n⟩ else significant num den n
  let exponent : Int := if num = 0 then 0 else d.exponent + n - 1
  if exponent < -4 ∨ n ≤ exponent then
    let text := scientific num den (n - 1) keepZeros
    if keepZeros then text
    else dropFractionZeros (text.takeWhile (· != 'e')) ++ text.dropWhile (· != 'e')
  else
    let text := fixed num den (n - 1 - exponent).toNat
    if keepZeros then (if text.contains '.' then text else text ++ ['.'])
    else dropFractionZeros text

end Hypermedia.Decimal
