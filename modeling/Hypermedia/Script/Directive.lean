import Hypermedia.Script.Number

/-! Directives of formats: how they lay out numbers and texts. -/
namespace Hypermedia.Script

/-- What stands between the percent sign of a directive and its letter. -/
structure Directive where
  left : Bool := false
  plus : Bool := false
  space : Bool := false
  alternate : Bool := false
  zeros : Bool := false
  width : Nat := 0
  precision : Option Nat := none

namespace Directive

def isModifier (b : UInt8) : Bool :=
  Bytes.isDigit b || b == 46 || b == 45 || b == 43 || b == 32 || b == 35

def withFlag (d : Directive) (b : UInt8) : Directive :=
  match Char.ofNat b.toNat with
  | '-' => { d with left := true }
  | '+' => { d with plus := true }
  | ' ' => { d with space := true }
  | '#' => { d with alternate := true }
  | _ => { d with zeros := true }

def takeTwoDigits (s : Bytes) : Bytes × Bytes :=
  let ds := (s.take 2).takeWhile Bytes.isDigit
  (ds, s.drop ds.length)

/-- Reads what stands before the letter: flags, a width, and a precision where one is allowed. -/
def read? (flags : String) (precise : Bool) (s : Bytes) : Option Directive :=
  let isFlag (b : UInt8) := flags.toList.any fun c => c.toNat == b.toNat
  let d : Directive := (s.takeWhile isFlag).foldl withFlag {}
  let rest := s.dropWhile isFlag
  if rest.head? == some 48 then none
  else
    let (width, rest) := takeTwoDigits rest
    let d := { d with width := Number.decimalValue width }
    match rest with
    | [] => some d
    | 46 :: rest =>
      let (places, rest) := takeTwoDigits rest
      if precise && rest.isEmpty then some { d with precision := some (Number.decimalValue places) }
      else none
    | _ => none

variable (d : Directive)

def pad (s : Bytes) : Bytes :=
  let blanks := List.replicate (d.width - s.length) 32
  if d.left then s ++ blanks else blanks ++ s

/-- A sign and digits, filled up to the width with zeros between them if `zeros`, else with
blanks. -/
def padNumber (zeros : Bool) (sign digits : List Char) : Bytes :=
  let fill := if zeros && !d.left then
      List.replicate (d.width - sign.length - digits.length) '0'
    else []
  d.pad (Bytes.ofChars (sign ++ fill ++ digits))

def signOf (negative : Bool) : List Char :=
  if negative then ['-'] else if d.plus then ['+'] else if d.space then [' '] else []

/-- Digits with as many zeros in front as the precision asks for; zero has no digits at precision
zero. -/
def withPrecision (n : Nat) (digits : List Char) : List Char :=
  match d.precision with
  | none => digits
  | some 0 => if n = 0 then [] else digits
  | some p => List.replicate (p - digits.length) '0' ++ digits

def signedInt (i : Int64) : Bytes :=
  let n := i.toInt.natAbs
  d.padNumber (d.zeros && d.precision.isNone) (d.signOf (i < 0))
    (d.withPrecision n (Decimal.digitsOf n))

/-- The bits of an integer as a number in a base. -/
def unsignedInt (base : Nat) (isUpper : Bool) (i : Int64) : Bytes :=
  let n := i.toBitVec.toNat
  let digits := d.withPrecision n (Nat.toDigits base n)
  let digits := if isUpper then digits.map Char.toUpper else digits
  let mark : List Char :=
    if d.alternate && base == 16 && n != 0 then ['0', if isUpper then 'X' else 'x'] else []
  let digits :=
    if d.alternate && base == 8 && digits.head? != some '0' then '0' :: digits else digits
  d.padNumber (d.zeros && d.precision.isNone) mark digits

def hexDigits (n value : Nat) : List Char :=
  let ds := Nat.toDigits 16 value
  List.replicate (n - ds.length) '0' ++ ds

/-- A finite double in hexadecimal digits with a binary exponent, without its sign. -/
def hexFloat (precision : Option Nat) (alternate : Bool) (x : Float) : List Char :=
  let (_, biased, fraction) := Decimal.fields x
  let exponent : Int := if biased = 0 then (if fraction = 0 then 0 else -1022) else biased - 1023
  let mantissa := if biased = 0 then fraction else fraction + Decimal.leadingBit
  let (lead, digits) : Nat × List Char := match precision with
    | some p =>
      if 13 ≤ p then
        (mantissa / Decimal.leadingBit, hexDigits 13 fraction ++ List.replicate (p - 13) '0')
      else
        let m := Decimal.roundEven mantissa (Nat.pow 16 (13 - p))
        (m / Nat.pow 16 p, if p = 0 then [] else hexDigits p (m % Nat.pow 16 p))
    | none =>
      let ds := ((hexDigits 13 fraction).reverse.dropWhile (· == '0')).reverse
      (mantissa / Decimal.leadingBit, ds)
  let point : List Char := if digits.isEmpty && !alternate then [] else ['.']
  '0' :: 'x' :: Nat.toDigits 16 lead ++ point ++ digits ++
    'p' :: (if exponent < 0 then '-' else '+') :: Decimal.digitsOf exponent.natAbs

def floatDigits (letter : Char) (x : Float) : List Char :=
  let (num, den) := (Decimal.decode x).ratio
  let places := d.precision.getD 6
  match letter with
  | 'f' =>
    let s := Decimal.fixed num den places
    if places = 0 && d.alternate then s ++ ['.'] else s
  | 'e' => Decimal.scientific num den places d.alternate
  | 'g' => Decimal.general num den places d.alternate
  | _ => hexFloat d.precision d.alternate x

def float (letter : Char) (x : Float) : Bytes :=
  let upper (s : List Char) := if letter.isUpper then s.map Char.toUpper else s
  let negative := (Decimal.fields x).1
  if x.isNaN then d.padNumber false (d.signOf true) (upper "nan".toList)
  else if x.isInf then d.padNumber false (d.signOf negative) (upper "inf".toList)
  else
    let digits := upper (d.floatDigits letter.toLower x)
    match letter.toLower, digits with
    | 'a', '0' :: mark :: digits => d.padNumber d.zeros (d.signOf negative ++ ['0', mark]) digits
    | _, digits => d.padNumber d.zeros (d.signOf negative) digits

def text (s : Bytes) : Bytes :=
  d.pad (match d.precision with
    | some p => s.take p
    | none => s)

end Directive

/-- A control character as an escape; a digit that follows must not be taken for part of it. -/
def escapedControl (b : UInt8) (rest : Bytes) : Bytes :=
  let ds := Decimal.digitsOf b.toNat
  let isAmbiguous := (rest.head?.map Bytes.isDigit).getD false
  let zeros := if isAmbiguous then List.replicate (3 - ds.length) '0' else []
  Bytes.ofChars ('\\' :: zeros ++ ds)

def escaped : Bytes → Bytes
  | [] => []
  | b :: rest =>
    (if b == 34 || b == 92 || b == 10 then [92, b]
      else if Bytes.isControl b then escapedControl b rest
      else [b]) ++ escaped rest

def quoted (s : Bytes) : Bytes :=
  34 :: escaped s ++ [34]

def numberLiteral : Number → Bytes
  | .int i =>
    if i == Int64.minValue then Bytes.ofString "0x8000000000000000" else Number.intText i
  | .float x =>
    if x.isNaN then Bytes.ofString "(0/0)"
    else
      let negative := (Decimal.fields x).1
      let digits := if x.isInf then "1e9999".toList else Directive.hexFloat none false x
      Bytes.ofChars (Decimal.signed negative digits)

end Hypermedia.Script
