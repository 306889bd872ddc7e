/-! Doubles as exact ratios: taking a double apart, and rounding a ratio to the nearest double. -/
namespace Hypermedia.Decimal

/-- The value `± mantissa · 2 ^ exponent` of a finite double. -/
structure Binary where
  negative : Bool
  mantissa : Nat
  exponent : Int
  deriving Repr, DecidableEq

/-- The bit above the fraction, which a normal double does not store. -/
def leadingBit : Nat := Nat.pow 2 52

/-- Sign, biased exponent and fraction of a double. -/
def fields (x : Float) : Bool × Nat × Nat :=
  let bits := x.toBits.toNat
  (bits / Nat.pow 2 63 == 1, bits / leadingBit % Nat.pow 2 11, bits % leadingBit)

def decode (x : Float) : Binary :=
  let (negative, biased, fraction) := fields x
  if biased = 0 then ⟨negative, fraction, -1074⟩
  else ⟨negative, fraction + leadingBit, (biased : Int) - 1075⟩

/-- `num / den` rounded to an integer, a tie to the even neighbour. -/
def roundEven (num den : Nat) : Nat :=
  let quotient := num / den
  let rest := 2 * (num % den)
  if rest < den then quotient
  else if den < rest then quotient + 1
  else quotient + quotient % 2

/-- Numerator and denominator of `num / den · 2 ^ e`. -/
def scale (num den : Nat) (e : Int) : Nat × Nat :=
  if 0 ≤ e then (num * Nat.pow 2 e.toNat, den) else (num, den * Nat.pow 2 (-e).toNat)

/-- The exponent of the last place of a double next to `num / den`. -/
def lastPlace (num den : Nat) : Int :=
  let guess : Int := (num.log2 : Int) - den.log2 - 52
  let (n, d) := scale num den (-guess)
  max (-1074) (if n < d * leadingBit then guess - 1 else guess)

/-- The double nearest to `± num / den`, a tie to the even mantissa. -/
def ofRatio (negative : Bool) (num den : Nat) : Float :=
  let sign := if negative then Nat.pow 2 63 else 0
  if num = 0 then Float.ofBits (UInt64.ofNat sign)
  else
    let place := lastPlace num den
    let (n, d) := scale num den (-place)
    let mantissa := roundEven n d
    let (mantissa, place) :=
      if mantissa = 2 * leadingBit then (leadingBit, place + 1) else (mantissa, place)
    if 971 < place then Float.ofBits (UInt64.ofNat (sign + 2047 * leadingBit))
    else if mantissa < leadingBit then Float.ofBits (UInt64.ofNat (sign + mantissa))
    else
      let exponent := (place + 1075).toNat
      Float.ofBits (UInt64.ofNat (sign + exponent * leadingBit + (mantissa - leadingBit)))

def ofDecimal (negative : Bool) (digits : Nat) (exponent : Int) : Float :=
  let magnitude : Int := (Nat.toDigits 10 digits).length + exponent
  if digits = 0 ∨ magnitude < -330 then ofRatio negative 0 1
  else if 311 < magnitude then ofRatio negative (Nat.pow 10 311) 1
  else if 0 ≤ exponent then ofRatio negative (digits * Nat.pow 10 exponent.toNat) 1
  else ofRatio negative digits (Nat.pow 10 (-exponent).toNat)

def ofBinary (negative : Bool) (mantissa : Nat) (exponent : Int) : Float :=
  let magnitude : Int := mantissa.log2 + exponent
  if mantissa = 0 ∨ magnitude < -1100 then ofRatio negative 0 1
  else if 1100 < magnitude then ofRatio negative (Nat.pow 2 1100) 1
  else
    let (num, den) := scale mantissa 1 exponent
    ofRatio negative num den

end Hypermedia.Decimal
