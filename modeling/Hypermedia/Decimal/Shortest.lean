import Hypermedia.Decimal.Binary

/-! The fewest decimal digits that read back as a given double. -/
namespace Hypermedia.Decimal

/-- The value `digits · 10 ^ exponent`. -/
structure Digits where
  digits : Nat
  exponent : Int
  deriving Repr, DecidableEq

/-- The interval of reals that round to a positive double, over a common denominator. -/
structure Interval where
  low : Nat
  value : Nat
  high : Nat
  den : Nat
  closed : Bool

/-- All reals nearer to `b` than to any other double; the ends belong to an even mantissa. -/
def Binary.interval (b : Binary) : Interval :=
  let below := if b.mantissa = leadingBit ∧ -1074 < b.exponent then 1 else 2
  let (unit, den) := scale 1 1 (b.exponent - 2)
  { low := (4 * b.mantissa - below) * unit
    value := 4 * b.mantissa * unit
    high := (4 * b.mantissa + 2) * unit
    den := den
    closed := b.mantissa % 2 == 0 }

/-- Steps down from `k` while `num / den` has fewer than `k` digits before the point. -/
def magnitudeFrom (num den : Nat) (k : Int) : Nat → Int
  | 0 => k
  | n + 1 => if num * Nat.pow 10 (1 - k).toNat < den then magnitudeFrom num den (k - 1) n else k

/-- The `k` with `10 ^ (k - 1) ≤ num / den < 10 ^ k`. -/
def magnitude (num den : Nat) : Int :=
  if den ≤ num then (Nat.toDigits 10 (num / den)).length else magnitudeFrom num den 0 400

/-- `num / den` in units of `10 ^ e`, as a ratio. -/
def inUnits (num den : Nat) (e : Int) : Nat × Nat :=
  if 0 ≤ e then (num, den * Nat.pow 10 e.toNat) else (num * Nat.pow 10 (-e).toNat, den)

def Interval.holds (i : Interval) (e : Int) (c : Nat) : Bool :=
  let (low, den) := inUnits i.low i.den e
  let (high, _) := inUnits i.high i.den e
  if i.closed then low ≤ c * den && c * den ≤ high else low < c * den && c * den < high

/-- The point of the grid of step `10 ^ e` nearest to the value, if one lies in the interval. -/
def Interval.onGrid (i : Interval) (e : Int) : Option Nat :=
  let (num, den) := inUnits i.value i.den e
  let down := num / den
  let nearer := roundEven num den
  if i.holds e nearer then some nearer
  else if i.holds e down then some down
  else if i.holds e (down + 1) then some (down + 1)
  else none

def trimZeros (digits : Nat) (exponent : Int) : Nat → Digits
  | 0 => ⟨digits, exponent⟩
  | n + 1 =>
    if digits ≠ 0 ∧ digits % 10 = 0 then trimZeros (digits / 10) (exponent + 1) n
    else ⟨digits, exponent⟩

/-- Tries grids of ever more digits, of which the last is fine enough for every double. -/
def Interval.shortest (i : Interval) (k : Int) (used : Nat) : Nat → Digits
  | 0 => ⟨0, 0⟩
  | n + 1 =>
    match i.onGrid (k - used) with
    | some digits => trimZeros digits (k - used) 20
    | none => i.shortest k (used + 1) n

/-- The fewest digits that read back as a finite double, and of those the nearest. -/
def shortest (b : Binary) : Digits :=
  if b.mantissa = 0 then ⟨0, 0⟩
  else
    let i := b.interval
    i.shortest (magnitude i.value i.den) 1 17

/-- The nearest number of `n` digits to a positive ratio, a tie to the even digit. -/
def significant (num den n : Nat) : Digits :=
  let k := magnitude num den
  let (a, b) := inUnits num den (k - n)
  let digits := roundEven a b
  if digits = Nat.pow 10 n then ⟨Nat.pow 10 (n - 1), k - n + 1⟩ else ⟨digits, k - n⟩

def Binary.ratio (b : Binary) : Nat × Nat :=
  scale b.mantissa 1 b.exponent

end Hypermedia.Decimal
