/-! Punycode: labels of any characters written with letters, digits and hyphens. -/
namespace Hypermedia.Url.Punycode

/-- A digit: letters for 0 to 25, then decimal digits. -/
def digit (d : Nat) : Char :=
  if d < 26 then Char.ofNat (97 + d) else Char.ofNat (22 + d)

def digitValue? (c : Char) : Option Nat :=
  if 'a' ≤ c ∧ c ≤ 'z' then some (c.toNat - 97)
  else if 'A' ≤ c ∧ c ≤ 'Z' then some (c.toNat - 65)
  else if c.isDigit then some (c.toNat - 22)
  else none

/-- Below its threshold a digit ends a number. -/
def threshold (place bias : Nat) : Nat :=
  if place ≤ bias then 1 else if bias + 26 ≤ place then 26 else place - bias

theorem threshold_pos (place bias : Nat) : 1 ≤ threshold place bias := by
  unfold threshold
  split
  · omega
  · split <;> omega

/-- Divides a delta by 35 while it is large. -/
def shrink (delta steps : Nat) : Nat × Nat :=
  if 455 < delta then shrink (delta / 35) (steps + 36) else (delta, steps)
termination_by delta

def adapt (delta points : Nat) (first : Bool) : Nat :=
  let delta := if first then delta / 700 else delta / 2
  let (delta, steps) := shrink (delta + delta / points) 0
  steps + 36 * delta / (delta + 38)

/-- The digits of a delta, the least first. -/
def number (q place bias : Nat) : List Char :=
  let t := threshold place bias
  if q < t then [digit q]
  else digit (t + (q - t) % (36 - t)) :: number ((q - t) / (36 - t)) (place + 36) bias
termination_by q
decreasing_by
  have h := threshold_pos place bias
  have := Nat.div_le_self (q - threshold place bias) (36 - threshold place bias)
  simp only [t] at *
  omega

/-- The state of an encoder: delta, bias, number of characters written, and the digits so far. -/
structure Encoder where
  delta : Nat
  bias : Nat
  written : Nat
  output : List Char

/-- The effect of one character of the label when characters equal to `code` are written. -/
def Encoder.visit (basic code : Nat) (e : Encoder) (c : Char) : Encoder :=
  if c.toNat < code then { e with delta := e.delta + 1 }
  else if c.toNat = code then
    { delta := 0
      bias := adapt e.delta (e.written + 1) (e.written == basic)
      written := e.written + 1
      output := e.output ++ number e.delta 36 e.bias }
  else e

/-- Writes the characters of the label in the order of their code points. -/
def encodeFrom (label : List Char) (basic : Nat) : Nat → Encoder → List Nat → Encoder
  | _, e, [] => e
  | code, e, next :: codes =>
    let e := { e with delta := e.delta + (next - code) * (e.written + 1) }
    let e := label.foldl (Encoder.visit basic next) e
    encodeFrom label basic (next + 1) { e with delta := e.delta + 1 } codes

def extendedCodes (label : List Char) : List Nat :=
  ((label.map Char.toNat).filter (128 ≤ ·)).mergeSort.eraseReps

def encode (label : List Char) : List Char :=
  let basic := label.filter (fun c => c.toNat < 128)
  let start := if basic.isEmpty then [] else basic ++ ['-']
  let e := encodeFrom label basic.length 128 ⟨0, 72, basic.length, []⟩ (extendedCodes label)
  start ++ e.output

def readNumber (bias : Nat) : Nat → Nat → Nat → List Char → Option (Nat × List Char)
  | _, _, _, [] => none
  | value, weight, place, c :: rest => do
    let d ← digitValue? c
    let t := threshold place bias
    let value := value + d * weight
    if d < t then return (value, rest)
    else readNumber bias value (weight * (36 - t)) (place + 36) rest

/-- Inserts the characters that the digits describe; each number takes at least one digit. -/
def decodeFrom : Nat → List Char → Nat → Nat → Nat → List Char → Option (List Char)
  | _, output, _, _, _, [] => some output
  | 0, _, _, _, _, _ :: _ => none
  | n + 1, output, code, index, bias, digits => do
    let (delta, rest) ← readNumber bias 0 1 36 digits
    let size := output.length + 1
    let position := index + delta
    let code := code + position / size
    if !code.isValidChar then none
    let place := position % size
    let output := output.take place ++ Char.ofNat code :: output.drop place
    decodeFrom n output code (place + 1) (adapt delta size (index == 0)) rest

def decode? (label : List Char) : Option (List Char) :=
  let after := (label.reverse.takeWhile (· != '-')).reverse
  let basic := (label.reverse.dropWhile (· != '-')).tail.reverse
  if basic.all (fun c => c.toNat < 128) then decodeFrom after.length basic 128 0 72 after else none

end Hypermedia.Url.Punycode
