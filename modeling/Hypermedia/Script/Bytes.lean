/-! Byte strings and their reading as text. -/
namespace Hypermedia.Script

abbrev Bytes := List UInt8

namespace Bytes

def ofString (s : String) : Bytes :=
  s.toList.flatMap String.utf8EncodeChar

def ofChars (cs : List Char) : Bytes :=
  cs.map fun c => UInt8.ofNat c.toNat

/-- How many bytes follow a leading byte, and the bounds of the first of them. -/
def following (b : Nat) : Option (Nat × Nat × Nat) :=
  if 0xC2 ≤ b ∧ b ≤ 0xDF then some (1, 0x80, 0xBF)
  else if b = 0xE0 then some (2, 0xA0, 0xBF)
  else if b = 0xED then some (2, 0x80, 0x9F)
  else if 0xE1 ≤ b ∧ b ≤ 0xEF then some (2, 0x80, 0xBF)
  else if b = 0xF0 then some (3, 0x90, 0xBF)
  else if 0xF1 ≤ b ∧ b ≤ 0xF3 then some (3, 0x80, 0xBF)
  else if b = 0xF4 then some (3, 0x80, 0x8F)
  else none

/-- The bits a leading byte contributes when `n` bytes follow it. -/
def leadBits (b n : Nat) : Nat :=
  if n = 1 then b % 32 else if n = 2 then b % 16 else b % 8

/-- Joins continuation bytes to a code point; `none` when one is missing. -/
def continue? (point lo hi : Nat) : Nat → Bytes → Option Nat × Bytes
  | 0, rest => (some point, rest)
  | _ + 1, [] => (none, [])
  | n + 1, b :: rest =>
    if lo ≤ b.toNat ∧ b.toNat ≤ hi then continue? (point * 64 + b.toNat % 64) 0x80 0xBF n rest
    else (none, b :: rest)

/-- The character at the head; the bytes of a broken one are taken as far as they could begin
one. -/
def decodeHead (b : UInt8) (rest : Bytes) : Option Char × Bytes :=
  if b < 0x80 then (some (Char.ofNat b.toNat), rest)
  else match following b.toNat with
    | none => (none, rest)
    | some (n, lo, hi) =>
      let (point, rest) := continue? (leadBits b.toNat n) lo hi n rest
      (point.map Char.ofNat, rest)

/-- The characters of at most `n` heads, a broken one as `none`. -/
def decodeFrom : Nat → Bytes → List (Option Char)
  | 0, _ => []
  | _, [] => []
  | n + 1, b :: rest =>
    let (c, rest) := decodeHead b rest
    c :: decodeFrom n rest

def decode (s : Bytes) : List (Option Char) :=
  decodeFrom s.length s

/-- The text of a byte string, with a replacement character for each broken one. -/
def text (s : Bytes) : String :=
  String.ofList ((decode s).map (·.getD (Char.ofNat 0xFFFD)))

/-- Where a byte string stops being UTF-8, and how many bytes are wrong there; a character that the
end cuts short has no such number. -/
structure Breach where
  index : Nat
  length : Option Nat
  deriving DecidableEq, Repr

/-- The first breach among at most `n` heads of the end of a byte string that is `size` long. -/
def breachFrom (size : Nat) : Nat → Bytes → Option Breach
  | 0, _ => none
  | _, [] => none
  | n + 1, b :: rest =>
    match decodeHead b rest with
    | (some _, after) => breachFrom size n after
    | (none, after) =>
      let isCut := after.isEmpty && (following b.toNat).isSome
      some { index := size - (rest.length + 1)
             length := if isCut then none else some (rest.length + 1 - after.length) }

def breach? (s : Bytes) : Option Breach :=
  breachFrom s.length s.length s

/-- The order of bytes, the first difference deciding. -/
def less : Bytes → Bytes → Bool
  | _, [] => false
  | [], _ :: _ => true
  | a :: s, b :: t => if a < b then true else if b < a then false else less s t

def isDigit (b : UInt8) : Bool := 48 ≤ b && b ≤ 57

def isLower (b : UInt8) : Bool := 97 ≤ b && b ≤ 122

def isUpper (b : UInt8) : Bool := 65 ≤ b && b ≤ 90

def isLetter (b : UInt8) : Bool := isLower b || isUpper b

def isAlphanumeric (b : UInt8) : Bool := isLetter b || isDigit b

def isSpace (b : UInt8) : Bool := b == 32 || (9 ≤ b && b ≤ 13)

def isControl (b : UInt8) : Bool := b < 32 || b == 127

def isVisible (b : UInt8) : Bool := 33 ≤ b && b ≤ 126

def isPunctuation (b : UInt8) : Bool := isVisible b && !isAlphanumeric b

def hexValue? (b : UInt8) : Option Nat :=
  if isDigit b then some (b.toNat - 48)
  else if 97 ≤ b && b ≤ 102 then some (b.toNat - 87)
  else if 65 ≤ b && b ≤ 70 then some (b.toNat - 55)
  else none

def isHex (b : UInt8) : Bool := (hexValue? b).isSome

def lower (b : UInt8) : UInt8 := if isUpper b then b + 32 else b

def upper (b : UInt8) : UInt8 := if isLower b then b - 32 else b

def skipSpaces (s : Bytes) : Bytes := s.dropWhile isSpace

def spells (s : Bytes) (t : String) : Bool := s == ofString t

end Bytes

end Hypermedia.Script
