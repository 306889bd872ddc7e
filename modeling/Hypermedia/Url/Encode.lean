import Hypermedia.Text.Cut

/-! Percent encoding. -/
namespace Hypermedia.Url

def utf8 (c : Char) : List Nat :=
  (String.utf8EncodeChar c).map UInt8.toNat

def hexDigit (n : Nat) : Char :=
  if n < 10 then Char.ofNat (48 + n) else Char.ofNat (55 + n)

def percent (byte : Nat) : List Char :=
  ['%', hexDigit (byte / 16), hexDigit (byte % 16)]

/-- Control characters and what is not ASCII are always encoded. -/
def isControl (c : Char) : Bool :=
  c.toNat < 0x20 || 0x7E < c.toNat

def inFragment (c : Char) : Bool :=
  isControl c || " \"<>`".toList.contains c

def inQuery (c : Char) : Bool :=
  isControl c || " \"#<>".toList.contains c

def inSpecialQuery (c : Char) : Bool :=
  inQuery c || c == '\''

def inPath (c : Char) : Bool :=
  inFragment c || "#?\x7b\x7d".toList.contains c

def inUserinfo (c : Char) : Bool :=
  inPath c || "/:;=@[\\]^|".toList.contains c

def encode (set : Char → Bool) (s : List Char) : List Char :=
  s.flatMap fun c => if set c then (utf8 c).flatMap percent else [c]

def hexDigitValue? (c : Char) : Option Nat :=
  if c.isDigit then some (c.toNat - 48)
  else if 'a' ≤ c ∧ c ≤ 'f' then some (c.toNat - 87)
  else if 'A' ≤ c ∧ c ≤ 'F' then some (c.toNat - 55)
  else none

def decodeBytes : List Char → List Nat
  | '%' :: a :: b :: rest =>
    match hexDigitValue? a, hexDigitValue? b with
    | some x, some y => (16 * x + y) :: decodeBytes rest
    | _, _ => 37 :: decodeBytes (a :: b :: rest)
  | c :: rest => utf8 c ++ decodeBytes rest
  | [] => []

def ofBytes? (bytes : List Nat) : Option (List Char) :=
  (String.fromUTF8? ⟨(bytes.map UInt8.ofNat).toArray⟩).map String.toList

/-- A character of a form: letters, digits and a few marks stand for themselves, a space for a plus
sign. -/
def formChar (c : Char) : List Char :=
  if c.isAlphanum || "*-._".toList.contains c then [c]
  else if c = ' ' then ['+']
  else (utf8 c).flatMap percent

def formEncode (s : List Char) : List Char :=
  s.flatMap formChar

end Hypermedia.Url
