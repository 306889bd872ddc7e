import Hypermedia.Decimal.Read
import Hypermedia.Decimal.Format
import Hypermedia.Url.Encode
import Hypermedia.Url.Punycode

/-! Hosts: domain names and addresses. -/
namespace Hypermedia.Url

inductive Host where
  | name (text : List Char)
  | v4 (address : Nat)
  | v6 (pieces : List Nat)
  deriving DecidableEq, Repr

def digitIn? (base : Nat) (c : Char) : Option Nat :=
  (hexDigitValue? c).filter (· < base)

def valueIn? (base : Nat) (s : List Char) : Option Nat :=
  s.foldlM (fun n c => (digitIn? base c).map (base * n + ·)) 0

/-- A part of an address: hexadecimal after `0x`, octal after `0`, else decimal. -/
def addressPart? : List Char → Option Nat
  | [] => none
  | '0' :: 'x' :: digits => valueIn? 16 digits
  | '0' :: 'X' :: digits => valueIn? 16 digits
  | '0' :: d :: digits => valueIn? 8 (d :: digits)
  | digits => valueIn? 10 digits

/-- The parts of a name between its dots; a dot at the end does not count. -/
def dotParts (s : List Char) : List (List Char) :=
  let parts := Text.cut (· == '.') s
  if parts.getLast? = some [] then parts.dropLast else parts

/-- Whether the last part of a name is a number, which makes the name an address. -/
def endsInNumber (s : List Char) : Bool :=
  match (dotParts s).getLast? with
  | none => false
  | some part => (!part.isEmpty && part.all Char.isDigit) || (addressPart? part).isSome

/-- An address of four bytes; the last part fills the bytes that are left. -/
def address? (s : List Char) : Option Nat := do
  let parts := dotParts s
  if 4 < parts.length then none
  let numbers ← parts.mapM addressPart?
  let last ← numbers.getLast?
  let firsts := numbers.dropLast
  if firsts.any (255 < ·) then none
  if Nat.pow 256 (4 - firsts.length) ≤ last then none
  return (firsts.zipIdx.foldl (fun sum (n, i) => sum + n * Nat.pow 256 (3 - i)) 0) + last

def renderV4 (address : Nat) : List Char :=
  Text.join ['.'] ([3, 2, 1, 0].map fun i => Decimal.digitsOf (address / Nat.pow 256 i % 256))

/-- A piece of a long address: at most four hexadecimal digits. -/
def piece? (s : List Char) : Option Nat :=
  if s.isEmpty || 4 < s.length then none else valueIn? 16 s

/-- A byte in decimal digits without a leading zero. -/
def byte? (s : List Char) : Option Nat :=
  if s.isEmpty || 3 < s.length || (1 < s.length && s.head? == some '0') then none
  else (Decimal.natural? s).filter (· < 256)

/-- The pieces between colons; the last may be an address of four bytes, which makes two pieces. -/
def pieces? : List (List Char) → Option (List Nat)
  | [] => some []
  | [last] =>
    if last.contains '.' then do
      let bytes ← (Text.cut (· == '.') last).mapM byte?
      match bytes with
      | [a, b, c, d] => return [256 * a + b, 256 * c + d]
      | _ => none
    else (piece? last).map ([·])
  | part :: rest => do
    let n ← piece? part
    let ns ← pieces? rest
    return n :: ns

def piecesOf? (s : List Char) : Option (List Nat) :=
  if s.isEmpty then some [] else pieces? (Text.cut (· == ':') s)

/-- An address of eight pieces; one double colon stands for one or more zeros. -/
def longAddress? (s : List Char) : Option (List Nat) := do
  match Text.splitOnce [':', ':'] s with
  | none =>
    let ns ← piecesOf? s
    if ns.length = 8 then return ns else none
  | some (before, after) =>
    if before.contains '.' then none
    let front ← piecesOf? before
    let back ← piecesOf? after
    if 8 ≤ front.length + back.length then none
    return front ++ List.replicate (8 - front.length - back.length) 0 ++ back

/-- Start and length of the first longest run of zeros, counted from `start`. -/
def longestZeros (start : Nat) : List Nat → Nat × Nat
  | [] => (start, 0)
  | n :: ns =>
    let run := (n :: ns).takeWhile (· == 0)
    let (later, size) := longestZeros (start + 1) ns
    if size ≤ run.length then (start, run.length) else (later, size)

/-- Hexadecimal pieces with colons between them; the longest run of two or more zeros is left
out. -/
def renderV6 (pieces : List Nat) : List Char :=
  let hex := fun (ns : List Nat) => Text.join [':'] (ns.map (Nat.toDigits 16))
  let (start, size) := longestZeros 0 pieces
  if size < 2 then hex pieces
  else hex (pieces.take start) ++ [':', ':'] ++ hex (pieces.drop (start + size))

def isForbidden (c : Char) : Bool :=
  c.toNat ≤ 0x20 || c.toNat == 0x7F || "%#/:<>?@[\\]^`\x7b|\x7d".toList.contains c

/-- The lower-case form of a letter of the Latin, Greek or Cyrillic alphabets; full-width forms
become ASCII. -/
def fold (c : Char) : List Char :=
  let n := c.toNat
  if n < 128 then [c.toLower]
  else if n = 0xAD || n = 0x200B || n = 0xFEFF then []
  else if n = 0x3002 || n = 0xFF0E || n = 0xFF61 then ['.']
  else if 0xFF01 ≤ n ∧ n ≤ 0xFF5E then [(Char.ofNat (n - 0xFEE0)).toLower]
  else if (0xC0 ≤ n ∧ n ≤ 0xDE ∧ n ≠ 0xD7) ∨ (0x391 ≤ n ∧ n ≤ 0x3AB) ∨ (0x410 ≤ n ∧ n ≤ 0x42F) then
    [Char.ofNat (n + 32)]
  else if 0x400 ≤ n ∧ n ≤ 0x40F then [Char.ofNat (n + 80)]
  else if (0x100 ≤ n ∧ n ≤ 0x137) ∨ (0x14A ≤ n ∧ n ≤ 0x177) then
    [Char.ofNat (n + (n + 1) % 2)]
  else if (0x139 ≤ n ∧ n ≤ 0x148) ∨ (0x179 ≤ n ∧ n ≤ 0x17E) then [Char.ofNat (n + n % 2)]
  else [c]

def labelToAscii? (label : List Char) : Option (List Char) :=
  if label.all (fun c => c.toNat < 128) then
    match "xn--".toList.isPrefixOf? label with
    | none => some label
    | some code =>
      match Punycode.decode? code with
      | none => none
      | some decoded =>
        if decoded.all (fun c => c.toNat < 128) || decoded.flatMap fold ≠ decoded
          || Punycode.encode decoded ≠ code then none
        else some label
  else some ("xn--".toList ++ Punycode.encode label)

def domainToAscii? (s : List Char) : Option (List Char) := do
  let labels ← (Text.cut (· == '.') (s.flatMap fold)).mapM labelToAscii?
  let name := Text.join ['.'] labels
  if name.any isForbidden then none else return name

def bracketed? (s : List Char) : Option Host :=
  match s.getLast? with
  | some ']' => (longAddress? s.dropLast).map .v6
  | _ => none

def Host.parse? (s : List Char) : Option Host :=
  match s with
  | '[' :: rest => bracketed? rest
  | _ => do
    let decoded ← ofBytes? (decodeBytes s)
    let name ← domainToAscii? decoded
    if name.isEmpty then none
    else if endsInNumber name then (address? name).map .v4
    else return .name name

def Host.parseOpaque? (s : List Char) : Option Host :=
  match s with
  | '[' :: rest => bracketed? rest
  | _ =>
    if s.any ("\x00\t\n\r #/:<>?@[\\]^|".toList.contains ·) then none
    else some (.name (encode isControl s))

def Host.render : Host → List Char
  | name text => text
  | v4 address => renderV4 address
  | v6 pieces => '[' :: renderV6 pieces ++ [']']

end Hypermedia.Url
