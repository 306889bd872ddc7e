import Hypermedia.Script.Number

/-! Tokens of scripts. -/
namespace Hypermedia.Script

/-- A token; `mark` is a reserved word or a symbol, `fault` text that is no token. -/
inductive Token where
  | name (text : Bytes)
  | str (value : Bytes)
  | number (value : Number)
  | mark (text : String)
  | stray (byte : UInt8)
  | eof
  | fault (message : Bytes)
  deriving Inhabited

/-- A token, the line it ends on, and its spelling in messages. -/
structure Lexeme where
  token : Token
  line : Nat
  shown : Bytes
  deriving Inhabited

namespace Token

def reserved : List String :=
  ["and", "break", "do", "else", "elseif", "end", "false", "for", "function", "goto", "if", "in",
    "local", "nil", "not", "or", "repeat", "return", "then", "true", "until", "while"]

/-- The symbols of several characters, longer ones before those they begin with. -/
def compound : List String :=
  ["...", "..", "==", "~=", "<=", "<<", ">=", ">>", "//", "::"]

def simple : List Char :=
  ['+', '-', '*', '/', '%', '^', '#', '&', '~', '|', '<', '>', '=', '(', ')', '\x7b', '\x7d', '[',
    ']', ';', ':', ',', '.']

def quoted (s : Bytes) : Bytes :=
  39 :: s ++ [39]

def strayText (b : UInt8) : Bytes :=
  if 32 ≤ b && b ≤ 126 then quoted [b]
  else Bytes.ofString "'<\\" ++ Bytes.ofChars (Decimal.digitsOf b.toNat) ++ Bytes.ofString ">'"

def isNameStart (b : UInt8) : Bool := Bytes.isLetter b || b == 95

def isNamePart (b : UInt8) : Bool := Bytes.isAlphanumeric b || b == 95

def isLineEnd (b : UInt8) : Bool := b == 10 || b == 13

/-- What follows a line end; a pair of different ones counts once. -/
def afterLineEnd (b : UInt8) : Bytes → Bytes
  | c :: rest => if isLineEnd c && c != b then rest else c :: rest
  | [] => []

def digits (n : Nat) : Bytes :=
  Bytes.ofChars (Decimal.digitsOf n)

def faultNear (message : String) (near : Bytes) : Token :=
  fault (Bytes.ofString message ++ Bytes.ofString " near " ++ near)

/-- A token with the text after it and the line that text begins on. -/
structure Scanned where
  token : Token
  shown : Bytes
  rest : Bytes
  line : Nat

/-- The bytes of a number: letters, digits and points, and a sign after an exponent mark. -/
def numeral (exponent : UInt8) : Bytes → Bytes × Bytes
  | b :: c :: rest =>
    if Bytes.lower b == exponent && (c == 43 || c == 45) then
      let (s, rest) := numeral exponent rest
      (b :: c :: s, rest)
    else if Bytes.isHex b || b == 46 || Bytes.lower b == exponent then
      let (s, rest) := numeral exponent (c :: rest)
      (b :: s, rest)
    else ([], b :: c :: rest)
  | [b] =>
    if Bytes.isHex b || b == 46 || Bytes.lower b == exponent then ([b], []) else ([], [b])
  | [] => ([], [])

/-- The bytes of the number that begins a text; a letter after it is taken along. -/
def takeNumeral (s : Bytes) : Bytes × Bytes :=
  let parts : Bytes × Bytes × UInt8 := match s with
    | 48 :: x :: rest => if Bytes.lower x == 120 then ([48, x], rest, 112) else ([], s, 101)
    | _ => ([], s, 101)
  let (head, body, exponent) := parts
  let (taken, rest) := numeral exponent body
  match rest with
  | b :: after => if isNameStart b then (head ++ taken ++ [b], after) else (head ++ taken, rest)
  | [] => (head ++ taken, [])

def scanNumber (s : Bytes) (line : Nat) : Scanned :=
  let (spelling, rest) := takeNumeral s
  match Number.read? spelling with
  | some n => ⟨number n, quoted spelling, rest, line⟩
  | none => ⟨faultNear "malformed number" (quoted spelling), [], rest, line⟩

/-- The level of a long bracket after its first bracket, and the text after the second. -/
def longBracket? (bracket : UInt8) : Nat → Bytes → Option (Nat × Bytes)
  | n, 61 :: rest => longBracket? bracket (n + 1) rest
  | n, b :: rest => if b == bracket then some (n, rest) else none
  | _, [] => none

/-- The text of a long bracket up to its closing bracket, reversed, with what follows it. -/
def longBody (level : Nat) : Nat → Bytes → Bytes → Nat → Option (Bytes × Bytes × Nat)
  | 0, _, _, _ => none
  | _, _, [], _ => none
  | n + 1, acc, b :: rest, line =>
    if b == 93 then
      match longBracket? 93 0 rest with
      | some (found, after) =>
        if found = level then some (acc, after, line) else longBody level n (b :: acc) rest line
      | none => longBody level n (b :: acc) rest line
    else if isLineEnd b then longBody level n (10 :: acc) (afterLineEnd b rest) (line + 1)
    else longBody level n (b :: acc) rest line

/-- A long bracket after its opening; a line end right after the opening does not count. -/
def longText? (level : Nat) (s : Bytes) (line : Nat) : Option (Bytes × Bytes × Nat) :=
  let (s, line) := match s with
    | b :: rest => if isLineEnd b then (afterLineEnd b rest, line + 1) else (s, line)
    | [] => (s, line)
  (longBody level (s.length + 1) [] s line).map fun (acc, rest, line) => (acc.reverse, rest, line)

def lineEnds (s : Bytes) : Nat :=
  (s.filter (· == 10)).length

def unfinishedLong (what : String) (line : Nat) : Token :=
  fault (Bytes.ofString "unfinished long " ++ Bytes.ofString what ++
    Bytes.ofString " (starting at line " ++ digits line ++ Bytes.ofString ") near <eof>")

def bracketText (bracket : UInt8) (level : Nat) : Bytes :=
  bracket :: List.replicate level 61 ++ [bracket]

def scanLong (level : Nat) (s : Bytes) (line : Nat) : Scanned :=
  match longText? level s line with
  | some (value, rest, after) =>
    ⟨str value, quoted (bracketText 91 level ++ value ++ bracketText 93 level), rest, after⟩
  | none => ⟨unfinishedLong "string" line, [], [], line + lineEnds s⟩

def tailBytes (point : Nat) : Nat → Bytes
  | 0 => []
  | n + 1 => UInt8.ofNat (0x80 + point / Nat.pow 64 n % 64) :: tailBytes point n

def encodePoint (point : Nat) : Bytes :=
  if point < 0x80 then [UInt8.ofNat point]
  else if point < 0x800 then UInt8.ofNat (0xC0 + point / 64) :: tailBytes point 1
  else if point < 0x10000 then UInt8.ofNat (0xE0 + point / Nat.pow 64 2) :: tailBytes point 2
  else if point < 0x200000 then UInt8.ofNat (0xF0 + point / Nat.pow 64 3) :: tailBytes point 3
  else if point < 0x4000000 then UInt8.ofNat (0xF8 + point / Nat.pow 64 4) :: tailBytes point 4
  else UInt8.ofNat (0xFC + point / Nat.pow 64 5) :: tailBytes point 5

/-- What an escape stands for, or what is wrong with it and the spelling to show. -/
inductive Escape where
  | bytes (value rest : Bytes)
  | newline (rest : Bytes)
  | skip (rest : Bytes) (lines : Nat)
  | wrong (message : String) (spelling : Bytes)

def Escape.wrongAt (message : String) (spelling rest : Bytes) : Escape :=
  .wrong message (spelling ++ rest.take 1)

def hexEscape : Bytes → Escape
  | a :: rest =>
    match Bytes.hexValue? a with
    | none => .wrongAt "hexadecimal digit expected" [92, 120] (a :: rest)
    | some m => match rest with
      | b :: after => match Bytes.hexValue? b with
        | some n => .bytes [UInt8.ofNat (16 * m + n)] after
        | none => .wrongAt "hexadecimal digit expected" [92, 120, a] rest
      | [] => .wrongAt "hexadecimal digit expected" [92, 120, a] []
  | [] => .wrongAt "hexadecimal digit expected" [92, 120] []

def decimalEscape (s : Bytes) : Escape :=
  let ds := (s.take 3).takeWhile Bytes.isDigit
  let n := Number.decimalValue ds
  if n ≤ 255 then .bytes [UInt8.ofNat n] (s.drop ds.length)
  else .wrongAt "decimal escape too large" (92 :: ds) (s.drop ds.length)

/-- The digits of a code point up to the first that makes it too large. -/
def pointDigits (n : Nat) (shown : Bytes) : Bytes → Nat × Bytes × Bytes × Bool
  | [] => (n, shown, [], true)
  | b :: rest =>
    match Bytes.hexValue? b with
    | none => (n, shown, b :: rest, true)
    | some d => if 0x7FFFFFF < n then (n, shown, b :: rest, false)
      else pointDigits (16 * n + d) (shown ++ [b]) rest

def pointEscape : Bytes → Escape
  | 123 :: rest =>
    match rest with
    | a :: after => match Bytes.hexValue? a with
      | none => .wrongAt "hexadecimal digit expected" [92, 117, 123] rest
      | some d =>
        let (n, shown, rest, small) := pointDigits d [92, 117, 123, a] after
        if !small then .wrongAt "UTF-8 value too large" shown rest
        else match rest with
          | 125 :: rest => .bytes (encodePoint n) rest
          | rest => .wrongAt "missing '\x7d'" shown rest
    | [] => .wrongAt "hexadecimal digit expected" [92, 117, 123] []
  | s => .wrongAt "missing '\x7b'" [92, 117] s

def skipBlanks : Nat → Bytes → Nat → Bytes × Nat
  | 0, s, lines => (s, lines)
  | _, [], lines => ([], lines)
  | n + 1, b :: rest, lines =>
    if isLineEnd b then skipBlanks n (afterLineEnd b rest) (lines + 1)
    else if Bytes.isSpace b then skipBlanks n rest lines
    else (b :: rest, lines)

def letterEscape? (b : UInt8) : Option UInt8 :=
  [(97, 7), (98, 8), (102, 12), (110, 10), (114, 13), (116, 9), (118, 11), (92, 92), (34, 34),
    (39, 39)].lookup b

def escape : Bytes → Escape
  | [] => .bytes [] []
  | b :: rest =>
    match letterEscape? b with
    | some c => .bytes [c] rest
    | none =>
      if b == 120 then hexEscape rest
      else if b == 117 then pointEscape rest
      else if isLineEnd b then .newline (afterLineEnd b rest)
      else if b == 122 then
        let (rest, lines) := skipBlanks (rest.length + 1) rest 0
        .skip rest lines
      else if Bytes.isDigit b then decimalEscape (b :: rest)
      else .wrongAt "invalid escape sequence" [92] (b :: rest)

/-- The rest of a string in quotes; `acc` holds its value so far, reversed. -/
def scanQuoted (quote : UInt8) : Nat → Bytes → Bytes → Nat → Scanned
  | 0, _, _, line => ⟨faultNear "unfinished string" (Bytes.ofString "<eof>"), [], [], line⟩
  | _, _, [], line => ⟨faultNear "unfinished string" (Bytes.ofString "<eof>"), [], [], line⟩
  | n + 1, acc, b :: rest, line =>
    if b == quote then
      let value := acc.reverse
      ⟨str value, quoted (quote :: value ++ [quote]), rest, line⟩
    else if isLineEnd b then
      ⟨faultNear "unfinished string" (quoted (quote :: acc.reverse)), [], rest, line⟩
    else if b == 92 then
      match escape rest with
      | .bytes value rest => scanQuoted quote n (value.reverse ++ acc) rest line
      | .newline rest => scanQuoted quote n (10 :: acc) rest (line + 1)
      | .skip rest lines => scanQuoted quote n acc rest (line + lines)
      | .wrong message spelling =>
        ⟨faultNear message (quoted (quote :: acc.reverse ++ spelling)), [], rest, line⟩
    else scanQuoted quote n (b :: acc) rest line

/-- What follows a comment whose dashes are already taken, or the fault of one without an end. -/
def afterComment (s : Bytes) (line : Nat) : Except Token (Bytes × Nat) :=
  let short := (s.dropWhile (!isLineEnd ·), line)
  match s with
  | 91 :: rest =>
    match longBracket? 91 0 rest with
    | some (level, body) =>
      match longText? level body line with
      | some (_, rest, after) => .ok (rest, after)
      | none => .error (unfinishedLong "comment" line)
    | none => .ok short
  | _ => .ok short

def scanSymbol (b : UInt8) (rest : Bytes) (line : Nat) : Scanned :=
  match compound.find? fun s => (Bytes.ofString s).isPrefixOf (b :: rest) with
  | some s =>
    ⟨mark s, quoted (Bytes.ofString s), (b :: rest).drop (Bytes.ofString s).length, line⟩
  | none =>
    match simple.find? fun c => UInt8.ofNat c.toNat == b with
    | some c => ⟨mark (String.singleton c), quoted [b], rest, line⟩
    | none => ⟨stray b, strayText b, rest, line⟩

def scanWord (s : Bytes) (line : Nat) : Scanned :=
  let word := s.takeWhile isNamePart
  let rest := s.dropWhile isNamePart
  match reserved.find? fun r => Bytes.ofString r == word with
  | some r => ⟨mark r, quoted word, rest, line⟩
  | none => ⟨name word, quoted word, rest, line⟩

def pointsNumber : Bytes → Bool
  | d :: _ => Bytes.isDigit d
  | [] => false

def scanBracket (rest : Bytes) (line : Nat) : Scanned :=
  match longBracket? 91 0 rest with
  | some (level, body) => scanLong level body line
  | none =>
    match rest with
    | 61 :: _ =>
      let level := rest.takeWhile (· == 61)
      ⟨faultNear "invalid long string delimiter" (quoted (91 :: level)), [], rest, line⟩
    | _ => scanSymbol 91 rest line

/-- The token that begins a text which begins with no blank and no comment. -/
def scanOne (b : UInt8) (rest : Bytes) (line : Nat) : Scanned :=
  if isNameStart b then scanWord (b :: rest) line
  else if Bytes.isDigit b || (b == 46 && pointsNumber rest) then scanNumber (b :: rest) line
  else if b == 34 || b == 39 then scanQuoted b (rest.length + 1) [] rest line
  else if b == 91 then scanBracket rest line
  else scanSymbol b rest line

/-- The tokens of a text up to the first fault or the end; every step takes at least one byte. -/
def scanFrom : Nat → Bytes → Nat → List Lexeme
  | 0, _, line => [⟨eof, line, Bytes.ofString "<eof>"⟩]
  | _, [], line => [⟨eof, line, Bytes.ofString "<eof>"⟩]
  | n + 1, b :: rest, line =>
    if isLineEnd b then scanFrom n (afterLineEnd b rest) (line + 1)
    else if Bytes.isSpace b then scanFrom n rest line
    else match b, rest with
      | 45, 45 :: comment =>
        match afterComment comment line with
        | .ok (rest, line) => scanFrom n rest line
        | .error t => [⟨t, line + lineEnds comment, []⟩]
      | _, _ =>
        let s := scanOne b rest line
        match s.token with
        | .fault message => [⟨.fault message, s.line, []⟩]
        | token => ⟨token, s.line, s.shown⟩ :: scanFrom n s.rest s.line

/-- The tokens of a script, the last of which is its end or a fault. -/
def scan (s : Bytes) : List Lexeme :=
  scanFrom (s.length + 1) s 1

end Token

end Hypermedia.Script
