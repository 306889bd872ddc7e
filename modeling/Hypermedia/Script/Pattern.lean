import Hypermedia.Decimal.Format
import Hypermedia.Script.Bytes

/-! Patterns of strings: classes, sets, repetition, captures, balance and frontiers. -/
namespace Hypermedia.Script.Pattern

/-- A capture: still open, a position alone, or a part of the subject. -/
inductive Capture where
  | opened (start : Nat)
  | position (start : Nat)
  | closed (start length : Nat)
  deriving Inhabited, Repr

/-- Whether a byte belongs to the class of a letter; a capital letter stands for all other bytes. -/
def inClass (b letter : UInt8) : Bool :=
  let belongs : Option Bool := match Char.ofNat (Bytes.lower letter).toNat with
    | 'a' => some (Bytes.isLetter b)
    | 'c' => some (Bytes.isControl b)
    | 'd' => some (Bytes.isDigit b)
    | 'g' => some (Bytes.isVisible b)
    | 'l' => some (Bytes.isLower b)
    | 'p' => some (Bytes.isPunctuation b)
    | 's' => some (Bytes.isSpace b)
    | 'u' => some (Bytes.isUpper b)
    | 'w' => some (Bytes.isAlphanumeric b)
    | 'x' => some (Bytes.isHex b)
    | _ => none
  match belongs with
  | some r => if Bytes.isUpper letter then !r else r
  | none => letter == b

/-- What follows the set whose items begin a pattern; the first item may be a bracket. -/
def afterSet : Nat → Bytes → Except String Bytes
  | 0, _ => .error "malformed pattern (missing ']')"
  | _, [] => .error "malformed pattern (missing ']')"
  | n + 1, c :: rest =>
    let rest := if c == 37 then rest.drop 1 else rest
    match rest with
    | [] => .error "malformed pattern (missing ']')"
    | d :: after => if d == 93 then .ok after else afterSet n (d :: after)

def afterClass (c : UInt8) (rest : Bytes) : Except String Bytes :=
  if c == 37 then
    match rest with
    | [] => .error "malformed pattern (ends with '%')"
    | _ :: rest => .ok rest
  else if c == 91 then
    let items := match rest with
      | 94 :: items => items
      | items => items
    afterSet (items.length + 1) items
  else .ok rest

def inItems (b : UInt8) : Bytes → Bool
  | 37 :: c :: rest => inClass b c || inItems b rest
  | lo :: 45 :: hi :: rest => (lo ≤ b && b ≤ hi) || inItems b rest
  | c :: rest => c == b || inItems b rest
  | [] => false

/-- Whether a byte belongs to a set, given without its opening bracket and with its closing one. -/
def inSet (b : UInt8) (set : Bytes) : Bool :=
  match set.dropLast with
  | 94 :: items => !inItems b items
  | items => inItems b items

def fits (b : UInt8) (single : Bytes) : Bool :=
  match single with
  | [] => false
  | 46 :: _ => true
  | 37 :: c :: _ => inClass b c
  | 91 :: set => inSet b set
  | c :: _ => c == b

/-- The byte of the subject at a position; past the end there is a zero byte. -/
def byteAt (subject : Array UInt8) (i : Nat) : UInt8 :=
  subject.getD i 0

def runLength (subject : Array UInt8) (single : Bytes) : Nat → Nat → Nat
  | 0, _ => 0
  | n + 1, i =>
    if i < subject.size && fits (byteAt subject i) single then
      runLength subject single n (i + 1) + 1
    else 0

def balancedEnd (subject : Array UInt8) (opening closing : UInt8) : Nat → Nat → Nat → Option Nat
  | 0, _, _ => none
  | n + 1, depth, i =>
    if subject.size ≤ i then none
    else
      let b := byteAt subject i
      if b == closing then
        if depth = 1 then some (i + 1)
        else balancedEnd subject opening closing n (depth - 1) (i + 1)
      else balancedEnd subject opening closing n (if b == opening then depth + 1 else depth) (i + 1)

/-- A match: where it ends, and its captures. -/
abbrev Match := Option (Nat × List Capture)

/-- The most bytes that fit, then fewer, until the rest matches. -/
def longestFirst (rest : Nat → Except String Match) (start : Nat) : Nat → Except String Match
  | 0 => rest start
  | n + 1 => do
    match ← rest (start + n + 1) with
    | some m => return some m
    | none => longestFirst rest start n

/-- The fewest bytes that fit, then more, until the rest matches. -/
def shortestFirst (rest : Nat → Except String Match) (canTake : Nat → Bool) :
    Nat → Nat → Except String Match
  | 0, i => rest i
  | n + 1, i => do
    match ← rest i with
    | some m => return some m
    | none => if canTake i then shortestFirst rest canTake n (i + 1) else return none

def closeLast (stop : Nat) : List Capture → Except String (List Capture)
  | [] => .error "invalid pattern capture"
  | .opened start :: rest => .ok (.closed start (stop - start) :: rest)
  | c :: rest => (closeLast stop rest).map (c :: ·)

/-- The part of the subject that the capture named by a digit holds, if it holds one; captures are
kept newest first. -/
def capture? (captures : List Capture) (digit : UInt8) : Except String (Option (Nat × Nat)) :=
  let n := digit.toNat - 49
  if digit < 49 then .error "invalid capture index %0"
  else match captures.reverse[n]? with
    | some (.closed start length) => .ok (some (start, length))
    | some (.position _) => .ok none
    | _ => .error ("invalid capture index %" ++ String.ofList (Decimal.digitsOf (n + 1)))

def equalParts (subject : Array UInt8) (i j : Nat) : Nat → Bool
  | 0 => true
  | n + 1 => byteAt subject (i + n) == byteAt subject (j + n) && equalParts subject i j n

inductive Suffix where
  | once | optional | many | some | few

def takeSuffix : Bytes → Suffix × Bytes
  | 63 :: rest => (.optional, rest)
  | 42 :: rest => (.many, rest)
  | 43 :: rest => (.some, rest)
  | 45 :: rest => (.few, rest)
  | rest => (.once, rest)

/-- Matches a pattern at a position of the subject; every step takes part of the pattern. -/
def matchAt (subject : Array UInt8) : Nat → Nat → Bytes → List Capture → Except String Match
  | 0, _, _, _ => .error "pattern too complex"
  | _, i, [], captures => .ok (some (i, captures))
  | n + 1, i, c :: rest, captures => do
    if c == 40 then
      match rest with
      | 41 :: rest => matchAt subject n i rest (.position i :: captures)
      | rest => matchAt subject n i rest (.opened i :: captures)
    else if c == 41 then matchAt subject n i rest (← closeLast i captures)
    else if c == 36 && rest.isEmpty then
      return if i = subject.size then some (i, captures) else none
    else
      let special := if c == 37 then rest.headD 0 else 0
      if special == 98 then
        match rest.drop 1 with
        | opening :: closing :: rest =>
          if subject.size ≤ i || byteAt subject i != opening then return none
          else match balancedEnd subject opening closing (subject.size + 1) 1 (i + 1) with
            | some j => matchAt subject n j rest captures
            | none => return none
        | _ => throw "malformed pattern (missing arguments to '%b')"
      else if special == 102 then
        match rest.drop 1 with
        | 91 :: set =>
          let after ← afterClass 91 set
          let single := (91 :: set).take (set.length + 1 - after.length)
          let previous := if i = 0 then 0 else byteAt subject (i - 1)
          if !fits previous single && fits (byteAt subject i) single then
            matchAt subject n i after captures
          else return none
        | _ => throw "missing '[' after '%f' in pattern"
      else if Bytes.isDigit special && c == 37 then
        match ← capture? captures special with
        | some (start, length) =>
          if length ≤ subject.size - i && equalParts subject start i length then
            matchAt subject n (i + length) (rest.drop 1) captures
          else return none
        | none => return none
      else
        let after ← afterClass c rest
        let single := (c :: rest).take (rest.length + 1 - after.length)
        let here := i < subject.size && fits (byteAt subject i) single
        match takeSuffix after with
        | (.once, after) => if here then matchAt subject n (i + 1) after captures else return none
        | (.optional, after) =>
          if here then
            match ← matchAt subject n (i + 1) after captures with
            | some m => return some m
            | none => matchAt subject n i after captures
          else matchAt subject n i after captures
        | (.many, after) =>
          longestFirst (fun j => matchAt subject n j after captures) i
            (runLength subject single (subject.size + 1) i)
        | (.some, after) =>
          if here then
            longestFirst (fun j => matchAt subject n j after captures) (i + 1)
              (runLength subject single (subject.size + 1) (i + 1))
          else return none
        | (.few, after) =>
          shortestFirst (fun j => matchAt subject n j after captures)
            (fun j => j < subject.size && fits (byteAt subject j) single) (subject.size + 1) i

def match? (subject : Array UInt8) (pattern : Bytes) (i : Nat) : Except String Match :=
  matchAt subject (pattern.length + 1) i pattern []

def search (subject : Array UInt8) (pattern : Bytes) : Nat → Nat →
    Except String (Option (Nat × Nat × List Capture))
  | 0, _ => .ok none
  | n + 1, i => do
    match ← match? subject pattern i with
    | some (j, captures) => return some (i, j, captures)
    | none => if i < subject.size then search subject pattern n (i + 1) else return none

def captured (subject : Array UInt8) : Capture → Except String (Nat ⊕ Bytes)
  | .opened _ => .error "unfinished capture"
  | .position start => .ok (.inl (start + 1))
  | .closed start length => .ok (.inr (subject.extract start (start + length)).toList)

/-- The captures of a match from the first on; without any, the whole match counts as one when
asked. -/
def allCaptured (subject : Array UInt8) (start stop : Nat) (captures : List Capture)
    (whole : Bool) : Except String (List (Nat ⊕ Bytes)) :=
  if captures.isEmpty && whole then .ok [.inr (subject.extract start stop).toList]
  else captures.reverse.mapM (captured subject)

def isPlain (pattern : Bytes) : Bool :=
  !pattern.any fun b => "^$*+?.([%-".toList.any fun c => UInt8.ofNat c.toNat == b

def findPlain (text : Bytes) : Nat → Bytes → Option Nat
  | i, [] => if text.isEmpty then some i else none
  | i, b :: rest => if text.isPrefixOf (b :: rest) then some i else findPlain text (i + 1) rest

end Hypermedia.Script.Pattern
