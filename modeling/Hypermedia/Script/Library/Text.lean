import Hypermedia.Script.Directive
import Hypermedia.Script.Library.Argument
import Hypermedia.Script.Pattern

/-! Functions on strings. -/
namespace Hypermedia.Script.Library

variable (c : Invocation)

/-- The place where a range begins; a negative position counts from the end. -/
def rangeStart (position : Int64) (length : Nat) : Nat :=
  let p := position.toInt
  if 0 < p then p.toNat
  else if p = 0 ∨ p < -(length : Int) then 1
  else (length + p + 1).toNat

def rangeStop (position : Int64) (length : Nat) : Nat :=
  let p := position.toInt
  if (length : Int) < p then length
  else if 0 ≤ p then p.toNat
  else if p < -(length : Int) then 0
  else (length + p + 1).toNat

def slice (s : Bytes) (start stop : Nat) : Bytes :=
  (s.take stop).drop (start - 1)

def byteValues : Act (List Value) := do
  let s ← c.text 1
  let i ← c.intOr 2 1
  let j ← c.intOr 3 i
  return (slice s (rangeStart i s.length) (rangeStop j s.length)).map fun b => .ofNat b.toNat

def substring : Act (List Value) := do
  let s ← c.text 1
  let i ← c.int 2
  let j ← c.intOr 3 (-1)
  return [.str (slice s (rangeStart i s.length) (rangeStop j s.length))]

def bytesFrom (i : Nat) : List Value → Act Bytes
  | [] => return []
  | _ :: rest => do
    let b ← c.int i
    if 0 ≤ b && b ≤ 255 then return UInt8.ofNat b.toInt.toNat :: (← bytesFrom (i + 1) rest)
    else c.argumentFault i (Bytes.ofString "value out of range")

def maxText : Nat := Nat.pow 2 31

def repeated : Act (List Value) := do
  let s ← c.text 1
  let n ← c.int 2
  let separator ← c.textOr 3 []
  let n := n.toInt.toNat
  let size := n * (s.length + separator.length)
  if n = 0 then return [.str []]
  else if Nat.pow 2 63 ≤ size then c.fail "resulting string too large"
  else if maxText ≤ size then Act.raise (.ofString "not enough memory")
  else return [.str (((List.replicate n s).intersperse separator).flatten)]

def captureValue : Nat ⊕ Bytes → Value
  | .inl position => .ofNat position
  | .inr s => .str s

def matched {α : Type} (r : Except String α) : Act α :=
  match r with
  | .ok a => return a
  | .error message => c.fail message

def captureValues (subject : Array UInt8) (start stop : Nat) (captures : List Pattern.Capture)
    (whole : Bool) : Act (List Value) := do
  let captured ← matched c (Pattern.allCaptured subject start stop captures whole)
  return captured.map captureValue

/-- The first match of a pattern at a place or, unless the pattern is bound to it, after it. -/
def searchFrom (subject : Array UInt8) (pattern : Bytes) (start : Nat) :
    Except String (Option (Nat × Nat × List Pattern.Capture)) :=
  match pattern with
  | 94 :: pattern => do
    match ← Pattern.match? subject pattern start with
    | some (stop, captures) => return some (start, stop, captures)
    | none => return none
  | pattern => Pattern.search subject pattern (subject.size - start + 1) start

/-- Looks for a pattern; with `places` the result begins with where the match begins and ends. -/
def search (places : Bool) : Act (List Value) := do
  let s ← c.text 1
  let pattern ← c.text 2
  let start := rangeStart (← c.intOr 3 1) s.length - 1
  if s.length < start then return [.nil]
  if places && ((c.value 4).isTruthy || Pattern.isPlain pattern) then
    match Pattern.findPlain pattern start (s.drop start) with
    | some i => return [.ofNat (i + 1), .ofNat (i + pattern.length)]
    | none => return [.nil]
  let subject := s.toArray
  match ← matched c (searchFrom subject pattern start) with
  | none => return [.nil]
  | some (start, stop, captures) =>
    let captured ← captureValues c subject start stop captures !places
    return if places then .ofNat (start + 1) :: .ofNat stop :: captured else captured

/-- The step through the matches of a pattern; a match may not end where the last one ended. -/
def allMatches : Act (List Value) := do
  let s ← c.text 1
  let pattern ← c.text 2
  let start := rangeStart (← c.intOr 3 1) s.length - 1
  let position ← Act.newCell (.ofNat start)
  let _ ← Act.newCell .nil
  return [← Act.newFunction (.native (.nextMatch s pattern position))]

/-- The first match at a place or after it that does not end at `last`. -/
def nextMatchFrom (subject : Array UInt8) (pattern : Bytes) (last : Option Nat) : Nat → Nat →
    Except String (Option (Nat × Nat × List Pattern.Capture))
  | 0, _ => .ok none
  | n + 1, i => do
    if subject.size < i then return none
    match ← Pattern.match? subject pattern i with
    | some (stop, captures) =>
      if last = some stop then nextMatchFrom subject pattern last n (i + 1)
      else return some (i, stop, captures)
    | none => nextMatchFrom subject pattern last n (i + 1)

def place? : Value → Option Nat
  | .number (.int i) => some i.toInt.toNat
  | _ => none

/-- The captures of the next match; two cells hold where to go on and where the last match ended. -/
def nextMatch (s pattern : Bytes) (position : Nat) : Act (List Value) := do
  let start := (place? (← Act.look (·.cell position))).getD 0
  let last := place? (← Act.look (·.cell (position + 1)))
  let subject := s.toArray
  match ← matched c (nextMatchFrom subject pattern last (s.length + 2) start) with
  | none => return [.nil]
  | some (start, stop, captures) =>
    Act.change fun w => (w.setCell position (.ofNat stop)).setCell (position + 1) (.ofNat stop)
    captureValues c subject start stop captures true

/-- One capture as text in a replacement; without captures the first one is the whole match. -/
def captureText (captured : List Value) (whole : Bytes) (n : Nat) : Except String Bytes :=
  match captured[n - 1]? with
  | some v => .ok ((v.toText?).getD [])
  | none =>
    if captured.isEmpty && n = 1 then .ok whole
    else .error ("invalid capture index %" ++ decimal n ++ " in replacement string")

def fillIn (captured : List Value) (whole : Bytes) : Bytes → Except String Bytes
  | [] => .ok []
  | 37 :: b :: rest => do
    let part ← if b == 37 then .ok [b]
      else if b == 48 then .ok whole
      else if Bytes.isDigit b then captureText captured whole (b.toNat - 48)
      else .error "invalid use of '%' in replacement string"
    return part ++ (← fillIn captured whole rest)
  | [37] => .error "invalid use of '%' in replacement string"
  | b :: rest => (fillIn captured whole rest).map (b :: ·)

def replacement (subject : Array UInt8) (start stop : Nat) (captures : List Pattern.Capture) :
    Act Bytes := do
  let whole := (subject.extract start stop).toList
  let accept (v : Value) : Act Bytes :=
    if v.isTruthy then
      match v.toText? with
      | some s => return s
      | none => c.fail ("invalid replacement value (a " ++ v.typeName ++ ")")
    else return whole
  match c.value 3 with
  | .function f =>
    accept (Act.first (← Act.callFunction f (← captureValues c subject start stop captures true)
      .inner))
  | .table t =>
    let key := Act.first (← captureValues c subject start stop captures true)
    accept (← Act.index (.table t) key none none)
  | v =>
    let captured ← captureValues c subject start stop captures false
    matched c (fillIn captured whole ((v.toText?).getD []))

/-- Replaces matches from a place on, at most `limit` of them: the text, newest part first, and
their number. -/
def replaceFrom (subject : Array UInt8) (pattern : Bytes) (isBound : Bool) (limit : Nat) :
    Nat → Nat → Option Nat → Nat → List Bytes → Act (List Bytes × Nat)
  | 0, _, _, count, done => return (done, count)
  | n + 1, i, last, count, done => do
    let rest := (subject.extract i subject.size).toList
    if limit ≤ count then return (rest :: done, count)
    match ← matched c (Pattern.match? subject pattern i) with
    | some (stop, captures) =>
      if last = some stop then
        if i < subject.size && !isBound then
          replaceFrom subject pattern isBound limit n (i + 1) last count
            ((subject.extract i (i + 1)).toList :: done)
        else return (rest :: done, count)
      else
        let part ← replacement c subject i stop captures
        if isBound then
          return ((subject.extract stop subject.size).toList :: part :: done, count + 1)
        else
          replaceFrom subject pattern isBound limit n stop (some stop) (count + 1) (part :: done)
    | none =>
      if i < subject.size && !isBound then
        replaceFrom subject pattern isBound limit n (i + 1) last count
          ((subject.extract i (i + 1)).toList :: done)
      else return (rest :: done, count)

def replaceAll : Act (List Value) := do
  let s ← c.text 1
  let pattern ← c.text 2
  let limit ← c.intOr 4 (Int64.ofNat (s.length + 1))
  match c.value 3 with
  | .number _ | .str _ | .function _ | .table _ => pure ()
  | _ => c.typeFault 3 "string/function/table"
  let (isBound, pattern) := match pattern with
    | 94 :: pattern => (true, pattern)
    | pattern => (false, pattern)
  let (parts, count) ← replaceFrom c s.toArray pattern isBound limit.toInt.toNat
    (2 * s.length + 3) 0 none 0 []
  return [.str parts.reverse.flatten, .ofNat count]

def conversionFault {α : Type} (modifiers : Bytes) (letter : Option UInt8) : Act α :=
  Act.raiseAt c.site.position (Bytes.ofString "invalid conversion '%" ++ modifiers ++
    letter.toList ++ Bytes.ofString "' to 'format'")

def literal (n : Nat) : Act Bytes := do
  match c.value n with
  | .str s => return quoted s
  | .number x => return numberLiteral x
  | .nil => return Bytes.ofString "nil"
  | .bool b => return Bytes.ofString (if b then "true" else "false")
  | _ => c.argumentFault n (Bytes.ofString "value has no literal form")

def formatted (n : Nat) (modifiers : Bytes) (letter : Option UInt8) : Act Bytes := do
  let directive (flags : String) (precise : Bool) : Act Directive :=
    match Directive.read? flags precise modifiers with
    | some d => return d
    | none => conversionFault c modifiers letter
  match letter.map fun b => Char.ofNat b.toNat with
  | some 'c' =>
    let i ← c.int n
    return (← directive "-" false).text [UInt8.ofNat i.toBitVec.toNat]
  | some 'd' | some 'i' =>
    let i ← c.int n
    return (← directive "-+0 " true).signedInt i
  | some 'u' =>
    let i ← c.int n
    return (← directive "-0" true).unsignedInt 10 false i
  | some 'o' =>
    let i ← c.int n
    return (← directive "-#0" true).unsignedInt 8 false i
  | some 'x' =>
    let i ← c.int n
    return (← directive "-#0" true).unsignedInt 16 false i
  | some 'X' =>
    let i ← c.int n
    return (← directive "-#0" true).unsignedInt 16 true i
  | some 'q' =>
    if modifiers.isEmpty then literal c n
    else c.fail "specifier '%q' cannot have modifiers"
  | some 'p' =>
    let d ← directive "-" false
    match c.value n with
    | .nil | .bool _ | .number _ => return d.text (Bytes.ofString "(null)")
    | v => return d.text (Bytes.ofString v.addressText)
  | some 's' =>
    let s ← Act.toText (c.value n)
    if modifiers.isEmpty then return s
    else if s.contains 0 then c.argumentFault n (Bytes.ofString "string contains zeros")
    else return (← directive "-" true).text s
  | some letter =>
    if "aAeEfgG".toList.contains letter then
      let x ← c.number n
      return (← directive "-+#0 " true).float letter x.toFloat
    else conversionFault c modifiers (some (UInt8.ofNat letter.toNat))
  | none => conversionFault c modifiers none

/-- The text of a format whose directives take the arguments after the `n`-th. -/
def formatFrom : Nat → Nat → Bytes → Act (List Bytes)
  | 0, _, _ => return []
  | _, _, [] => return []
  | k + 1, n, 37 :: 37 :: rest => return [37] :: (← formatFrom k n rest)
  | k + 1, n, 37 :: rest => do
    if !c.has (n + 1) then c.argumentFault (n + 1) (Bytes.ofString "no value")
    let modifiers := rest.takeWhile Directive.isModifier
    if 22 ≤ modifiers.length + 1 then c.fail "invalid format string to 'format'"
    match rest.dropWhile Directive.isModifier with
    | [] => formatted c (n + 1) modifiers none >>= fun s => return [s]
    | letter :: rest =>
      let s ← formatted c (n + 1) modifiers (some letter)
      return s :: (← formatFrom k (n + 1) rest)
  | k + 1, n, b :: rest => return [b] :: (← formatFrom k n rest)

def text (f : TextFunction) : Act (List Value) := do
  match f with
  | .byte => byteValues c
  | .char => return [.str (← bytesFrom c 1 c.arguments)]
  | .find => search c true
  | .format =>
    let s ← c.text 1
    return [.str (← formatFrom c s.length 1 s).flatten]
  | .gmatch => allMatches c
  | .gsub => replaceAll c
  | .len => return [.ofNat (← c.text 1).length]
  | .lower => return [.str ((← c.text 1).map Bytes.lower)]
  | .matching => search c false
  | .rep => repeated c
  | .reverse => return [.str (← c.text 1).reverse]
  | .sub => substring c
  | .upper => return [.str ((← c.text 1).map Bytes.upper)]

def operationFault {α : Type} (event : String) : Act α :=
  c.fail ("attempt to " ++ event ++ " a '" ++ (c.value 1).typeName ++ "' with a '" ++
    (c.value 2).typeName ++ "'")

/-- How the second operand of an operation on strings takes part in it; strings do not. -/
def secondMetamethod (event : String) : Act Value :=
  match c.value 2 with
  | .str _ => return .nil
  | v => Act.metamethod v ("__" ++ event)

/-- Arithmetic on strings that spell numbers; otherwise the second operand may know the
operation. -/
def textArithmetic (op : BinaryOp) : Act (List Value) := do
  match (c.value 1).toNumber?, (c.value 2).toNumber? with
  | some x, some y => return [← Act.arithmetic op (.number x) (.number y) none none none]
  | _, _ =>
    let m ← secondMetamethod c (Act.eventOf op)
    if m.isNil then operationFault c (Act.eventOf op)
    else return [Act.first (← Act.call m [c.value 1, c.value 2] .inner)]

def textNegation : Act (List Value) := do
  match (c.value 1).toNumber? with
  | some x => return [← Act.negate (.number x) none none]
  | none => operationFault c "unm"

end Hypermedia.Script.Library
