import Hypermedia.Url.Basic

/-! Reading URLs, alone and relative to another. -/
namespace Hypermedia.Url

def isSlash (special : Bool) (c : Char) : Bool :=
  c == '/' || (special && c == '\\')

def isDriveLetter : List Char → Bool
  | [letter, mark] => letter.isAlpha && (mark == ':' || mark == '|')
  | _ => false

def isNormalDriveLetter : List Char → Bool
  | [letter, mark] => letter.isAlpha && mark == ':'
  | _ => false

def startsWithDriveLetter (s : List Char) : Bool :=
  isDriveLetter (s.take 2) &&
    (match s.drop 2 with
      | [] => true
      | c :: _ => "/\\?#".toList.contains c)

def isSingleDot (s : List Char) : Bool :=
  s == ['.'] || s.map Char.toLower == "%2e".toList

def isDoubleDot (s : List Char) : Bool :=
  [['.', '.'], ".%2e".toList, "%2e.".toList, "%2e%2e".toList].contains (s.map Char.toLower)

/-- Segments without the last one; a file keeps its drive letter. -/
def shorten (scheme : List Char) (segments : List (List Char)) : List (List Char) :=
  match segments with
  | [only] => if isFileScheme scheme && isNormalDriveLetter only then segments else []
  | _ => segments.dropLast

/-- Segments after one more, which is the last unless a slash follows it. -/
def addSegment (scheme : List Char) (segments : List (List Char)) (raw : List Char)
    (slash : Bool) : List (List Char) :=
  if isDoubleDot raw then
    let shorter := shorten scheme segments
    if slash then shorter else shorter ++ [[]]
  else if isSingleDot raw then if slash then segments else segments ++ [[]]
  else if isFileScheme scheme && segments.isEmpty && isDriveLetter raw then
    [[raw.headD 'C', ':']]
  else segments ++ [encode inPath raw]

def addSegments (scheme : List Char) (segments : List (List Char)) :
    List (List Char) → List (List Char)
  | [] => segments
  | [last] => addSegment scheme segments last false
  | raw :: rest => addSegments scheme (addSegment scheme segments raw true) rest

/-- A file path does not start with empty segments. -/
def dropEmptyStart (segments : List (List Char)) : List (List Char) :=
  match segments.dropWhile List.isEmpty with
  | [] => [[]]
  | kept => kept

def pathFrom (scheme : List Char) (start : List (List Char)) (s : List Char) : Path :=
  let segments := addSegments scheme start (Text.cut (isSlash (isSpecialScheme scheme)) s)
  .segments (if isFileScheme scheme then dropEmptyStart segments else segments)

structure Tail where
  path : List Char
  query : Option (List Char)
  fragment : Option (List Char)

def Tail.ofText (s : List Char) : Tail :=
  let (body, fragment) := match Text.splitOnce ['#'] s with
    | some (body, fragment) => (body, some fragment)
    | none => (s, none)
  match Text.splitOnce ['?'] body with
  | some (path, query) => ⟨path, some query, fragment⟩
  | none => ⟨body, none, fragment⟩

def withTail (u : Url) (t : Tail) : Url :=
  let set := if isSpecialScheme u.scheme then inSpecialQuery else inQuery
  { u with query := t.query.map (encode set), fragment := t.fragment.map (encode inFragment) }

def authorityPart (special : Bool) (s : List Char) : List Char :=
  s.takeWhile fun c => !(isSlash special c || c == '?' || c == '#')

/-- Cuts an authority at its last at sign. -/
def splitUserinfo (s : List Char) : Option (List Char) × List Char :=
  let after := (s.reverse.takeWhile (· != '@')).reverse
  match s.reverse.dropWhile (· != '@') with
  | [] => (none, s)
  | _ :: before => (some before.reverse, after)

/-- Cuts host and port at the first colon outside brackets. -/
def splitPort : Bool → List Char → List Char × Option (List Char)
  | _, [] => ([], none)
  | inside, c :: rest =>
    if c = ':' && !inside then ([], some rest)
    else
      let inside := if c = '[' then true else if c = ']' then false else inside
      let (host, port) := splitPort inside rest
      (c :: host, port)

/-- The port of a text; an empty one, and the scheme's own, count as none. -/
def port? (scheme : List Char) (s : List Char) : Option (Option Nat) :=
  if s.isEmpty then some none
  else (Decimal.natural? s).bind fun n =>
    if 65535 < n then none
    else if defaultPort? scheme = some n then some none
    else some (some n)

def setUserinfo (u : Url) (info : List Char) : Url :=
  match Text.splitOnce [':'] info with
  | none => { u with username := encode inUserinfo info }
  | some (name, password) =>
    { u with
      username := encode inUserinfo name
      password := if password.isEmpty then none else some (encode inUserinfo password) }

def pathAfterHost (scheme : List Char) (s : List Char) : Path :=
  match s with
  | [] => .segments (if isSpecialScheme scheme then [[]] else [])
  | c :: rest =>
    if isSlash (isSpecialScheme scheme) c then pathFrom scheme [] rest else pathFrom scheme [] s

/-- Reads what follows the two slashes of a URL that is no file. -/
def afterSlashes (scheme : List Char) (s : List Char) : Option Url := do
  let special := isSpecialScheme scheme
  let authority := authorityPart special s
  let rest := s.drop authority.length
  let (info, place) := splitUserinfo authority
  let (hostText, portText) := splitPort false place
  if hostText.isEmpty && (special || portText.isSome || info.isSome) then none
  let host ← if special then Host.parse? hostText else Host.parseOpaque? hostText
  let port ← port? scheme (portText.getD [])
  let tail := Tail.ofText rest
  let start : Url := { scheme, host := some host, port, path := pathAfterHost scheme tail.path }
  return (start.setUserinfo (info.getD [])).withTail tail

/-- Reads what follows the scheme of a file, relative to the segments of another file. -/
def file (base : Option Url) (s : List Char) : Option Url := do
  let scheme := "file".toList
  let tail := Tail.ofText s
  let start : Url := { scheme, path := .segments [] }
  match s with
  | c :: d :: more =>
    if isSlash true c && isSlash true d then
      let hostText := authorityPart true more
      let rest := more.drop hostText.length
      if isDriveLetter hostText || hostText.isEmpty then
        let tail := Tail.ofText more
        return { start with path := pathFrom scheme [] tail.path }.withTail tail
      else
        let host ← Host.parse? hostText
        let host := if host = .name "localhost".toList then none else some host
        let tail := Tail.ofText rest
        return { start with host, path := pathAfterHost scheme tail.path }.withTail tail
    else relative scheme tail start
  | _ => relative scheme tail start
where
  relative (scheme : List Char) (tail : Tail) (start : Url) : Option Url :=
    match base, tail.path with
    | none, path => some ({ start with path := pathAfterHost scheme path }.withTail tail)
    | some b, [] =>
      match tail.query with
      | none => some { (b.withTail tail) with query := b.query }
      | some _ => some (b.withTail tail)
    | some b, c :: path =>
      let kept := match b.path with
        | .segments list => list
        | .opaqueText _ => []
      if isSlash true c then
        let drive := (kept.head?.filter isNormalDriveLetter).toList
        let drive := if startsWithDriveLetter path then [] else drive
        some ({ start with host := b.host, path := pathFrom scheme drive path }.withTail tail)
      else if startsWithDriveLetter s then
        some ({ start with path := pathFrom scheme [] (c :: path) }.withTail tail)
      else
        some ({ start with
          host := b.host
          path := pathFrom scheme (shorten scheme kept) (c :: path) }.withTail tail)

/-- Reads what follows a scheme without a syntax of its own. -/
def general (scheme : List Char) (s : List Char) : Option Url :=
  match s with
  | '/' :: '/' :: rest => afterSlashes scheme rest
  | _ =>
    let tail := Tail.ofText s
    let path := match tail.path with
      | '/' :: rest => pathFrom scheme [] rest
      | text => .opaqueText (encode isControl text)
    some ({ scheme, path : Url }.withTail tail)

def isSchemeChar (c : Char) : Bool :=
  c.isAlphanum || c == '+' || c == '-' || c == '.'

def splitScheme (s : List Char) : Option (List Char × List Char) :=
  match s with
  | [] => none
  | c :: _ =>
    if c.isAlpha then
      match s.dropWhile isSchemeChar with
      | ':' :: rest => some ((s.takeWhile isSchemeChar).map Char.toLower, rest)
      | _ => none
    else none

/-- Text without the blanks and controls around it and without tabs and line ends anywhere. -/
def clean (s : List Char) : List Char :=
  let isTrimmed := fun (c : Char) => c.toNat ≤ 0x20
  ((s.dropWhile isTrimmed).reverse.dropWhile isTrimmed).reverse.filter
    fun c => c != '\t' && c != '\n' && c != '\r'

inductive Fault where
  | relative
  | malformed
  deriving DecidableEq, Repr

def withScheme (scheme s : List Char) : Option Url :=
  if isFileScheme scheme then file none s
  else if isSpecialScheme scheme then afterSlashes scheme (s.dropWhile (isSlash true))
  else general scheme s

def parse (s : String) : Except Fault Url :=
  match splitScheme (clean s.toList) with
  | none => .error .relative
  | some (scheme, rest) =>
    match withScheme scheme rest with
    | some u => .ok u
    | none => .error .malformed

def relative (base : Url) (s : List Char) : Option Url :=
  match base.path with
  | .opaqueText _ =>
    match s with
    | '#' :: fragment => some { base with fragment := some (encode inFragment fragment) }
    | _ => none
  | .segments kept =>
    if isFileScheme base.scheme then file (some base) s
    else
      let special := isSpecialScheme base.scheme
      let tail := Tail.ofText s
      match s with
      | '/' :: '/' :: rest => afterSlashes base.scheme rest
      | c :: rest =>
        if isSlash special c then
          match rest with
          | d :: _ =>
            if isSlash special d then
              afterSlashes base.scheme (s.dropWhile (isSlash special))
            else
              let path := pathFrom base.scheme [] (tail.path.drop 1)
              some ({ base with path }.withTail tail)
          | [] => some ({ base with path := pathFrom base.scheme [] [] }.withTail tail)
        else if tail.path.isEmpty then
          match tail.query with
          | none => some { base with fragment := (base.withTail tail).fragment }
          | some _ => some (base.withTail tail)
        else
          some ({ base with path := pathFrom base.scheme kept.dropLast tail.path }.withTail tail)
      | [] => some { base with fragment := none }

def join (base : Url) (s : String) : Option Url :=
  let s := clean s.toList
  match splitScheme s with
  | some (scheme, rest) =>
    if isSpecialScheme scheme && scheme == base.scheme
        && !isFileScheme scheme && (rest.takeWhile (isSlash true)).length < 2 then
      base.relative rest
    else withScheme scheme rest
  | none => base.relative s

end Hypermedia.Url
