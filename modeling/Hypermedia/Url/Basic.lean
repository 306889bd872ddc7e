import Hypermedia.Url.Host

/-! URLs and their text. -/
namespace Hypermedia

namespace Url

/-- The path of a URL: one text, or segments that each follow a slash. -/
inductive Path where
  | opaqueText (text : List Char)
  | segments (list : List (List Char))
  deriving DecidableEq, Repr

end Url

structure Url where
  scheme : List Char
  username : List Char := []
  password : Option (List Char) := none
  host : Option Url.Host := none
  port : Option Nat := none
  path : Url.Path
  query : Option (List Char) := none
  fragment : Option (List Char) := none
  deriving DecidableEq, Repr

namespace Url

def defaultPort? (scheme : List Char) : Option Nat :=
  if scheme = "http".toList ∨ scheme = "ws".toList then some 80
  else if scheme = "https".toList ∨ scheme = "wss".toList then some 443
  else if scheme = "ftp".toList then some 21
  else none

def isFileScheme (scheme : List Char) : Bool :=
  scheme == "file".toList

/-- Special schemes always have a path, and take a backslash for a slash. -/
def isSpecialScheme (scheme : List Char) : Bool :=
  (defaultPort? scheme).isSome || isFileScheme scheme

def Path.render : Path → List Char
  | opaqueText text => text
  | segments list => list.flatMap fun segment => '/' :: segment

def credentials (u : Url) : List Char :=
  match u.password with
  | some password => u.username ++ ':' :: password ++ ['@']
  | none => if u.username.isEmpty then [] else u.username ++ ['@']

def authority (u : Url) : List Char :=
  match u.host with
  | none =>
    if isFileScheme u.scheme then ['/', '/']
    else match u.path with
      | .segments ([] :: _ :: _) => ['/', '.']
      | _ => []
  | some host =>
    '/' :: '/' :: u.credentials ++ host.render ++
      (match u.port with
        | some port => ':' :: Decimal.digitsOf port
        | none => [])

def render (u : Url) : List Char :=
  u.scheme ++ ':' :: u.authority ++ u.path.render ++
    (match u.query with
      | some query => '?' :: query
      | none => []) ++
    (match u.fragment with
      | some fragment => '#' :: fragment
      | none => [])

def text (u : Url) : String :=
  String.ofList u.render

def addPair (u : Url) (name value : String) : Url :=
  let pair := formEncode name.toList ++ '=' :: formEncode value.toList
  let query := match u.query with
    | some (c :: rest) => (c :: rest) ++ '&' :: pair
    | _ => pair
  { u with query := some query }

/-- Adds pairs to the query; the URL has a query afterwards even when there are none. -/
def addPairs (u : Url) (pairs : List (String × String)) : Url :=
  pairs.foldl (fun u pair => u.addPair pair.1 pair.2) { u with query := some (u.query.getD []) }

end Url

end Hypermedia
