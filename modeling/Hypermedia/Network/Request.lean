import Hypermedia.Action.Instruction
import Hypermedia.Json
import Hypermedia.Error
import Hypermedia.Url.Parse

/-! Requests. -/
namespace Hypermedia.Network

inductive Method where
  | get | post | put | patch | delete
  deriving DecidableEq, Repr

def Method.ofVerb? : Action.Verb → Option Method
  | .get => some get
  | .post => some post
  | .put => some put
  | .patch => some patch
  | .delete => some delete
  | _ => none

def Method.text : Method → String
  | get => "GET"
  | post => "POST"
  | put => "PUT"
  | patch => "PATCH"
  | delete => "DELETE"

structure Request where
  method : Method
  url : Url
  headers : Dict String := {}
  body : Option String := none

namespace Request

def toUrl (method : Method) (url : Url) : Except NetworkError Request :=
  if url.scheme = "http".toList ∨ url.scheme = "https".toList then .ok { method, url }
  else .error (.invalidUrl url.text)

def ofText (method : Method) (url : String) : Except NetworkError Request :=
  match Url.parse url with
  | .ok u => toUrl method u
  | .error _ => .error (.invalidUrl url)

def withHeader (r : Request) (name value : String) : Request :=
  { r with headers := r.headers.insert name value }

/-- The value of a query parameter: a text itself, anything else as a document. -/
def parameter : Json → String
  | .str s => s
  | value => String.ofList value.render

/-- Attaches data: to the query of a GET, else as a document in the body. -/
def withData (r : Request) (data : Json) : Request :=
  match r.method, data with
  | .get, .obj members =>
    { r with url := r.url.addPairs (members.map fun (name, value) => (name, parameter value)) }
  | .get, _ => r
  | _, _ =>
    { r.withHeader "Content-Type" "application/json" with body := some (String.ofList data.render) }

end Request

end Hypermedia.Network
