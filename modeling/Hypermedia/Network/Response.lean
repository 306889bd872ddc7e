import Hypermedia.Text.Cut
import Hypermedia.Dict

/-! Responses. -/
namespace Hypermedia.Network

/-- The answer to a request; header names are in lower case. -/
structure Response where
  status : Nat
  url : String
  headers : Dict String := {}
  body : String

namespace Response

def headerName (name : String) : String :=
  String.ofList (name.toList.map Char.toLower)

def withHeader (r : Response) (name value : String) : Response :=
  { r with headers := r.headers.insert (headerName name) value }

/-- The value of a header, whatever the case of its name. -/
def header? (r : Response) (name : String) : Option String :=
  r.headers.get? (headerName name)

def isSuccess (r : Response) : Bool :=
  200 ≤ r.status && r.status < 300

def contentType? (r : Response) : Option String :=
  r.headers.get? "content-type"

def markupTypes : List String :=
  ["text/celx", "text/xml", "application/xml", "application/celx+xml"]

/-- A content type without its parameters, in lower case. -/
def essence (contentType : String) : String :=
  String.ofList ((Text.trim (contentType.toList.takeWhile (· != ';'))).map Char.toLower)

def isMarkup (r : Response) : Bool :=
  match r.contentType? with
  | some contentType => markupTypes.contains (essence contentType)
  | none => false

end Response

end Hypermedia.Network
