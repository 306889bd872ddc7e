import Hypermedia.Session.State

/-! A network that reaches no server. -/
namespace Hypermedia.CommandLine

def withoutCredentials (u : Url) : Url :=
  { u with username := [], password := none }

/-- Every request fails before it is sent. -/
def offline : Session.Transport Unit where
  send _ s := s
  reply r s :=
    let place := (withoutCredentials r.url).text
    (some (.error (.transport ("error sending request for url (" ++ place ++ ")"))), s)

end Hypermedia.CommandLine
