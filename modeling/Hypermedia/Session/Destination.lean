import Hypermedia.Error
import Hypermedia.Url.Parse

/-! Destinations: the endpoints that pages name, and the way back and forward through those visited. -/
namespace Hypermedia.Session

/-- The URL of an endpoint seen from a base; one that begins with a slash or has no scheme is
relative. -/
def resolveEndpoint (base : Url) (endpoint : String) : Except NetworkError Url :=
  let relative := match base.join endpoint with
    | some u => .ok u
    | none => .error (.invalidUrl endpoint)
  if ['/'].isPrefixOf endpoint.toList then relative
  else match Url.parse endpoint with
    | .ok u => .ok u
    | .error .relative => relative
    | .error .malformed => .error (.invalidUrl endpoint)

/-- Destinations, oldest first, and the number of steps back from the newest. -/
structure History where
  entries : List String := []
  offset : Nat := 0
  limit : Nat

namespace History

def ofLimit (limit : Nat) : History :=
  { limit := max limit 1 }

/-- Records a destination; the oldest ones go when there are more than the limit. -/
def push (h : History) (destination : String) : History :=
  let entries := h.entries ++ [destination]
  { h with entries := entries.drop (entries.length - h.limit), offset := 0 }

def current? (h : History) : Option String :=
  if h.offset < h.entries.length then h.entries[h.entries.length - 1 - h.offset]? else none

def back (h : History) : History :=
  if h.entries.isEmpty then h else { h with offset := min (h.offset + 1) (h.entries.length - 1) }

def forward (h : History) : History :=
  if h.entries.isEmpty then h else { h with offset := h.offset - 1 }

end History

end Hypermedia.Session
