/-! Settings of a session. -/
namespace Hypermedia.Session

def programName : String := "celx"

def programVersion : String := "0.1.0"

/-- Settings of a session; the timeout is in milliseconds. -/
structure Config where
  endpoint : String := "http://localhost:8080/"
  title : String := programName
  timeout : Nat := 30000
  userAgent : String := programName ++ "/" ++ programVersion
  historyLimit : Nat := 256
  failFast : Bool := true

end Hypermedia.Session
