import Hypermedia.CommandLine.Arguments
import Hypermedia.CommandLine.Shell
import Hypermedia.Markup.Page
import Hypermedia.Markup.Reader
import Hypermedia.Widget.Contents

/-! Invocations carried out: what is printed, and the exit code. -/
namespace Hypermedia.CommandLine

/-- Checks a document without a session. -/
def checkDocument (markup : String) : Except Error String := do
  let document ← Except.widen (.compile ∘ .markup) (Markup.parse markup)
  let (page, workspace) := (Markup.compilePage document).run {}
  let page ← page
  let heading := match page.title with
    | some title => "== " ++ title ++ " ==\n"
    | none => ""
  let outline ← match page.content with
    | some content => workspace.tree.outline workspace.tree.rawContent content.root
    | none => .ok "(no content)\n"
  let counts := [(workspace.registry.size, " components, "), (page.rules.size, " rules, "),
    (page.scripts.length, " page scripts\n")]
  return heading ++ outline ++ String.join (counts.map fun (n, unit) => decimal n ++ unit)

/-- The outcome of an invocation: its end, or a session that waits for lines. -/
inductive Progress (σ : Type) where
  | ended (printed : List Output) (code : UInt32)
  | serving (printed : List Output) (session : Session σ)

def failureCode : UInt32 := 1

def usageCode : UInt32 := 2

def configOf (endpoint : String) (title : Option String) (seconds : Nat) (keepGoing : Bool) :
    Session.Config :=
  { endpoint, title := title.getD Session.programName, timeout := 1000 * seconds
    failFast := !keepGoing }

/-- Carries out an invocation; `document` is the content of the file it names. -/
def Invocation.execute {σ : Type} (transport : Session.Transport σ) (network : σ)
    (document : Except Error String) : Invocation → Progress σ
  | .help topic => .ended [.normal topic.text] 0
  | .version =>
    .ended [.normal (Session.programName ++ " " ++ Session.programVersion ++ "\n")] 0
  | .check _ =>
    match document >>= checkDocument with
    | .ok text => .ended [.normal text] 0
    | .error e => .ended [Shell.complaint e] failureCode
  | .run endpoint title seconds keepGoing =>
    match Shell.start transport (configOf endpoint title seconds keepGoing) network with
    | (printed, some s) => .serving printed s
    | (printed, none) => .ended printed failureCode

def Progress.complete {σ : Type} (transport : Session.Transport σ) (lines : List String) :
    Progress σ → List Output × UInt32
  | .ended printed code => (printed, code)
  | .serving printed s => (printed ++ Shell.runLines transport s lines, 0)

def UsageError.outcome {σ : Type} (e : UsageError) : Progress σ :=
  .ended [.error e.message] usageCode

end Hypermedia.CommandLine
