import Hypermedia.Session.Schedule
import Hypermedia.Session.View

/-! The shell: commands that drive a session line by line, and what it prints. -/
namespace Hypermedia.CommandLine

inductive Output where
  | normal (text : String)
  | error (text : String)
  deriving DecidableEq, Repr

inductive Command where
  | nothing
  | quit
  | display
  | back
  | forward
  | refresh
  | go (destination : String)
  | fire (selector event : String)
  | unknown (word : String)
  deriving DecidableEq, Repr

def Command.ofLine (line : String) : Command :=
  match (Text.words line.toList).map String.ofList with
  | [] => nothing
  | "quit" :: _ => quit
  | "show" :: _ => display
  | "back" :: _ => back
  | "forward" :: _ => forward
  | "refresh" :: _ => refresh
  | "go" :: destination :: _ => go destination
  | ["fire", selector] => fire selector "on_submit"
  | "fire" :: selector :: event :: _ => fire selector event
  | word :: _ => unknown word

namespace Shell

variable {σ : Type} (transport : Session.Transport σ)

def prompt : Output := .normal "> "

def complaint (e : Error) : Output := .error (e.message ++ "\n")

/-- Prints the title, the outline and the alerts; an outline that cannot be shown is an error. -/
def showSession (s : Session σ) : List Output × Except Error Unit :=
  let heading := .normal ("== " ++ s.title ++ " ==\n")
  match s.outline with
  | .error e => ([heading], .error e)
  | .ok outline =>
    let alerts := s.alerts.map fun message => .normal ("! " ++ message ++ "\n")
    (heading :: .normal outline :: alerts, .ok ())

def fireEvent (s : Session σ) (selector event : String) :
    List Output × Except Error Unit × Session σ :=
  match s.find? selector with
  | .error e => ([], .error (.selection e), s)
  | .ok none => ([.normal ("nothing matched " ++ selector ++ "\n")], .ok (), s)
  | .ok (some id) =>
    match (Session.dispatch id event).run s with
    | (.error e, s) => ([], .error e, s)
    | (.ok true, s) => ([], .ok (), s)
    | (.ok false, s) => ([.normal (event ++ " on " ++ selector ++ " was not handled\n")], .ok (), s)

def commandNames : String := "go, fire, back, forward, refresh, show, quit"

def obey (s : Session σ) : Command → List Output × Except Error Unit × Session σ
  | .nothing | .quit => ([], .ok (), s)
  | .display =>
    let (shown, outcome) := showSession s
    (shown, outcome, s)
  | .back => ([], (Session.back transport).run s)
  | .forward => ([], (Session.forward transport).run s)
  | .refresh => ([], (Session.refresh transport).run s)
  | .go destination => ([], (Session.route transport destination false).run s)
  | .fire selector event => fireEvent s selector event
  | .unknown word =>
    ([.normal ("unknown command '" ++ word ++ "' (" ++ commandNames ++ ")\n")], .ok (), s)

/-- Obeys a line and prints what came of it; the session ends with the line that quits. -/
def answer (s : Session σ) (line : String) : List Output × Option (Session σ) :=
  let command := Command.ofLine line
  if command = .quit then ([], none)
  else
    let (printed, outcome, s) := obey transport s command
    match outcome with
    | .error e => (printed ++ [complaint e, prompt], some s)
    | .ok () =>
      let s := s.runUntilIdle transport
      (printed ++ s.errors.map complaint ++ [prompt], some { s with errors := [] })

def greeting : Output :=
  .normal (Session.programName ++ " v" ++ Session.programVersion ++ "\n")

/-- Opens a session and shows its first page; there is no session when that fails. -/
def start (config : Session.Config) (network : σ) : List Output × Option (Session σ) :=
  let opened : List Output × Except Error (Session σ) :=
    match Session.start config network with
    | .error e => ([], .error e)
    | .ok s =>
      match (Session.route transport "/" false).run s with
      | (.error e, _) => ([], .error e)
      | (.ok (), s) =>
        let s := s.runUntilIdle transport
        let (shown, outcome) := showSession s
        (shown, outcome.map fun _ => s)
  match opened with
  | (printed, .ok s) => (greeting :: printed ++ [prompt], some s)
  | (printed, .error e) => (greeting :: printed ++ [complaint e], none)

def runLines (s : Session σ) : List String → List Output
  | [] => []
  | line :: rest =>
    match answer transport s line with
    | (printed, some s) => printed ++ runLines s rest
    | (printed, none) => printed

end Shell

end Hypermedia.CommandLine
