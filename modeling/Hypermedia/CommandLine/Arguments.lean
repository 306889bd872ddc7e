import Hypermedia.Decimal.Read
import Hypermedia.Session.Config

/-! Arguments of the command line. -/
namespace Hypermedia.CommandLine

inductive Topic where
  | program
  | run
  | check
  | help
  deriving DecidableEq, Repr

inductive Invocation where
  | help (topic : Topic)
  | version
  | run (endpoint : String) (title : Option String) (seconds : Nat) (keepGoing : Bool)
  | check (file : String)
  deriving DecidableEq, Repr

inductive UsageError where
  | noCommand
  | unknownCommand (word : String)
  | unexpected (topic : Topic) (argument : String)
  | missingOperand (topic : Topic)
  | missingValue (option : String)
  | repeated (topic : Topic) (option : String)
  | invalidSeconds (value : String)
  deriving DecidableEq, Repr

def defaultSeconds : Nat := 30

namespace Topic

def operand : Topic → String
  | run => "<ENDPOINT>"
  | check => "<FILE>"
  | help => "[COMMAND]..."
  | program => "<COMMAND>"

def usage : Topic → String
  | run => "Usage: celx run [OPTIONS] <ENDPOINT>"
  | check => "Usage: celx check <FILE>"
  | help => "Usage: celx help [COMMAND]..."
  | program => "Usage: celx <COMMAND>"

def summary : Topic → String
  | run => "Open an application and drive it from stdin"
  | check => "Compile a local document and print its widget outline"
  | help => "Print this message or the help of the given subcommand(s)"
  | program => "Terminal hypermedia client"

def details : Topic → List String
  | program =>
    ["Commands:",
      "  run    Open an application and drive it from stdin",
      "  check  Compile a local document and print its widget outline",
      "  help   Print this message or the help of the given subcommand(s)",
      "",
      "Options:",
      "  -h, --help     Print help",
      "  -V, --version  Print version"]
  | run =>
    ["Arguments:",
      "  <ENDPOINT>  Application endpoint",
      "",
      "Options:",
      "      --title <TITLE>                Title shown at the root route and for untitled pages",
      "      --timeout-secs <TIMEOUT_SECS>  Request timeout (seconds) [default: 30]",
      "      --keep-going                   Keep going after runtime errors instead of halting",
      "  -h, --help                         Print help"]
  | check =>
    ["Arguments:",
      "  <FILE>  Markup file",
      "",
      "Options:",
      "  -h, --help  Print help"]
  | help =>
    ["Arguments:",
      "  [COMMAND]...  Print help for the subcommand(s)"]

def text (t : Topic) : String :=
  String.join (([t.summary, "", t.usage, ""] ++ t.details).map (· ++ "\n"))

def ofWord? : String → Option Topic
  | "run" => some run
  | "check" => some check
  | "help" => some help
  | _ => none

end Topic

namespace UsageError

def reason : UsageError → String
  | noCommand => ""
  | unknownCommand word => "unrecognized subcommand '" ++ word ++ "'"
  | unexpected _ argument => "unexpected argument '" ++ argument ++ "' found"
  | missingOperand topic =>
    "the following required arguments were not provided:\n  " ++ topic.operand
  | missingValue option => "a value is required for '" ++ option ++ "' but none was supplied"
  | repeated _ option => "the argument '" ++ option ++ "' cannot be used multiple times"
  | invalidSeconds value =>
    "invalid value '" ++ value ++ "' for '--timeout-secs <TIMEOUT_SECS>'"

def message : UsageError → String
  | noCommand => Topic.program.text
  | e =>
    let usage := match e with
      | unknownCommand _ => "\n" ++ Topic.program.usage ++ "\n"
      | unexpected topic _ | missingOperand topic | repeated topic _ => "\n" ++ topic.usage ++ "\n"
      | _ => ""
    "error: " ++ e.reason ++ "\n" ++ usage ++ "\nFor more information, try '--help'.\n"

end UsageError

inductive ValueOption where
  | title
  | seconds
  deriving DecidableEq, Repr

def ValueOption.text : ValueOption → String
  | title => "--title"
  | seconds => "--timeout-secs"

structure Reading where
  topic : Topic
  literal : Bool := false
  awaiting : Option ValueOption := none
  operand : Option String := none
  title : Option String := none
  seconds : Option Nat := none
  keepGoing : Bool := false

/-- Why reading ends early: help is asked for, or something is wrong. -/
inductive Stop where
  | help (topic : Topic)
  | usage (error : UsageError)

namespace Reading

def looksLikeOption (argument : String) : Bool :=
  ['-'].isPrefixOf argument.toList && argument != "-"

def has (r : Reading) : ValueOption → Bool
  | .title => r.title.isSome
  | .seconds => r.seconds.isSome

def setValue (r : Reading) (o : ValueOption) (value : String) : Except Stop Reading :=
  if r.has o then .error (.usage (.repeated r.topic o.text))
  else match o with
    | .title => .ok { r with title := some value, awaiting := none }
    | .seconds =>
      match Decimal.index? value.toList with
      | some n => .ok { r with seconds := some n, awaiting := none }
      | none => .error (.usage (.invalidSeconds value))

def valueOption? (argument : String) : Option (ValueOption × Option String) :=
  [ValueOption.title, .seconds].findSome? fun o =>
    if argument = o.text then some (o, none)
    else ((o.text ++ "=").toList.isPrefixOf? argument.toList).map fun value =>
      (o, some (String.ofList value))

def takeOperand (r : Reading) (argument : String) : Except Stop Reading :=
  match r.operand with
  | none => .ok { r with operand := some argument }
  | some _ => .error (.usage (.unexpected r.topic argument))

def takeOption (r : Reading) (argument : String) : Except Stop Reading :=
  if argument = "--" then .ok { r with literal := true }
  else if argument = "--help" || ['-', 'h'].isPrefixOf argument.toList then
    .error (.help r.topic)
  else if r.topic != .run then .error (.usage (.unexpected r.topic argument))
  else if argument = "--keep-going" then
    if r.keepGoing then .error (.usage (.repeated r.topic argument))
    else .ok { r with keepGoing := true }
  else match valueOption? argument with
    | some (o, some value) => r.setValue o value
    | some (o, none) => .ok { r with awaiting := some o }
    | none => .error (.usage (.unexpected r.topic argument))

def take (r : Reading) (argument : String) : Except Stop Reading :=
  match r.awaiting with
  | some o =>
    if looksLikeOption argument then .error (.usage (.missingValue o.text))
    else r.setValue o argument
  | none =>
    if r.literal || !looksLikeOption argument then r.takeOperand argument
    else r.takeOption argument

/-- What a command with these arguments asks for. -/
def finish (r : Reading) : Except Stop Invocation :=
  match r.awaiting, r.operand with
  | some o, _ => .error (.usage (.missingValue o.text))
  | none, none => .error (.usage (.missingOperand r.topic))
  | none, some operand =>
    if r.topic = .check then .ok (.check operand)
    else .ok (.run operand r.title (r.seconds.getD defaultSeconds) r.keepGoing)

end Reading

def readCommand (topic : Topic) (arguments : List String) : Except UsageError Invocation :=
  match (arguments.foldlM Reading.take { topic }) >>= Reading.finish with
  | .ok invocation => .ok invocation
  | .error (.help topic) => .ok (.help topic)
  | .error (.usage e) => .error e

/-- Finds the topic that words after `help` name; only the program has topics below it. -/
def readTopic : List String → Except UsageError Invocation
  | [] => .ok (.help .program)
  | word :: rest =>
    match Topic.ofWord? word, rest with
    | none, _ => .error (.unknownCommand word)
    | some topic, [] => .ok (.help topic)
    | some _, next :: _ => .error (.unknownCommand next)

def Invocation.ofArguments : List String → Except UsageError Invocation
  | [] => .error .noCommand
  | word :: rest =>
    match Topic.ofWord? word with
    | some .help => readTopic rest
    | some topic => readCommand topic rest
    | none =>
      let flag (letter : Char) := ['-', letter].isPrefixOf word.toList
      if word = "--help" || flag 'h' then .ok (.help .program)
      else if word = "--version" || flag 'V' then .ok .version
      else if Reading.looksLikeOption word then .error (.unexpected .program word)
      else .error (.unknownCommand word)

end Hypermedia.CommandLine
