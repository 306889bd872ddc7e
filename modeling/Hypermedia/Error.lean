import Hypermedia.Script.Failure

/-! The causes of errors and their wording. -/
namespace Hypermedia

def decimal (n : Nat) : String :=
  String.ofList (Decimal.digitsOf n)

inductive MarkupFault where
  | illFormed
  | unbalancedEnd
  | unclosed (tag : String)
  | noRoot
  | secondRoot (tag : String)
  deriving DecidableEq, Repr

/-- The wording of a markup fault; ill-formed text has none of its own. -/
def MarkupFault.message : MarkupFault → String
  | illFormed => "malformed markup"
  | unbalancedEnd => "malformed markup: unbalanced end tag"
  | unclosed tag => "malformed markup: unclosed <" ++ tag ++ ">"
  | noRoot => "malformed markup: document has no root element"
  | secondRoot tag => "malformed markup: unexpected second root element <" ++ tag ++ ">"

inductive CompileError where
  | markup (fault : MarkupFault)
  | unknownTag (tag : String)
  | missingComponentName
  | malformedComponent (name reason : String)
  | unresolvedPlaceholder (name widget : String)
  | missingPage
  | multipleContentNodes (count : Nat)
  | style (line : Nat) (message : String)
  | leafWithChildren (widget : String)
  | invalidEventHandler (name : String)
  deriving DecidableEq, Repr

def CompileError.message : CompileError → String
  | markup fault => fault.message
  | unknownTag tag => "unknown tag <" ++ tag ++ ">"
  | missingComponentName => "components must have a name"
  | malformedComponent name reason => "malformed component '" ++ name ++ "': " ++ reason
  | unresolvedPlaceholder name widget => "unknown variable '" ++ name ++ "' for " ++ widget
  | missingPage => "no <page> node found"
  | multipleContentNodes count =>
    "pages must have exactly one content node, found " ++ decimal count
  | style line message => "style rules, line " ++ decimal line ++ ": " ++ message
  | leafWithChildren widget => widget ++ " cannot hold children"
  | invalidEventHandler name => "invalid event handler '" ++ name ++ "'"

inductive ActionError where
  | unknownVerb (verb : String)
  | missingArgument (verb : String)
  | tooManyArguments (verb : String) (count : Nat)
  | unknownModifier (verb modifier : String)
  | missingModifier (verb : String)
  deriving DecidableEq, Repr

def ActionError.message : ActionError → String
  | unknownVerb verb => "unknown verb '" ++ verb ++ "'"
  | missingArgument verb => "missing argument for verb " ++ verb
  | tooManyArguments verb count =>
    "too many arguments for verb " ++ verb ++ " (" ++ decimal count ++ " given)"
  | unknownModifier verb modifier =>
    "unknown modifier '" ++ modifier ++ "' for verb " ++ verb
  | missingModifier verb => "verb " ++ verb ++ " requires a modifier"

inductive SelectionError where
  | noResult
  | noMatch (selector : String)
  | notContainer (widget : String)
  | parentNotContainer (widget : String)
  | detached (index : Nat)
  | invalidSelector (text : String)
  deriving DecidableEq, Repr

def SelectionError.message : SelectionError → String
  | noResult => "no result to update tree with"
  | noMatch selector => "nothing matched selector '" ++ selector ++ "'"
  | notContainer widget => "cannot modify tree of non-container " ++ widget
  | parentNotContainer widget => "cannot modify tree of non-container parent of " ++ widget
  | detached index => "widget " ++ decimal index ++ " no longer exists"
  | invalidSelector text => "invalid selector '" ++ text ++ "'"

inductive NetworkError where
  | invalidUrl (url : String)
  | http (status : Nat) (url : String)
  | transport (reason : String)
  | cancelled
  deriving DecidableEq, Repr

def NetworkError.message : NetworkError → String
  | invalidUrl url => "invalid URL '" ++ url ++ "'"
  | http status url => "HTTP " ++ decimal status ++ " for " ++ url
  | transport reason => "transport failure: " ++ reason
  | cancelled => "request cancelled"

inductive Error where
  | compile (cause : CompileError)
  | action (cause : ActionError)
  | selection (cause : SelectionError)
  | network (cause : NetworkError)
  | script (failure : Script.Failure)
  | file (reason : String)
  deriving DecidableEq, Repr

namespace Error

def message : Error → String
  | compile cause => "compile error: " ++ cause.message
  | action cause => "action error: " ++ cause.message
  | selection cause => "selection error: " ++ cause.message
  | network cause => "network error: " ++ cause.message
  | script failure => failure.text
  | file reason => "I/O error: " ++ reason

/-- Whether an error only says that the page it belonged to went away. -/
def isCancellation : Error → Bool
  | network .cancelled => true
  | _ => false

end Error

/-- The same result with its error taken as an error of a session. -/
def Except.widen {ε α : Type} (into : ε → Error) : Except ε α → Except Error α
  | .ok value => .ok value
  | .error cause => .error (into cause)

end Hypermedia
