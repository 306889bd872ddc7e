import Hypermedia.Action.Descriptor
import Hypermedia.Script.Library.Argument

/-! Functions that act on the session. -/
namespace Hypermedia.Script.Library

open Widget (Blueprint)

variable (c : Invocation)

def enteredScope : Act ScopeId := do
  match ← Act.look (·.entered) with
  | some id => return id
  | none => Act.fault (Bytes.ofString "called outside of any scope")

/-- Calls a function; an error of it is passed on without a line of its own. -/
def callOut (f : FunctionId) (arguments : List Value) : Act Unit := do
  let ended ← Act.guarded do
    let _ ← Act.callFunction f arguments .inner
    return .giveBack []
  match ended with
  | .ok _ => return ()
  | .error e => Act.fault (← Act.errorText Act.toText e)

/-- A blueprint with an item more: a widget is a child, all else is text. -/
def withItem (isAlive : ScopeId → Bool) (b : Blueprint) (v : Value) : Blueprint :=
  match v.widget? with
  | some child => { b with children := b.children ++ [child] }
  | none => { b with content := some ((b.content.getD "") ++ v.display isAlive) }

/-- The text of a string that begins with a colon, without it. -/
def descriptor? : Value → Option String
  | .str (58 :: rest) => some (Bytes.text rest)
  | _ => none

def withEntry (isAlive : ScopeId → Bool) (w : World) (b : Blueprint) (name : String) (v : Value) :
    Except String Blueprint :=
  let keep (b : Blueprint) : Except String Blueprint :=
    match v.toAttribute? with
    | some a => .ok { b with attributes := b.attributes ++ [(name, a)] }
    | none => .error ("cannot store a " ++ v.fineTypeName ++ " value in attribute '" ++ name ++ "'")
  if name = "eid" then .ok { b with eid := some (v.display isAlive) }
  else if name = "groups" then (w.toWords isAlive v).map fun groups => { b with groups }
  else if name = "content" then .ok { b with content := some (v.display isAlive) }
  else if isEventName name then
    match v, descriptor? v with
    | .function f, _ => .ok { b with handlers := b.handlers ++ [(name, .script f)] }
    | _, some text =>
      match Action.compile text with
      | .ok actions => .ok { b with handlers := b.handlers ++ [(name, .actions actions)] }
      | .error e => .error e.message
    | _, none => keep b
  else keep b

def namedEntries (t : Table) : List (String × Value) :=
  t.pairs.filterMap fun e => match e.1 with
    | .str s => some (Bytes.text s, e.2)
    | _ => none

def blueprint (isAlive : ScopeId → Bool) (w : World) (kind : Widget.Kind) (t : Table) :
    Except String Blueprint :=
  let b := t.sequence.foldl (withItem isAlive) { kind }
  (namedEntries t).foldlM (fun b e => withEntry isAlive w b e.1 e.2) b

def build (b : Blueprint) : Act Value := Act.ask (.build b)

def buildText (group text : String) : Act Value :=
  build { kind := .text, content := some text, groups := [group] }

/-- Builds a button that calls a function and closes its dialogue. -/
def buildButton (label : String) (callback : Option (FunctionId × Value)) : Act Value := do
  match ← Act.newFunction (.native (.close callback)) with
  | .function f =>
    build { kind := .button, content := some label, handlers := [("on_submit", .script f)] }
  | v => return v

def widgets (vs : List Value) : List WidgetId := vs.filterMap Value.widget?

/-- Builds a dialogue of widgets above a row of buttons, and shows it. -/
def showDialogue (content buttons : List Value) : Act (List Value) := do
  let row ← build { kind := .row, children := widgets buttons, groups := ["input"] }
  let dialogue ← build { kind := .dialogue, children := widgets (content ++ [row]) }
  match dialogue.widget? with
  | some id =>
    let _ ← Act.ask (.pin id)
    return []
  | none => Act.fault (Bytes.ofString "dialogue was not built")

def alert : Act (List Value) := do
  let isAlive ← Act.living
  let message := (c.value 1).display isAlive
  let _ ← Act.ask (.alert message)
  let body ← buildText "body" message
  let close ← buildButton "Close" none
  showDialogue [body] [close]

def confirm : Act (List Value) := do
  let title ← c.asText 1
  let message ← c.asText 2
  let f ← c.asFunction 3
  let heading ← buildText "title" title
  let body ← buildText "body" message
  let accept ← buildButton "Confirm" (some (f, .bool true))
  let deny ← buildButton "Deny" (some (f, .bool false))
  showDialogue [heading, body] [accept, deny]

def prompt : Act (List Value) := do
  let title ← c.asText 1
  let t ← c.asTable 2
  let f ← c.asFunction 3
  let heading ← buildText "title" title
  let isAlive ← Act.living
  let items ← Act.look fun w => (w.table t).sequence
  let b := items.foldl (withItem isAlive) { kind := .tower }
  let body ← build { b with groups := ["body"] }
  let submit ← buildButton "Submit" (some (f, body))
  showDialogue [heading, body] [submit]

def find : Act (List Value) := do
  let selector ← c.asText 1
  match ← Act.request (.find selector) with
  | .error message => Act.fault (Bytes.ofString message)
  | .ok (.widgets ids) =>
    if (c.value 2).isTruthy then return [← Act.ofField (.widgets ids)]
    else match ids with
      | [] => return [.nil]
      | id :: _ => return [← Act.newHandle (.widget id)]
  | .ok field => return [← Act.ofField field]

def style : Act (List Value) := do
  let property ← c.asText 2
  match (c.value 1).widget? with
  | none =>
    Act.fault (Bytes.ofString ("bad argument #1 to 'style' (widget expected, got " ++
      (c.value 1).fineTypeName ++ ")"))
  | some id =>
    let isAlive ← Act.living
    match ← Act.look fun w => w.toStyle? isAlive (c.value 3) with
    | some value =>
      let _ ← Act.ask (.style id property value)
      return []
    | none => Act.fault (Bytes.ofString "style value runs too long")

/-- Registers a listener in the scope that the script was started in. -/
def onChange : Act (List Value) := do
  let name ← c.asText 1
  let f ← c.asFunction 2
  let id ← enteredScope
  Act.listen id name (.function f)
  return []

def timeout : Act (List Value) := do
  let f ← c.asFunction 1
  let milliseconds ← c.asFloatOr 2 0.0
  let id ← enteredScope
  let _ ← Act.ask (.schedule f milliseconds id)
  return []

/-- A function that runs the actions of a descriptor. -/
def chocl : Act (List Value) := do
  let text ← c.asText 1
  match Action.compile text with
  | .error e => Act.fault (Bytes.ofString e.message)
  | .ok actions =>
    let id ← enteredScope
    let owner ← Act.look fun w => (w.scopes.get? id).bind (·.widget)
    return [← Act.newFunction (.native (.start actions owner))]

def start (actions : List Action.Instruction) (owner : Option WidgetId) : Act (List Value) := do
  match (c.value 1).widget? <|> owner with
  | some caller =>
    let _ ← Act.ask (.act actions caller)
    return [.bool true]
  | none => Act.fault (Bytes.ofString "no widget to run actions for")

def close (callback : Option (FunctionId × Value)) : Act (List Value) := do
  match (c.value 1).widget? with
  | none => Act.fault (Bytes.ofString "dialogue button called without its widget")
  | some button =>
    match callback with
    | some (f, argument) => callOut f [argument]
    | none => pure ()
    let _ ← Act.ask (.dismiss button)
    return [.bool false]

def append : Act (List Value) := do
  match (c.value 1).widget?, (c.value 2).widget? with
  | some parent, some child =>
    let _ ← Act.ask (.append parent child)
    return []
  | _, _ => Act.fault (Bytes.ofString "append expects two widgets")

def construct (kind : Widget.Kind) : Act (List Value) := do
  let make (t : Table) : Act (List Value) := do
    let isAlive ← Act.living
    match ← Act.look fun w => blueprint isAlive w kind t with
    | .ok b => return [← build b]
    | .error message => Act.fault (Bytes.ofString message)
  if (c.value 1).isNil then make {}
  else
    let t ← c.asTable 1
    make (← Act.look (·.table t))

def session (f : SessionFunction) : Act (List Value) := do
  match f with
  | .onChange => onChange c
  | .find => find c
  | .style => style c
  | .timeout => timeout c
  | .chocl => chocl c
  | .alert => alert c
  | .confirm => confirm c
  | .prompt => prompt c

end Hypermedia.Script.Library
