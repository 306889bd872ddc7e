import Hypermedia.Script.Syntax
import Hypermedia.Script.Token

/-! Reading scripts: from tokens to syntax, with names resolved and jumps checked. -/
namespace Hypermedia.Script

structure SyntaxFault where
  line : Nat
  message : Bytes
  deriving Inhabited

namespace Chunk

inductive Access where
  | free | const | closed
  deriving DecidableEq

/-- A variable in scope and the number of functions around it. -/
structure Local where
  name : Bytes
  access : Access
  level : Nat

/-- A jump whose label is not yet seen, and the number of variables in scope at it. -/
structure Jump where
  label : Bytes
  line : Nat
  depth : Nat

structure Label where
  name : Bytes
  line : Nat

/-- A block being read; `start` variables were in scope before it. -/
structure Block where
  isLoop : Bool
  start : Nat
  labels : List Label := []
  jumps : List Jump := []
  holdsClosed : Bool := false

structure Function where
  isVariadic : Bool
  blocks : List Block

/-- What is left to read, and what is known from what was read; newest variables and functions
first. -/
structure Reader where
  lexemes : List Lexeme
  lastLine : Nat := 1
  locals : List Local
  functions : List Function

abbrev Read := StateT Reader (Except SyntaxFault)

def current : Read Lexeme := do
  return (← get).lexemes.headD ⟨.eof, 0, Bytes.ofString "<eof>"⟩

def line : Read Nat :=
  return (← current).line

/-- The line of the token before the current one. -/
def lastLine : Read Nat :=
  return (← get).lastLine

def failPlainly {α : Type} (message : Bytes) : Read α := do
  throw ⟨← line, message⟩

def failNear {α : Type} (message : Bytes) : Read α := do
  let here ← current
  match here.token with
  | .fault message => throw ⟨here.line, message⟩
  | _ => throw ⟨here.line, message ++ Bytes.ofString " near " ++ here.shown⟩

/-- Fails at once when the current token is a fault. -/
def checkFault : Read Unit := do
  let here ← current
  match here.token with
  | .fault message => throw ⟨here.line, message⟩
  | _ => pure ()

def advance : Read Unit := do
  let here ← current
  modify fun r => { r with
    lastLine := here.line
    lexemes := if 1 < r.lexemes.length then r.lexemes.tail else r.lexemes }
  checkFault

def isAt (s : String) : Read Bool := do
  match (← current).token with
  | .mark t => return t == s
  | _ => return false

def accept (s : String) : Read Bool := do
  if ← isAt s then
    advance
    return true
  else return false

def quote (s : String) : Bytes :=
  Token.quoted (Bytes.ofString s)

def expect (s : String) : Read Unit := do
  if !(← accept s) then failNear (quote s ++ Bytes.ofString " expected")

def expectClosing (s opening : String) (start : Nat) : Read Unit := do
  if !(← accept s) then
    if (← line) = start then failNear (quote s ++ Bytes.ofString " expected")
    else failNear (quote s ++ Bytes.ofString " expected (to close " ++ quote opening ++
      Bytes.ofString " at line " ++ Token.digits start ++ Bytes.ofString ")")

def takeName : Read Bytes := do
  match (← current).token with
  | .name s =>
    advance
    return s
  | _ => failNear (Bytes.ofString "<name> expected")

/-- Whether the current token ends a block; `until` counts only on request. -/
def atBlockEnd (withUntil : Bool) : Read Bool := do
  match (← current).token with
  | .mark t => return t == "else" || t == "elseif" || t == "end" || (withUntil && t == "until")
  | .eof => return true
  | _ => return false

/-- An expression whose line is settled by what was read last. -/
def settled (e : Expr) : Read Expr :=
  return e.settle (← lastLine)

def modifyBlock (f : Block → Block) : Read Unit :=
  modify fun r => match r.functions with
    | { isVariadic, blocks := b :: bs } :: fs =>
      { r with functions := { isVariadic, blocks := f b :: bs } :: fs }
    | _ => r

def blocks : Read (List Block) :=
  return ((← get).functions.head?.map (·.blocks)).getD []

def enterBlock (isLoop : Bool) : Read Unit :=
  modify fun r => match r.functions with
    | f :: fs =>
      let holdsClosed := f.blocks.head?.any (·.holdsClosed)
      let block : Block := { isLoop, start := r.locals.length, holdsClosed }
      { r with functions := { f with blocks := block :: f.blocks } :: fs }
    | [] => r

def unresolved (j : Jump) : Bytes :=
  if j.label == Bytes.ofString "break" then
    Bytes.ofString "break outside loop at line " ++ Token.digits j.line
  else
    Bytes.ofString "no visible label '" ++ j.label ++ Bytes.ofString "' for <goto> at line " ++
      Token.digits j.line

/-- A jump as seen from the block around the one that starts with `start` variables. -/
def Jump.outward (start : Nat) (j : Jump) : Jump :=
  { j with depth := min j.depth start }

/-- Closes a block: its variables and labels go, and its open jumps move to the block around it. -/
def leaveBlock : Read Unit := do
  let r ← get
  match r.functions with
  | { isVariadic, blocks := b :: bs } :: fs =>
    let jumps := if b.isLoop then b.jumps.filter (·.label != Bytes.ofString "break") else b.jumps
    let locals := r.locals.drop (r.locals.length - b.start)
    match bs, jumps with
    | [], j :: _ => failPlainly (unresolved j)
    | [], [] => set { r with locals, functions := { isVariadic, blocks := [] } :: fs }
    | outer :: rest, jumps =>
      let outer := { outer with jumps := outer.jumps ++ jumps.map (Jump.outward b.start) }
      set { r with locals, functions := { isVariadic, blocks := outer :: rest } :: fs }
  | _ => pure ()

def declare (name : Bytes) (access : Access) : Read Unit :=
  modify fun r => { r with locals := ⟨name, access, r.functions.length⟩ :: r.locals }

def place? (name : Bytes) : Read (Option (Nat × Local)) := do
  let locals := (← get).locals
  match locals.findIdx? (·.name == name) with
  | some i => return locals[i]?.map (i, ·)
  | none => return none

def reference (name : Bytes) : Read (Option Expr) := do
  let level := (← get).functions.length
  return (← place? name).map fun (i, l) => .var i name (l.level == level)

/-- The expression for a name; a name out of scope is a field of the table of globals. -/
def resolve (name : Bytes) : Read Expr := do
  match ← reference name with
  | some e => return e
  | none =>
    let environment := (← reference Expr.environmentName).getD .nil
    return .index environment (.str name) 0

/-- A label of the innermost function that is in sight. -/
def visibleLabel? (name : Bytes) : Read (Option Label) := do
  return ((← blocks).flatMap (·.labels)).find? (·.name == name)

/-- Records a jump; one to a label already seen needs no check. -/
def addJump (label : Bytes) (line : Nat) : Read Unit := do
  match ← visibleLabel? label with
  | some _ => pure ()
  | none =>
    let depth := (← get).locals.length
    modifyBlock fun b => { b with jumps := b.jumps ++ [⟨label, line, depth⟩] }

/-- Records a label, and checks the jumps that waited for it. -/
def addLabel (name : Bytes) (line : Nat) : Read Stmt := do
  match ← visibleLabel? name with
  | some l =>
    failPlainly (Bytes.ofString "label '" ++ name ++ Bytes.ofString "' already defined on line " ++
      Token.digits l.line)
  | none =>
    let locals := (← get).locals
    let start := ((← blocks).head?.map (·.start)).getD 0
    let depth := if ← atBlockEnd false then start else locals.length
    let waiting := ((← blocks).head?.map (·.jumps)).getD []
    match waiting.find? fun j => j.label == name && decide (j.depth < depth) with
    | some j =>
      let crossed := ((locals[locals.length - 1 - j.depth]?).map (·.name)).getD []
      failPlainly (Bytes.ofString "<goto " ++ name ++ Bytes.ofString "> at line " ++
        Token.digits j.line ++ Bytes.ofString " jumps into the scope of local '" ++ crossed ++
        Bytes.ofString "'")
    | none =>
      modifyBlock fun b => { b with
        labels := b.labels ++ [⟨name, line⟩]
        jumps := b.jumps.filter (·.label != name) }
      return .label name depth

/-- How strongly a binary operator binds to its left and to its right. -/
def binding? : String → Option (Nat × Nat)
  | "or" => some (1, 1)
  | "and" => some (2, 2)
  | "<" | ">" | "<=" | ">=" | "~=" | "==" => some (3, 3)
  | "|" => some (4, 4)
  | "~" => some (5, 5)
  | "&" => some (6, 6)
  | "<<" | ">>" => some (7, 7)
  | ".." => some (9, 8)
  | "+" | "-" => some (10, 10)
  | "*" | "/" | "//" | "%" => some (11, 11)
  | "^" => some (14, 13)
  | _ => none

def unaryBinding : Nat := 12

def unary? : String → Option UnaryOp
  | "-" => some .neg
  | "not" => some .not
  | "#" => some .len
  | "~" => some .bnot
  | _ => none

def comparison? : String → Option BinaryOp
  | "==" => some .eq
  | "~=" => some .ne
  | "<" => some .lt
  | "<=" => some .le
  | ">" => some .gt
  | ">=" => some .ge
  | _ => none

def arithmetic? : String → Option BinaryOp
  | "+" => some .add
  | "-" => some .sub
  | "*" => some .mul
  | "/" => some .div
  | "//" => some .idiv
  | "%" => some .mod
  | "^" => some .pow
  | "&" => some .band
  | "|" => some .bor
  | "~" => some .bxor
  | "<<" => some .shl
  | ">>" => some .shr
  | _ => none

/-- Two operands joined by an operator on a line; comparisons report the line where they end. -/
def joined (symbol : String) (left right : Expr) (line last : Nat) : Expr :=
  match comparison? symbol, arithmetic? symbol with
  | some op, _ => .binary op left right last
  | none, some op => .binary op left right line
  | none, none =>
    if symbol = "and" then .both left right
    else if symbol = "or" then .either left right
    else (Expr.binary .concat left right line).reline line

/-- The operator at the current token if it binds more strongly than `limit`. -/
def operator? (limit : Nat) : Read (Option (String × Nat)) := do
  match (← current).token with
  | .mark s =>
    match binding? s with
    | some (left, right) => return if limit < left then some (s, right) else none
    | none => return none
  | _ => return none

def nextToken : Read Token := do
  match (← get).lexemes with
  | _ :: l :: _ => return l.token
  | _ => return .eof

/-- The attribute in angle brackets after a declared name. -/
def declaredAccess : Read Access := do
  if ← accept "<" then
    let name ← takeName
    expect ">"
    if name == Bytes.ofString "const" then return .const
    else if name == Bytes.ofString "close" then return .closed
    else failPlainly (Bytes.ofString "unknown attribute '" ++ name ++ Bytes.ofString "'")
  else return .free

def target (e : Expr) : Read Target := do
  match e with
  | .var place name _ =>
    match ((← get).locals[place]?).map (·.access) with
    | some Access.const | some Access.closed =>
      failPlainly (Bytes.ofString "attempt to assign to const variable '" ++ name ++
        Bytes.ofString "'")
    | _ => return .var place
  | .index object key _ => return .index object key
  | _ => failNear (Bytes.ofString "syntax error")

/-- A call that gives back all its values, if an expression is one. -/
def tailCall? : List Expr → Option Expr
  | [.call f arguments line] => some (.call f arguments line)
  | [.method object name line arguments callLine] =>
    some (.method object name line arguments callLine)
  | _ => none

def enterFunction (isVariadic : Bool) (parameters : List Bytes) : Read Unit := do
  modify fun r => { r with functions := ⟨isVariadic, []⟩ :: r.functions }
  enterBlock false
  parameters.forM (declare · .free)

def leaveFunction : Read Unit := do
  leaveBlock
  modify fun r => { r with functions := r.functions.tail }

/-- Names of parameters up to the closing parenthesis, and whether more arguments are taken. -/
def parameters : Nat → Read (List Bytes × Bool)
  | 0 => failNear (Bytes.ofString "<name> or '...' expected")
  | n + 1 => do
    match (← current).token with
    | .name s =>
      advance
      if ← accept "," then
        let (more, isVariadic) ← parameters n
        return (s :: more, isVariadic)
      else return ([s], false)
    | _ =>
      if ← accept "..." then return ([], true)
      else failNear (Bytes.ofString "<name> or '...' expected")

def moreNames : Nat → Read (List Bytes)
  | 0 => return []
  | n + 1 => do
    if ← accept "," then
      let name ← takeName
      return name :: (← moreNames n)
    else return []

def declaredNames : Nat → Read (List (Bytes × Access))
  | 0 => return []
  | n + 1 => do
    let name ← takeName
    let access ← declaredAccess
    if ← accept "," then return (name, access) :: (← declaredNames n)
    else return [(name, access)]

/-- The token a script ends with is missing. -/
def tooDeep {α : Type} : Read α :=
  failNear (Bytes.ofString "chunk has too many syntax levels")

mutual

/-- An expression whose operators bind more strongly than `limit`. -/
def expression : Nat → Nat → Read Expr
  | 0, _ => tooDeep
  | n + 1, limit => do
    let here ← current
    let left ← match here.token with
      | .mark s =>
        match unary? s with
        | some op => do
          advance
          let operand ← expression n unaryBinding
          pure (Expr.unary op (← settled operand) here.line)
        | none => simpleExpression n
      | _ => simpleExpression n
    operators n limit left

def operators : Nat → Nat → Expr → Read Expr
  | 0, _, _ => tooDeep
  | n + 1, limit, left => do
    match ← operator? limit with
    | none => return left
    | some (symbol, strength) =>
      let line ← line
      advance
      let left ← settled left
      let right ← expression n strength
      let right ← settled right
      operators n limit (joined symbol left right line (← lastLine))

def simpleExpression : Nat → Read Expr
  | 0 => tooDeep
  | n + 1 => do
    match (← current).token with
    | .number value =>
      advance
      return .number value
    | .str value =>
      advance
      return .str value
    | .mark "nil" =>
      advance
      return .nil
    | .mark "true" =>
      advance
      return .bool true
    | .mark "false" =>
      advance
      return .bool false
    | .mark "..." =>
      if (← get).functions.head?.any (·.isVariadic) then
        advance
        return .varargs
      else failNear (Bytes.ofString "cannot use '...' outside a vararg function")
    | .mark "\x7b" => tableConstructor n
    | .mark "function" =>
      advance
      functionBody n false (← line)
    | _ => suffixed n

def primary : Nat → Read Expr
  | 0 => tooDeep
  | n + 1 => do
    match (← current).token with
    | .name s =>
      advance
      resolve s
    | .mark "(" =>
      let start ← line
      advance
      let e ← expression n 0
      expectClosing ")" "(" start
      return .group (← settled e)
    | _ => failNear (Bytes.ofString "unexpected symbol")

def suffixed : Nat → Read Expr
  | 0 => tooDeep
  | n + 1 => do
    let e ← primary n
    suffixes n e

def suffixes : Nat → Expr → Read Expr
  | 0, _ => tooDeep
  | n + 1, e => do
    match (← current).token with
    | .mark "." =>
      let object ← settled e
      advance
      let name ← takeName
      suffixes n (.index object (.str name) 0)
    | .mark "[" =>
      let object ← settled e
      advance
      let key ← settled (← expression n 0)
      expect "]"
      suffixes n (.index object key 0)
    | .mark ":" =>
      advance
      let name ← takeName
      let object ← settled e
      let selfLine ← lastLine
      let callLine ← line
      let arguments ← callArguments n
      suffixes n (.method object name selfLine arguments callLine)
    | .mark "(" | .mark "\x7b" | .str _ =>
      let function ← settled e
      let callLine ← line
      let arguments ← callArguments n
      suffixes n (.call function arguments callLine)
    | _ => return e

def callArguments : Nat → Read (List Expr)
  | 0 => tooDeep
  | n + 1 => do
    match (← current).token with
    | .str value =>
      advance
      return [.str value]
    | .mark "\x7b" => return [← tableConstructor n]
    | .mark "(" =>
      let start ← line
      advance
      if ← isAt ")" then
        advance
        return []
      let arguments ← expressions n
      expectClosing ")" "(" start
      let last ← lastLine
      return arguments.map (·.settle last)
    | _ => failNear (Bytes.ofString "function arguments expected")

/-- Expressions separated by commas; the line of the last one is not yet settled. -/
def expressions : Nat → Read (List Expr)
  | 0 => tooDeep
  | n + 1 => do
    let e ← expression n 0
    if ← accept "," then
      let e ← settled e
      return e :: (← expressions n)
    else return [e]

def tableConstructor : Nat → Read Expr
  | 0 => tooDeep
  | n + 1 => do
    let start ← line
    expect "\x7b"
    let items ← tableItems n
    expectClosing "\x7d" "\x7b" start
    return .table items start

def tableItems : Nat → Read (List Item)
  | 0 => tooDeep
  | n + 1 => do
    if ← isAt "\x7d" then return []
    let item ← tableItem n
    if (← accept ",") || (← accept ";") then return item :: (← tableItems n)
    else return [item]

def tableItem : Nat → Read Item
  | 0 => tooDeep
  | n + 1 => do
    let named : Option Bytes ← match (← current).token, ← nextToken with
      | .name s, .mark "=" => pure (some s)
      | _, _ => pure none
    match named with
    | some s =>
      advance
      expect "="
      let value ← settled (← expression n 0)
      return .keyed (.str s) value (← lastLine)
    | none =>
      if ← accept "[" then
        let key ← settled (← expression n 0)
        expect "]"
        expect "="
        let value ← settled (← expression n 0)
        return .keyed key value (← lastLine)
      else return .positional (← settled (← expression n 0))

/-- Parameters and body of a function; a method has a parameter `self` before the others. -/
def functionBody : Nat → Bool → Nat → Read Expr
  | 0, _, _ => tooDeep
  | n + 1, isMethod, start => do
    expect "("
    let (names, isVariadic) ← if ← isAt ")" then pure ([], false) else parameters n
    expect ")"
    let names := if isMethod then Bytes.ofString "self" :: names else names
    enterFunction isVariadic names
    let body ← statements n
    expectClosing "end" "function" start
    leaveFunction
    return .function names.length isVariadic body start

def statements : Nat → Read (List Stmt)
  | 0 => tooDeep
  | n + 1 => do
    if ← atBlockEnd true then return []
    if ← isAt "return" then
      advance
      return [← returnStatement n]
    let first ← statement n
    return first ++ (← statements n)

def block : Nat → Bool → Read (List Stmt)
  | 0, _ => tooDeep
  | n + 1, isLoop => do
    enterBlock isLoop
    let body ← statements n
    leaveBlock
    return body

def returnStatement : Nat → Read Stmt
  | 0 => tooDeep
  | n + 1 => do
    let values ← if (← atBlockEnd true) || (← isAt ";") then pure [] else expressions n
    let last ← lastLine
    let values := values.map (·.settle last)
    let _ ← accept ";"
    let holdsClosed := (← blocks).head?.any (·.holdsClosed)
    match if holdsClosed then none else tailCall? values with
    | some call => return .tailCall call
    | none => return .giveBack values

def statement : Nat → Read (List Stmt)
  | 0 => tooDeep
  | n + 1 => do
    let start ← line
    match (← current).token with
    | .mark ";" =>
      advance
      return []
    | .mark "if" => return [← ifStatement n start]
    | .mark "while" =>
      advance
      let condition ← settled (← expression n 0)
      expect "do"
      let body ← block n true
      expectClosing "end" "while" start
      return [.whileLoop condition body]
    | .mark "do" =>
      advance
      let body ← block n false
      expectClosing "end" "do" start
      return [.block body]
    | .mark "for" =>
      advance
      return [← forStatement n start]
    | .mark "repeat" =>
      advance
      enterBlock true
      enterBlock false
      let body ← statements n
      expectClosing "until" "repeat" start
      let condition ← settled (← expression n 0)
      leaveBlock
      leaveBlock
      return [.repeatLoop body condition]
    | .mark "function" =>
      advance
      return [← functionStatement n start]
    | .mark "local" =>
      advance
      if ← accept "function" then
        let name ← takeName
        declare name .free
        return [.declareFunction (← functionBody n false (← line))]
      else return [← localStatement n]
    | .mark "::" =>
      advance
      let name ← takeName
      expect "::"
      let more ← blankStatements n
      return (← addLabel name start) :: more
    | .mark "return" =>
      advance
      return [← returnStatement n]
    | .mark "break" =>
      advance
      addJump (Bytes.ofString "break") start
      return [.leave]
    | .mark "goto" =>
      advance
      let here ← line
      let name ← takeName
      addJump name here
      return [.jump name]
    | _ => return [← expressionStatement n]

/-- The labels and semicolons after a label. -/
def blankStatements : Nat → Read (List Stmt)
  | 0 => tooDeep
  | n + 1 => do
    if (← isAt ";") || (← isAt "::") then
      let first ← statement n
      return first ++ (← blankStatements n)
    else return []

/-- A condition with its block and what follows it, from the word `if` or `elseif` on. -/
def ifStatement : Nat → Nat → Read Stmt
  | 0, _ => tooDeep
  | n + 1, start => do
    advance
    let condition ← settled (← expression n 0)
    expect "then"
    let body ← block n false
    if ← isAt "elseif" then return .branch condition body [← ifStatement n start]
    else
      let otherwise ← if ← accept "else" then block n false else pure []
      expectClosing "end" "if" start
      return .branch condition body [.block otherwise]

def forStatement : Nat → Nat → Read Stmt
  | 0, _ => tooDeep
  | n + 1, start => do
    enterBlock true
    let name ← takeName
    match (← current).token with
    | .mark "=" =>
      advance
      let first ← settledBefore n ","
      let limit ← expression n 0
      let (limit, step) ← if ← accept "," then
          let limit ← settled limit
          let step ← expression n 0
          pure (limit, ← settled step)
        else pure (← settled limit, Expr.number (.int 1))
      expect "do"
      let line ← lastLine
      let body ← loopBody n [name]
      expectClosing "end" "for" start
      leaveBlock
      return .numericFor first limit step body line
    | .mark "," | .mark "in" =>
      let names := name :: (← moreNames n)
      expect "in"
      let values ← expressions n
      let last ← lastLine
      expect "do"
      let body ← loopBody n names
      expectClosing "end" "for" start
      leaveBlock
      return .genericFor names.length (values.map (·.settle last)) body start
    | _ => failNear (Bytes.ofString "'=' or 'in' expected")

def settledBefore : Nat → String → Read Expr
  | 0, _ => tooDeep
  | n + 1, symbol => do
    let e ← settled (← expression n 0)
    expect symbol
    return e

def loopBody : Nat → List Bytes → Read (List Stmt)
  | 0, _ => tooDeep
  | n + 1, names => do
    enterBlock false
    names.forM (declare · .free)
    let body ← statements n
    leaveBlock
    return body

def functionStatement : Nat → Nat → Read Stmt
  | 0, _ => tooDeep
  | n + 1, start => do
    let name ← takeName
    let (e, isMethod) ← functionName n (← resolve name)
    let body ← functionBody n isMethod start
    let place ← target e
    return .assign [place] [body] start

def functionName : Nat → Expr → Read (Expr × Bool)
  | 0, _ => tooDeep
  | n + 1, e => do
    if ← isAt "." then
      let object ← settled e
      advance
      let name ← takeName
      functionName n (.index object (.str name) 0)
    else if ← isAt ":" then
      let object ← settled e
      advance
      let name ← takeName
      return (.index object (.str name) 0, true)
    else return (e, false)

def localStatement : Nat → Read Stmt
  | 0 => tooDeep
  | n + 1 => do
    let names ← declaredNames n
    if 1 < (names.filter (·.2 == .closed)).length then
      failPlainly (Bytes.ofString "multiple to-be-closed variables in local list")
    let values ← if ← accept "=" then expressions n else pure []
    let last ← lastLine
    let closed := names.findIdx? (·.2 == .closed)
    names.forM fun (name, access) => declare name access
    if closed.isSome then modifyBlock fun b => { b with holdsClosed := true }
    let name := ((closed.bind fun i => names[i]?).map (·.1)).getD []
    return .declare names.length closed (values.map (·.settle last)) name last

def expressionStatement : Nat → Read Stmt
  | 0 => tooDeep
  | n + 1 => do
    let e ← suffixed n
    if (← isAt "=") || (← isAt ",") then
      let places ← assignmentTargets n e
      let values ← expressions n
      let last ← lastLine
      return .assign places (values.map (·.settle last)) last
    else match e with
      | .call _ _ _ | .method _ _ _ _ _ => return .call e
      | _ => failNear (Bytes.ofString "syntax error")

def assignmentTargets : Nat → Expr → Read (List Target)
  | 0, _ => tooDeep
  | n + 1, e => do
    let place ← target e
    if ← accept "," then
      let next ← suffixed n
      return place :: (← assignmentTargets n next)
    else
      expect "="
      return [place]

end

def script (n : Nat) : Read (List Stmt) := do
  checkFault
  enterFunction true []
  let body ← statements n
  match (← current).token with
  | .eof => pure ()
  | _ => failNear (Bytes.ofString "<eof> expected")
  leaveFunction
  return body

/-- Reads a script; its environment holds the table of globals alone. -/
def read (source : Bytes) : Except SyntaxFault (List Stmt) :=
  let lexemes := Token.scan source
  let start : Reader := { lexemes, locals := [⟨Expr.environmentName, .free, 0⟩], functions := [] }
  ((script (16 * (lexemes.length + 2))).run start).map (·.1)

end Chunk

end Hypermedia.Script
