import Hypermedia.Script.Number

/-! Syntax of scripts, with variables resolved to places in the environment. -/
namespace Hypermedia.Script

/-- Operators of two operands that are not short circuits. -/
inductive BinaryOp where
  | add | sub | mul | mod | pow | div | idiv
  | band | bor | bxor | shl | shr
  | concat
  | eq | ne | lt | le | gt | ge
  deriving DecidableEq, Repr

inductive UnaryOp where
  | neg | not | len | bnot
  deriving DecidableEq, Repr

mutual

/-- An expression; `line` is the line that an error of the operation names. -/
inductive Expr where
  | nil
  | bool (value : Bool)
  | number (value : Number)
  | str (value : Bytes)
  | varargs
  /-- The variable `place` steps into the environment; `isOwn` tells whether this function declares
  it. -/
  | var (place : Nat) (name : Bytes) (isOwn : Bool)
  | index (object key : Expr) (line : Nat)
  | call (function : Expr) (arguments : List Expr) (line : Nat)
  | method (object : Expr) (name : Bytes) (line : Nat) (arguments : List Expr) (callLine : Nat)
  | function (parameters : Nat) (isVariadic : Bool) (body : List Stmt) (line : Nat)
  | binary (op : BinaryOp) (left right : Expr) (line : Nat)
  | unary (op : UnaryOp) (operand : Expr) (line : Nat)
  | both (left right : Expr)
  | either (left right : Expr)
  | table (items : List Item) (line : Nat)
  | group (inner : Expr)

inductive Item where
  | positional (value : Expr)
  | keyed (key value : Expr) (line : Nat)

inductive Target where
  | var (place : Nat)
  | index (object key : Expr)

inductive Stmt where
  | declare (count : Nat) (closed : Option Nat) (values : List Expr) (name : Bytes) (line : Nat)
  | declareFunction (function : Expr)
  | assign (targets : List Target) (values : List Expr) (line : Nat)
  | call (expression : Expr)
  | block (body : List Stmt)
  | whileLoop (condition : Expr) (body : List Stmt)
  | repeatLoop (body : List Stmt) (condition : Expr)
  | branch (condition : Expr) (body : List Stmt) (otherwise : List Stmt)
  | numericFor (start limit step : Expr) (body : List Stmt) (line : Nat)
  | genericFor (count : Nat) (values : List Expr) (body : List Stmt) (line : Nat)
  | tailCall (call : Expr)
  | giveBack (values : List Expr)
  | leave
  | jump (label : Bytes)
  /-- A label where `depth` variables are in scope. -/
  | label (name : Bytes) (depth : Nat)

end

instance : Inhabited Expr := ⟨.nil⟩
instance : Inhabited Stmt := ⟨.leave⟩

/-- What an expression is called in messages: the sort of name, and the name. -/
structure Naming where
  sort : String
  name : Bytes

namespace Expr

def environmentName : Bytes := Bytes.ofString "_ENV"

def isEnvironment : Expr → Bool
  | var _ name _ => name == environmentName
  | group inner => inner.isEnvironment
  | _ => false

def keyName : Expr → Bytes
  | str s => s
  | number (.int i) =>
    if 0 ≤ i && i ≤ 255 then Bytes.ofString "integer index" else Bytes.ofString "?"
  | _ => Bytes.ofString "?"

def naming? : Expr → Option Naming
  | var _ name isOwn => some ⟨if isOwn then "local" else "upvalue", name⟩
  | index object key _ => some ⟨if object.isEnvironment then "global" else "field", key.keyName⟩
  | str s => some ⟨"constant", s⟩
  | group inner => inner.naming?
  | _ => none

/-- Whether an expression may give any number of values. -/
def isOpen : Expr → Bool
  | call _ _ _ | method _ _ _ _ _ | varargs => true
  | _ => false

/-- An index whose line is not yet known gets it. -/
def settle (line : Nat) : Expr → Expr
  | index object key 0 => index object key line
  | e => e

/-- Chained concatenations report the line of the first. -/
def reline (line : Nat) : Expr → Expr
  | binary .concat left right _ => binary .concat left (right.reline line) line
  | e => e

end Expr

end Hypermedia.Script
