import Hypermedia.Script.Builtin
import Hypermedia.Script.Scope
import Hypermedia.Script.Table

/-! What scripts share: their variables, tables, functions and scopes. -/
namespace Hypermedia.Script

inductive FunctionValue where
  /-- A function of a script with the cells of the variables around it. -/
  | closure (parameters : Nat) (isVariadic : Bool) (body : List Stmt) (environment : List Nat)
  | native (builtin : Builtin)
  deriving Inhabited

structure Random where
  a : UInt64 := 0x9E3779B97F4A7C15
  b : UInt64 := 0xBF58476D1CE4E5B9
  c : UInt64 := 0x94D049BB133111EB
  d : UInt64 := 0x2545F4914F6CDD1D

/-- Everything scripts can reach; `entered` is the scope the running script was started in, and
`held` are scopes that the run keeps alive. -/
structure World where
  cells : Array Value := #[]
  tables : Array Table := #[]
  functions : Array FunctionValue := #[]
  scopes : Scopes := {}
  handles : Nat := 0
  textMethods : TableId := ⟨0⟩
  entered : Option ScopeId := none
  held : List ScopeId := []
  random : Random := {}
  now : Int := 0
  deriving Inhabited

namespace World

def table (w : World) (id : TableId) : Table :=
  w.tables.getD id.index {}

def modifyTable (w : World) (id : TableId) (f : Table → Table) : World :=
  { w with tables := w.tables.modify id.index f }

def addTable (w : World) (t : Table) : TableId × World :=
  (⟨w.tables.size⟩, { w with tables := w.tables.push t })

def addFunction (w : World) (f : FunctionValue) : FunctionId × World :=
  (⟨w.functions.size⟩, { w with functions := w.functions.push f })

def addCell (w : World) (value : Value) : Nat × World :=
  (w.cells.size, { w with cells := w.cells.push value })

def cell (w : World) (i : Nat) : Value :=
  w.cells.getD i .nil

def setCell (w : World) (i : Nat) (value : Value) : World :=
  { w with cells := w.cells.setIfInBounds i value }

def addHandle (w : World) (object : Object) : Value × World :=
  (.handle w.handles object, { w with handles := w.handles + 1 })

/-- The table that tells how a value takes part in operations. -/
def metatable? (w : World) : Value → Option TableId
  | .table t => (w.table t).metatable
  | .str _ => some w.textMethods
  | _ => none

def metamethod (w : World) (v : Value) (event : String) : Value :=
  match w.metatable? v with
  | some m => (w.table m).field event
  | none => .nil

/-- The name of a value's type in messages; a table's metatable may give another. -/
def typeName (w : World) (v : Value) : Bytes :=
  match v with
  | .table _ =>
    match w.metamethod v "__name" with
    | .str s => s
    | _ => Bytes.ofString "table"
  | .handle _ (.widget _) => Bytes.ofString "WidgetRef"
  | .handle _ (.scope _) => Bytes.ofString "ScopeHandle"
  | .handle _ (.failure _) => Bytes.ofString "error"
  | v => Bytes.ofString v.typeName

end World

end Hypermedia.Script
