import Hypermedia.Script.Library.Base
import Hypermedia.Script.Library.Math

/-! The world before any script has run: the functions and libraries that every scope finds. -/
namespace Hypermedia.Script.World

def addBuiltins (w : World) : List (String × Builtin) → List (String × Value) × World
  | [] => ([], w)
  | (name, b) :: rest =>
    let (id, w) := w.addFunction (.native b)
    let (entries, w) := w.addBuiltins rest
    ((name, .function id) :: entries, w)

def tableOf (entries : List (String × Value)) : Table :=
  entries.foldl (fun t e => t.setField e.1 e.2) (.sized 0 entries.length)

/-- A table that shows the given entries and refuses to be written. -/
def addLibrary (w : World) (entries : List (String × Value)) : Value × World :=
  let (lib, w) := w.addTable (tableOf entries)
  let (handlers, w) := w.addBuiltins
    [("__newindex", .refuseWrite), ("__pairs", .pairsOf lib), ("__len", .sizeOf lib)]
  let (meta', w) := w.addTable
    (tableOf (("__index", .table lib) :: ("__metatable", .bool false) :: handlers))
  let (shown, w) := w.addTable { metatable := some meta' }
  (.table shown, w)

def textOperations : List (String × Builtin) :=
  [("__add", .textArithmetic .add), ("__sub", .textArithmetic .sub),
    ("__mul", .textArithmetic .mul), ("__mod", .textArithmetic .mod),
    ("__pow", .textArithmetic .pow), ("__div", .textArithmetic .div),
    ("__idiv", .textArithmetic .idiv), ("__unm", .textNegation)]

def mathConstants : List (String × Value) :=
  [("huge", .float (1.0 / 0.0)), ("maxinteger", .int Int64.maxValue),
    ("mininteger", .int Int64.minValue), ("pi", .float Library.pi)]

def builtinsOf {α : Type} (f : α → Builtin) (named : List (String × α)) : List (String × Builtin) :=
  named.map fun e => (e.1, f e.2)

/-- The world before any script has run; its functions of general use come first. -/
def initial : World :=
  let w : World := {}
  let (base, w) := w.addBuiltins (builtinsOf .base BaseFunction.named)
  let (_, w) := w.addFunction (.native .nextItem)
  let (texts, w) := w.addBuiltins (builtinsOf .text TextFunction.named)
  let (operations, w) := w.addBuiltins textOperations
  let (methods, w) := w.addTable (tableOf texts)
  let (textMethods, w) := w.addTable (tableOf (("__index", .table methods) :: operations))
  let (sequences, w) := w.addBuiltins (builtinsOf .sequence SequenceFunction.named)
  let (numbers, w) := w.addBuiltins (builtinsOf .math MathFunction.named)
  let (times, w) := w.addBuiltins (builtinsOf .time TimeFunction.named)
  let (session, w) := w.addBuiltins (builtinsOf .session SessionFunction.named)
  let (kinds, w) := w.addBuiltins (Widget.Kind.all.map fun k => (k.name, .construct k))
  let (stringLibrary, w) := w.addLibrary texts
  let (tableLibrary, w) := w.addLibrary sequences
  let (mathLibrary, w) := w.addLibrary (numbers ++ mathConstants)
  let (timeLibrary, w) := w.addLibrary times
  let (widgetLibrary, w) := w.addLibrary kinds
  let unpack := (sequences.lookup "unpack").getD .nil
  let entries := base ++ session ++
    [("unpack", unpack), ("string", stringLibrary), ("table", tableLibrary),
      ("math", mathLibrary), ("os", timeLibrary), ("w", widgetLibrary)]
  { w with textMethods, scopes := { builtins := .ofList entries } }

end Hypermedia.Script.World
