/-! Finite maps from names, kept in the order of the names. -/
namespace Hypermedia

/-- Entries in strictly ascending order of their names. -/
structure Dict (α : Type) where
  entries : List (String × α) := []
  deriving Inhabited, BEq

namespace Dict

variable {α β : Type}

def empty : Dict α := ⟨[]⟩

def insertInto (name : String) (value : α) : List (String × α) → List (String × α)
  | [] => [(name, value)]
  | (key, old) :: rest =>
    if name < key then (name, value) :: (key, old) :: rest
    else if name = key then (name, value) :: rest
    else (key, old) :: insertInto name value rest

/-- Puts a value under a name, in place of what was there. -/
def insert (d : Dict α) (name : String) (value : α) : Dict α :=
  ⟨insertInto name value d.entries⟩

def get? (d : Dict α) (name : String) : Option α :=
  d.entries.lookup name

def erase (d : Dict α) (name : String) : Dict α :=
  ⟨d.entries.filter (fun entry => entry.1 != name)⟩

def contains (d : Dict α) (name : String) : Bool :=
  (d.get? name).isSome

def names (d : Dict α) : List String :=
  d.entries.map (·.1)

def size (d : Dict α) : Nat :=
  d.entries.length

/-- Entries inserted one after another, a later one in place of an earlier one. -/
def insertAll (d : Dict α) (entries : List (String × α)) : Dict α :=
  entries.foldl (fun d entry => d.insert entry.1 entry.2) d

def ofList (entries : List (String × α)) : Dict α :=
  empty.insertAll entries

end Dict

end Hypermedia
