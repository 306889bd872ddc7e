import Hypermedia.Text.Cut

/-! Instructions of the action language. -/
namespace Hypermedia.Action

inductive Verb where
  | get | post | put | patch | delete
  | swap | insert | append
  | select
  deriving DecidableEq, Repr, Inhabited

namespace Verb

def all : List Verb :=
  [get, post, put, patch, delete, swap, insert, append, select]

def text : Verb → String
  | get => "GET"
  | post => "POST"
  | put => "PUT"
  | patch => "PATCH"
  | delete => "DELETE"
  | swap => "SWAP"
  | insert => "INSERT"
  | append => "APPEND"
  | select => "SELECT"

/-- The verb a token names, whatever the case of its letters. -/
def ofToken? (token : List Char) : Option Verb :=
  all.find? fun verb => verb.text.toList == token.map Char.toUpper

def isRemote : Verb → Bool
  | get | post | put | patch | delete => true
  | swap | insert | append | select => false

def isTreeEdit : Verb → Bool
  | swap | insert | append => true
  | _ => false

/-- The modifiers a verb admits; a verb without a list admits any selector. -/
def legalModifiers : Verb → Option (List String)
  | swap | insert => some ["in", "before", "after"]
  | append => some ["in"]
  | select => some []
  | _ => none

def requiresModifier : Verb → Bool
  | insert => true
  | _ => false

def maxArguments : Verb → Nat
  | select => 1
  | _ => 2

end Verb

/-- Where a tree edit puts the result, seen from its target. -/
inductive Placement where
  | replace | inside | before | after
  deriving DecidableEq, Repr

/-- The placement a modifier names; without a modifier the target is replaced. -/
def Placement.ofModifier? : Option String → Option Placement
  | none => some replace
  | some modifier =>
    if modifier = "in" then some inside
    else if modifier = "before" then some before
    else if modifier = "after" then some after
    else none

/-- One step of an action list: an endpoint or a selector, with what modifies it. -/
structure Instruction where
  verb : Verb
  argument : String
  modifier : Option String := none
  deriving DecidableEq, Repr, Inhabited

namespace Instruction

def text (i : Instruction) : String :=
  match i.modifier with
  | some modifier => i.verb.text ++ " " ++ modifier ++ " " ++ i.argument
  | none => i.verb.text ++ " " ++ i.argument

def placement? (i : Instruction) : Option Placement :=
  Placement.ofModifier? i.modifier

end Instruction

end Hypermedia.Action
