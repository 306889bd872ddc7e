import Hypermedia.Action.Instruction
import Hypermedia.Error

/-! Action descriptors: reading a text as a list of instructions. -/
namespace Hypermedia.Action

/-- Instructions are separated by semicolons and line feeds. -/
def isSeparator (c : Char) : Bool :=
  c == ';' || c == '\n'

def Verb.admits (verb : Verb) (modifier : String) : Bool :=
  match verb.legalModifiers with
  | some legal => legal.contains modifier
  | none => true

def instruction (verb : Verb) (arguments : List String) : Except ActionError Instruction :=
  if verb.maxArguments < arguments.length then
    .error (.tooManyArguments verb.text arguments.length)
  else match arguments with
    | [] => .error (.missingArgument verb.text)
    | [argument] =>
      if verb.requiresModifier then .error (.missingModifier verb.text)
      else .ok { verb, argument }
    | modifier :: argument :: _ =>
      if verb.admits modifier then .ok { verb, argument, modifier := some modifier }
      else .error (.unknownModifier verb.text modifier)

def readInstruction (segment : List Char) : Except ActionError Instruction :=
  match Text.words segment with
  | [] => .error (.unknownVerb "")
  | token :: arguments =>
    match Verb.ofToken? token with
    | none => .error (.unknownVerb (String.ofList token))
    | some verb => instruction verb (arguments.map String.ofList)

/-- The segments of a descriptor that are not blank, without the blanks around them. -/
def segments (descriptor : List Char) : List (List Char) :=
  ((Text.cut isSeparator descriptor).map Text.trim).filter (fun segment => !segment.isEmpty)

/-- Reads a descriptor; the first segment that is no instruction fails it. -/
def compile (descriptor : String) : Except ActionError (List Instruction) :=
  (segments descriptor.toList).mapM readInstruction

end Hypermedia.Action
