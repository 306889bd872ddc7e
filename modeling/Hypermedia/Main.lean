import Hypermedia.CommandLine.Execute
import Hypermedia.CommandLine.Offline

/-! The program: reads its arguments, files and input, and prints what comes of them. -/
open Hypermedia Hypermedia.CommandLine

namespace Hypermedia.CommandLine

def printAll (outputs : List Output) : IO Unit := do
  for output in outputs do
    match output with
    | .normal text => IO.print text
    | .error text => IO.eprint text
  (← IO.getStdout).flush

def readDocument (file : String) : IO (Except Error String) := do
  try
    return .ok (← IO.FS.readFile file)
  catch e =>
    return .error (.file (toString e))

partial def serve (s : Session Unit) : IO Unit := do
  let line ← (← IO.getStdin).getLine
  if line.isEmpty then return
  let (printed, next) := Shell.answer offline s line
  printAll printed
  match next with
  | some s => serve s
  | none => return

end Hypermedia.CommandLine

def main (arguments : List String) : IO UInt32 := do
  let progress : Progress Unit ← match Invocation.ofArguments arguments with
    | .error e => pure e.outcome
    | .ok invocation => do
      let document ← match invocation with
        | .check file => readDocument file
        | _ => pure (.ok "")
      pure (invocation.execute offline () document)
  match progress with
  | .ended printed code =>
    printAll printed
    return code
  | .serving printed s =>
    printAll printed
    serve s
    return 0
