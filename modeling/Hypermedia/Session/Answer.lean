import Hypermedia.Action.TreeHost
import Hypermedia.Session.Navigation

/-! Answers of a session to its running action lists: fragments of responses and edits of the
document. -/
namespace Hypermedia.Session

open Hypermedia.Action (Ask)

variable {σ : Type} (transport : Transport σ)

def find? (s : Session σ) (selector : String) : Except SelectionError (Option WidgetId) := do
  return (← s.tree.selectAll selector none).head?

/-- Takes note of a fragment that has no place; its rules hold at once. -/
def awaitPlace (fragment : Markup.Fragment) : Act σ WidgetId := do
  addRules fragment.rules
  modify fun s => { s with pending := s.pending ++ [(fragment.root, fragment.widgets)] }
  return fragment.root

/-- Makes a fragment of a response, which has no place at first. -/
def loadFragment (r : Network.Response) : Act σ WidgetId := do
  let node ← lift .compile (Action.responseNode r)
  let base := (Url.parse r.url).toOption.getD (← get).url
  let node ← inlined transport base node
  awaitPlace (← compiled (Markup.compileFragment node))

def takePending (s : Session σ) (root : WidgetId) : List WidgetId × Session σ :=
  ((s.pending.lookup root).getD [], { s with pending := s.pending.filter (·.1 != root) })

/-- Places a fragment or a part of it and binds its scripts; the rest of the fragment is dropped. -/
def applyEdit (result target : WidgetId) (edit : Edit) : Act σ Unit := do
  let s ← get
  -- fragment and subtree are looked up before the edit takes the result out of its place
  let fragment := (s.tree.lineage result).find? fun id => (s.pending.lookup id).isSome
  let placed := s.tree.descendants result
  let (outcome, tree) := s.tree.place result target edit
  set { s with tree }
  lift .selection outcome
  match fragment with
  | none => return ()
  | some root =>
    let (widgets, s) := (← get).takePending root
    set (if root = result then s else { s with tree := s.tree.remove root })
    bindScripts (widgets.filter placed.contains)

def releaseFragment (s : Session σ) (root : WidgetId) : Session σ :=
  if (s.pending.lookup root).isSome then
    { (s.takePending root).2 with tree := s.tree.remove root }
  else s

def releaseFragments (s : Session σ) (roots : List WidgetId) : Session σ :=
  roots.foldl releaseFragment s

def answer : (q : Ask) → Act σ q.Answer
  | .requestBody caller selector => do lift .selection ((← get).tree.requestBody caller selector)
  | .loadFragment response => loadFragment transport response
  | .select selector within => do lift .selection ((← get).tree.selectAll selector within)
  | .isContainer id => do lift .selection ((← get).tree.isContainer id)
  | .query id => return (← get).tree.query id
  | .edit result target edit => applyEdit result target edit

end Hypermedia.Session
