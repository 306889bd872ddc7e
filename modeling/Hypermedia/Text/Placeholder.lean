/-! Placeholders in texts: a dollar sign and words joined by points. -/
namespace Hypermedia.Text

/-- A part of a text: characters as they are, or a placeholder for the value at a path. -/
inductive Piece where
  | plain (c : Char)
  | placeholder (path : List Char)
  deriving DecidableEq, Repr

def isWordStart (c : Char) : Bool :=
  c.isAlpha || c == '_'

def isWordChar (c : Char) : Bool :=
  c.isAlphanum || c == '_'

/-- What has been read of a placeholder: nothing, a dollar sign, a path, or a path and a point. -/
inductive Reading where
  | nothing
  | dollar
  | path (path : List Char)
  | point (path : List Char)

namespace Reading

/-- The pieces that have been read when no placeholder goes on. -/
def pieces : Reading → List Piece
  | nothing => []
  | dollar => [.plain '$']
  | path p => [.placeholder p]
  | point p => [.placeholder p, .plain '.']

/-- What has been read after one more character, if it goes on with a placeholder. -/
def next? : Reading → Char → Option Reading
  | nothing, c => if c == '$' then some dollar else none
  | dollar, c => if isWordStart c then some (path [c]) else none
  | path p, c =>
    if isWordChar c then some (path (p ++ [c])) else if c == '.' then some (point p) else none
  | point p, c => if isWordStart c then some (path (p ++ ['.', c])) else none

end Reading

def piecesAfter : Reading → List Char → List Piece
  | r, [] => r.pieces
  | r, c :: cs =>
    match r.next? c with
    | some r => piecesAfter r cs
    | none =>
      if c == '$' then r.pieces ++ piecesAfter .dollar cs
      else r.pieces ++ .plain c :: piecesAfter .nothing cs

def pieces (text : List Char) : List Piece :=
  piecesAfter .nothing text

def Piece.isPlaceholder : Piece → Bool
  | plain _ => false
  | placeholder _ => true

def hasPlaceholders (text : List Char) : Bool :=
  (pieces text).any Piece.isPlaceholder

/-- What a piece stands for: a character for itself, a placeholder for what `value` gives. -/
def Piece.fill {m : Type → Type} [Monad m] (value : List Char → m (List Char)) : Piece → m (List Char)
  | plain c => pure [c]
  | placeholder path => value path

/-- A text with what `value` gives in the place of its placeholders, from left to right. -/
def fill {m : Type → Type} [Monad m] (value : List Char → m (List Char)) (text : List Char) :
    m (List Char) := do
  return (← (pieces text).mapM (Piece.fill value)).flatten

end Hypermedia.Text
