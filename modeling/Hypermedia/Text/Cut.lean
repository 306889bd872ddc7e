/-! Blank characters, and cutting text into pieces, words and lines. -/
namespace Hypermedia.Text

/-- The characters that have the Unicode property White_Space. -/
def isBlank (c : Char) : Bool :=
  let n := c.toNat
  (9 ≤ n && n ≤ 13) || n == 0x20 || n == 0x85 || n == 0xA0 || n == 0x1680 ||
    (0x2000 ≤ n && n ≤ 0x200A) || n == 0x2028 || n == 0x2029 || n == 0x202F ||
    n == 0x205F || n == 0x3000

theorem length_dropWhile_le (p : Char → Bool) (s : List Char) :
    (s.dropWhile p).length ≤ s.length :=
  (List.dropWhile_sublist p).length_le

def trimStart (s : List Char) : List Char :=
  s.dropWhile isBlank

def trimEnd (s : List Char) : List Char :=
  (s.reverse.dropWhile isBlank).reverse

def trim (s : List Char) : List Char :=
  trimEnd (trimStart s)

def allBlank (s : List Char) : Bool :=
  s.all isBlank

/-- The pieces between the characters that satisfy `p`, empty ones included. -/
def cut (p : Char → Bool) : List Char → List (List Char)
  | [] => [[]]
  | c :: rest =>
    if p c then [] :: cut p rest
    else match cut p rest with
      | [] => [[c]]
      | piece :: pieces => (c :: piece) :: pieces

theorem cut_ne_nil (p : Char → Bool) (s : List Char) : cut p s ≠ [] := by
  cases s with
  | nil => simp [cut]
  | cons c rest =>
    rw [cut]
    split
    · simp
    · split <;> simp

def words (s : List Char) : List (List Char) :=
  (cut isBlank s).filter (fun piece => !piece.isEmpty)

def dropReturn (line : List Char) : List Char :=
  if line.getLast? = some '\r' then line.dropLast else line

/-- Every line feed ends a line; what follows the last one is a line unless it is empty. -/
def lines (s : List Char) : List (List Char) :=
  let pieces := cut (· == '\n') s
  pieces.dropLast.map dropReturn ++ (pieces.getLast?.toList.filter (fun piece => !piece.isEmpty))

def join (sep : List Char) (pieces : List (List Char)) : List Char :=
  sep.intercalate pieces

def splitOnce (sep : List Char) : List Char → Option (List Char × List Char)
  | [] => if sep.isEmpty then some ([], []) else none
  | c :: rest =>
    match sep.isPrefixOf? (c :: rest) with
    | some after => some ([], after)
    | none => (splitOnce sep rest).map fun (before, after) => (c :: before, after)

def dropEnding (ending s : List Char) : Option (List Char) :=
  (ending.reverse.isPrefixOf? s.reverse).map List.reverse

def exchange (old : Char) (new : List Char) (s : List Char) : List Char :=
  s.flatMap fun c => if c = old then new else [c]

def byteLength (s : List Char) : Nat :=
  s.foldl (fun n c => n + c.utf8Size) 0

/-- Equality up to the case of ASCII letters. -/
def sameLetters (a b : List Char) : Bool :=
  a.map Char.toLower == b.map Char.toLower

end Hypermedia.Text
