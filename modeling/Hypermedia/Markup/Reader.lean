import Hypermedia.Markup.Event
import Hypermedia.Decimal.Read

/-! Reading markup text. -/
namespace Hypermedia.Markup

def isSpace (c : Char) : Bool :=
  c == ' ' || c == '\t' || c == '\r' || c == '\n'

def namedReference? (name : List Char) : Option Char :=
  if name = "lt".toList then some '<'
  else if name = "gt".toList then some '>'
  else if name = "amp".toList then some '&'
  else if name = "quot".toList then some '"'
  else if name = "apos".toList then some '\''
  else none

def hexValue? (c : Char) : Option Nat :=
  if c.isDigit then some (c.toNat - 48)
  else if 'a' ≤ c ∧ c ≤ 'f' then some (c.toNat - 87)
  else if 'A' ≤ c ∧ c ≤ 'F' then some (c.toNat - 55)
  else none

def hexadecimal? (s : List Char) : Option Nat :=
  if s.isEmpty then none
  else s.foldlM (fun n c => (hexValue? c).map (16 * n + ·)) 0

def character? (code : Nat) : Option Char :=
  if code ≠ 0 ∧ code.isValidChar then some (Char.ofNat code) else none

/-- What a reference stands for: a name, or a code point in decimal or hexadecimal digits. -/
def reference? : List Char → Option Char
  | '#' :: 'x' :: digits => (hexadecimal? digits).bind character?
  | '#' :: digits => (Decimal.natural? digits).bind character?
  | name => namedReference? name

/-- Text with its references resolved; an ampersand must start a reference. -/
def unescape : List Char → Option (List Char)
  | [] => some []
  | c :: rest =>
    if c = '&' then
      let name := rest.takeWhile (fun c => c != '&' && c != ';')
      match h : rest.dropWhile (fun c => c != '&' && c != ';') with
      | ';' :: after =>
        have : after.length < rest.length := by
          have := Text.length_dropWhile_le (fun c => c != '&' && c != ';') rest
          rw [h] at this
          exact this
        (reference? name).bind fun c => (unescape after).map (c :: ·)
      | _ => none
    else (unescape rest).map (c :: ·)
termination_by s => s.length

/-- Cuts at the first `>` outside quotes. -/
def untilClose : Option Char → List Char → Option (List Char × List Char)
  | _, [] => none
  | quote, c :: rest =>
    match quote with
    | some q =>
      (untilClose (if c = q then none else some q) rest).map fun (body, after) => (c :: body, after)
    | none =>
      if c = '>' then some ([], rest)
      else
        (untilClose (if c = '"' ∨ c = '\'' then some c else none) rest).map
          fun (body, after) => (c :: body, after)

/-- Cuts at the first `>` before which `stop` holds of what was read, last character first. -/
def untilMark (stop : List Char → Bool) : List Char → List Char → Option (List Char × List Char)
  | _, [] => none
  | seen, c :: rest =>
    if c = '>' && stop seen then some (seen.reverse, rest)
    else untilMark stop (c :: seen) rest

theorem untilClose_length {quote : Option Char} {s body after : List Char}
    (h : untilClose quote s = some (body, after)) : after.length < s.length := by
  induction s generalizing quote body after with
  | nil => simp [untilClose] at h
  | cons c rest ih =>
    cases quote with
    | some q =>
      simp only [untilClose, Option.map_eq_some_iff] at h
      obtain ⟨⟨b, a⟩, hr, he⟩ := h
      obtain ⟨-, rfl⟩ := Prod.mk.inj he
      have := ih hr
      simp only [List.length_cons]
      omega
    | none =>
      simp only [untilClose] at h
      split at h
      · simp only [Option.some.injEq, Prod.mk.injEq] at h
        simp [h.2]
      · simp only [Option.map_eq_some_iff] at h
        obtain ⟨⟨b, a⟩, hr, he⟩ := h
        obtain ⟨-, rfl⟩ := Prod.mk.inj he
        have := ih hr
        simp only [List.length_cons]
        omega

theorem untilMark_length {stop : List Char → Bool} {seen s body after : List Char}
    (h : untilMark stop seen s = some (body, after)) : after.length < s.length := by
  induction s generalizing seen with
  | nil => simp [untilMark] at h
  | cons c rest ih =>
    simp only [untilMark] at h
    split at h
    · simp only [Option.some.injEq, Prod.mk.injEq] at h
      simp [h.2]
    · have := ih h
      simp only [List.length_cons]
      omega

/-- A comment ends with two hyphens that are not those of its start. -/
def endsComment (seen : List Char) : Bool :=
  4 < seen.length && "--".toList.isPrefixOf seen

def endsRaw (seen : List Char) : Bool :=
  "]]".toList.isPrefixOf seen

/-- A document type ends where its angle brackets balance. -/
def endsDoctype (seen : List Char) : Bool :=
  seen.count '<' == seen.count '>'

def endsInstruction (seen : List Char) : Bool :=
  seen.head? == some '?'

/-- The end rule of a declaration, chosen by the character after the exclamation mark. -/
def bangEnd? : List Char → Option (List Char → Bool)
  | '-' :: _ => some endsComment
  | '[' :: _ => some endsRaw
  | 'D' :: _ => some endsDoctype
  | 'd' :: _ => some endsDoctype
  | _ => none

def bangEvent? (body : List Char) : Option Event :=
  if "!--".toList.isPrefixOf body then some .aside
  else if (body.take 8).map Char.toUpper = "![CDATA[".toList then
    some (.chars (String.ofList ((body.drop 8).take (body.length - 10))))
  else if (body.take 8).map Char.toUpper = "!DOCTYPE".toList then
    if (body.drop 8).all isSpace then none else some .aside
  else none

def instructionEvent? (body : List Char) : Option Event :=
  if body.length < 2 then none else some .aside

/-- The attributes of a tag: names, equals signs and quoted values; no name comes twice. -/
def attributes? (taken : List String) (s : List Char) : Option (List (String × String)) :=
  match h : s.dropWhile isSpace with
  | [] => some []
  | c :: rest =>
    let name := String.ofList (c :: rest.takeWhile (fun c => c != '=' && !isSpace c))
    match h₁ : (rest.dropWhile (fun c => c != '=' && !isSpace c)).dropWhile isSpace with
    | '=' :: value =>
      if taken.contains name then none
      else match h₂ : value.dropWhile isSpace with
        | quote :: quoted =>
          if quote = '"' ∨ quote = '\'' then
            match h₃ : quoted.dropWhile (· != quote) with
            | _ :: after =>
              have : after.length < s.length := by
                have l₀ := Text.length_dropWhile_le isSpace s
                have l₁ := Text.length_dropWhile_le isSpace
                  (rest.dropWhile (fun c => c != '=' && !isSpace c))
                have l₁' := Text.length_dropWhile_le (fun c => c != '=' && !isSpace c) rest
                have l₂ := Text.length_dropWhile_le isSpace value
                have l₃ := Text.length_dropWhile_le (· != quote) quoted
                rw [h] at l₀
                rw [h₁] at l₁
                rw [h₂] at l₂
                rw [h₃] at l₃
                simp only [List.length_cons] at l₀ l₁ l₂ l₃
                omega
              (unescape (quoted.takeWhile (· != quote))).bind fun text =>
                (attributes? (name :: taken) after).map ((name, String.ofList text) :: ·)
            | [] => none
          else none
        | [] => none
    | _ => none
termination_by s.length

def tagName (body : List Char) : String :=
  String.ofList (body.takeWhile (fun c => !isSpace c))

def tagEvent? (body : List Char) : Option Event :=
  if body.getLast? = some '/' then
    let body := body.dropLast
    (attributes? [] (body.dropWhile (fun c => !isSpace c))).map (.single (tagName body))
  else (attributes? [] (body.dropWhile (fun c => !isSpace c))).map (.start (tagName body))

/-- The name of an end tag, given with its slash; blanks may follow a name that has other
characters. -/
def endName (body : List Char) : String :=
  let name := ((body.drop 1).reverse.dropWhile isSpace).reverse
  String.ofList (if name.isEmpty then body.drop 1 else name)

def openAfter (opened : List String) : Event → List String
  | .start tag _ => tag :: opened
  | _ => opened

/-- The events of a text up to its end or up to the first fault, and whether there was a fault. -/
def scan (opened : List String) (s : List Char) : List Event × Bool :=
  match s with
  | [] => ([], false)
  | c :: rest =>
    if c = '<' then
      match rest with
      | [] => ([], true)
      | '!' :: decl =>
        match bangEnd? decl with
        | none => ([], true)
        | some stop =>
          match h : untilMark stop [] ('!' :: decl) with
          | none => ([], true)
          | some (body, after) =>
            have : after.length < decl.length + 2 := by
              have := untilMark_length h
              simp only [List.length_cons] at this
              omega
            match bangEvent? body with
            | none => ([], true)
            | some e =>
              let (es, fault) := scan opened after
              (e :: es, fault)
      | '?' :: pi =>
        match h : untilMark endsInstruction [] ('?' :: pi) with
        | none => ([], true)
        | some (body, after) =>
          have : after.length < pi.length + 2 := by
            have := untilMark_length h
            simp only [List.length_cons] at this
            omega
          match instructionEvent? body with
          | none => ([], true)
          | some e =>
            let (es, fault) := scan opened after
            (e :: es, fault)
      | d :: more =>
        match h : untilClose none (d :: more) with
        | none => ([], true)
        | some (body, after) =>
          have : after.length < more.length + 2 := by
            have := untilClose_length h
            simp only [List.length_cons] at this
            omega
          if d = '/' then
            match opened with
            | name :: outer =>
              if endName body = name then
                let (es, fault) := scan outer after
                (.stop :: es, fault)
              else ([], true)
            | [] => ([], true)
          else
            match tagEvent? body with
            | none => ([], true)
            | some e =>
              let (es, fault) := scan (openAfter opened e) after
              (e :: es, fault)
    else
      match unescape (c :: rest.takeWhile (· != '<')) with
      | none => ([], true)
      | some text =>
        have : (rest.dropWhile (· != '<')).length < rest.length + 1 := by
          have := Text.length_dropWhile_le (· != '<') rest
          omega
        let (es, fault) := scan opened (rest.dropWhile (· != '<'))
        (.chars (String.ofList text) :: es, fault)
termination_by s.length

/-- Reads a document; a fault of the tree before the first fault of the text wins. -/
def parse (text : String) : Except MarkupFault Node :=
  let s := match text.toList with
    | c :: rest => if c.toNat = 0xFEFF then rest else c :: rest
    | [] => []
  let (events, fault) := scan [] s
  match events.foldlM Reading.step {} with
  | .error e => .error e
  | .ok r => if fault then .error .illFormed else r.result

end Hypermedia.Markup
