import Hypermedia.Proofs.Style.Blocks
import Hypermedia.Proofs.Style.Declared
import Hypermedia.Proofs.Text.Margins

/-! Nested rule blocks, the ways to lay them out on lines, and what is read back from such lines. -/
namespace Hypermedia.Style

open Text (spaces Solid nonBlank)

/-- What stands in a rule block: a property, or a selector with members of its own. -/
inductive Member where
  | property (name value : List Char)
  | block (selector : List Char) (members : List Member)

mutual

/-- What the properties of a member say, with `parent` as the selector around it. -/
def Member.declared (parent : List Char) : Member → List Declaration
  | .property name value => [⟨String.ofList parent, String.ofList name, String.ofList value⟩]
  | .block selector members => declaredAll (nestSelector parent selector) members

def declaredAll (parent : List Char) : List Member → List Declaration
  | [] => []
  | member :: rest => member.declared parent ++ declaredAll parent rest

end

/-- The blocks of a text: outermost selectors with their members. -/
abbrev Blocks :=
  List (List Char × List Member)

def Blocks.members (blocks : Blocks) : List Member :=
  blocks.map fun block => .block block.1 block.2

def Blocks.declared (blocks : Blocks) : List Declaration :=
  blocks.flatMap fun block => declaredAll block.1 block.2

/-- A key that can stand before a colon: it does not open a quotation and holds no colon with a space behind it. -/
structure Key (key : List Char) : Prop where
  solid : Solid key
  unquoted : ∀ c ∈ key.head?, c ≠ '\'' ∧ c ≠ '"'
  unsplit : ¬ [':', ' '] <:+: key

def propertyLine (depth : Nat) (name value : List Char) : List Char :=
  spaces depth ++ (name ++ ([':', ' '] ++ value))

def selectorLine (depth : Nat) (selector : List Char) : List Char :=
  spaces depth ++ (selector ++ [':'])

mutual

/-- The ways to lay out a member at a depth; the members of a block all go to one depth below that of the block. -/
inductive Lays : Nat → Member → List (List Char) → Prop where
  | property {depth name value} (hname : Key name) (hvalue : Solid value) :
      Lays depth (.property name value) [propertyLine depth name value]
  | block {depth inner selector members ls} (hselector : Key selector) (deeper : depth < inner)
      (all : LaysAll inner members ls) : Lays depth (.block selector members) (selectorLine depth selector :: ls)

inductive LaysAll : Nat → List Member → List (List Char) → Prop where
  | nil {depth} : LaysAll depth [] []
  | cons {depth member members own ls} (first : Lays depth member own) (rest : LaysAll depth members ls) :
      LaysAll depth (member :: members) (own ++ ls)

end

/-- A text that has the blocks on its lines, all of them as far to the right; blank lines do not count. -/
def Prints (blocks : Blocks) (text : String) : Prop :=
  ∃ depth ls, text.toList = Text.join ['\n'] ls ∧ (∀ l ∈ ls, '\n' ∉ l) ∧
    LaysAll depth blocks.members (nonBlank ls)

variable {name value selector parent key body l : List Char} {ls own : List (List Char)} {depth inner number : Nat}
  {r : Reading} {member : Member} {members : List Member}

section entries

/-- A key hides no separator, also not with the colon behind it. -/
theorem isPrefixOf?_separator {c : Char} {rest : List Char} (h : ¬ [':', ' '] <:+: c :: key)
    (hrest : rest.head? = some ':') : [':', ' '].isPrefixOf? (c :: (key ++ rest)) = none := by
  rw [Option.eq_none_iff_forall_ne_some]
  intro after hafter
  have heq : ':' :: ' ' :: after = c :: (key ++ rest) := List.isPrefixOf?_eq_some_iff_append_eq.mp hafter
  obtain ⟨hc, heq⟩ := List.cons_eq_cons.mp heq
  cases key with
  | nil =>
    obtain rfl : rest = ' ' :: after := heq.symm
    cases hrest
  | cons d key =>
    obtain ⟨hd, -⟩ := List.cons_eq_cons.mp heq
    exact h ⟨[], key, by rw [← hc, ← hd]; rfl⟩

/-- A line is split behind its key. -/
theorem splitOnce_key (h : ¬ [':', ' '] <:+: key) {rest : List Char} (hrest : rest.head? = some ':') :
    Text.splitOnce [':', ' '] (key ++ rest) =
      (Text.splitOnce [':', ' '] rest).map fun parts => (key ++ parts.1, parts.2) := by
  induction key with
  | nil => simp
  | cons c key ih =>
    have htail : ¬ [':', ' '] <:+: key := fun hin => h (hin.trans (List.suffix_cons c key).isInfix)
    rw [List.cons_append, Text.splitOnce, isPrefixOf?_separator h hrest, ih htail]
    simp [Function.comp_def]

theorem splitOnce_property (h : ¬ [':', ' '] <:+: key) (after : List Char) :
    Text.splitOnce [':', ' '] (key ++ ([':', ' '] ++ after)) = some (key, after) := by
  have hsplit : Text.splitOnce [':', ' '] ([':', ' '] ++ after) = some ([], after) := rfl
  rw [splitOnce_key h rfl, hsplit, Option.map_some, List.append_nil]

theorem splitOnce_selector (h : ¬ [':', ' '] <:+: key) : Text.splitOnce [':', ' '] (key ++ [':']) = none := by
  rw [splitOnce_key h rfl]
  rfl

theorem ofLine?_of_unquoted (h : ∀ c ∈ l.head?, c ≠ '\'' ∧ c ≠ '"') : Entry.ofLine? l = plainEntry? l := by
  unfold Entry.ofLine?
  split
  · exact absurd rfl (h _ rfl).1
  · exact absurd rfl (h _ rfl).2
  · rfl

theorem Key.ofLine?_property (h : Key name) (hvalue : Solid value) :
    Entry.ofLine? (name ++ ([':', ' '] ++ value)) = some ⟨name, value⟩ := by
  have hunquoted : ∀ c ∈ (name ++ ([':', ' '] ++ value)).head?, c ≠ '\'' ∧ c ≠ '"' := by
    rw [List.head?_append_of_ne_nil _ h.solid.1]
    exact h.unquoted
  rw [ofLine?_of_unquoted hunquoted, plainEntry?, splitOnce_property h.unsplit]
  simp only [h.solid.2, hvalue.2]

theorem Key.ofLine?_selector (h : Key selector) : Entry.ofLine? (selector ++ [':']) = some ⟨selector, []⟩ := by
  have hunquoted : ∀ c ∈ (selector ++ [':']).head?, c ≠ '\'' ∧ c ≠ '"' := by
    rw [List.head?_append_of_ne_nil _ h.solid.1]
    exact h.unquoted
  have hending : Text.dropEnding [':'] (selector ++ [':']) = some selector := by
    simp [Text.dropEnding]
  rw [ofLine?_of_unquoted hunquoted, plainEntry?, splitOnce_selector h.unsplit, hending]
  simp only [Option.map_some, h.solid.2]

end entries

section lines

theorem depthOf_spaces (h : Solid body) : depthOf (spaces depth ++ body) = depth := by
  rw [depthOf, Text.takeWhile_spaces rfl h.head, Text.byteLength_spaces]

theorem isSkipped_of_colon (h : ':' ∈ body) : isSkipped body = false := by
  cases body with
  | nil => cases h
  | cons c body => simp [isSkipped, h]

/-- The blocks that stay open at a line of a given depth. -/
def enclosing (blocks : List (Nat × List Char)) (depth : Nat) : List (Nat × List Char) :=
  blocks.dropWhile fun block => depth ≤ block.1

theorem Key.solid_property (h : Key name) (hvalue : Solid value) : Solid (name ++ ([':', ' '] ++ value)) :=
  h.solid.around hvalue _

theorem Key.solid_selector (h : Key selector) : Solid (selector ++ [':']) := by
  have hcolon : Solid [':'] := ⟨List.cons_ne_nil _ _, rfl⟩
  exact h.solid.around hcolon []

theorem line_property (hname : Key name) (hvalue : Solid value) {d : Nat} {outer : List (Nat × List Char)}
    (hopen : enclosing r.blocks depth = (d, parent) :: outer) :
    r.line number (propertyLine depth name value) = .ok ⟨(d, parent) :: outer,
      r.rules.declare ⟨String.ofList parent, String.ofList name, String.ofList value⟩⟩ := by
  have hsolid := hname.solid_property hvalue
  have hskip : isSkipped (name ++ ([':', ' '] ++ value)) = false := isSkipped_of_colon (by simp)
  have hblocks : (r.blocks.dropWhile fun block => depth ≤ block.1) = (d, parent) :: outer := hopen
  obtain ⟨c, rest, rfl⟩ := List.exists_cons_of_ne_nil hvalue.1
  unfold Reading.line
  simp only [propertyLine, Text.trim_spaces hsolid, hskip, depthOf_spaces hsolid, hname.ofLine?_property hvalue, hblocks]
  rfl

/-- A selector line opens a block inside the blocks that stay open. -/
theorem line_selector (hselector : Key selector) {d : Nat} {outer : List (Nat × List Char)}
    (hopen : enclosing r.blocks depth = (d, parent) :: outer) :
    r.line number (selectorLine depth selector) =
      .ok ⟨(depth, nestSelector parent selector) :: (d, parent) :: outer, r.rules⟩ := by
  have hskip : isSkipped (selector ++ [':']) = false := isSkipped_of_colon (by simp)
  have hblocks : (r.blocks.dropWhile fun block => depth ≤ block.1) = (d, parent) :: outer := hopen
  unfold Reading.line
  simp only [selectorLine, Text.trim_spaces hselector.solid_selector, hskip, depthOf_spaces hselector.solid_selector,
    hselector.ofLine?_selector, hblocks]
  rfl

theorem line_outermost (hselector : Key selector) (hopen : enclosing r.blocks depth = []) :
    r.line number (selectorLine depth selector) = .ok ⟨[(depth, selector)], r.rules⟩ := by
  have hskip : isSkipped (selector ++ [':']) = false := isSkipped_of_colon (by simp)
  have hblocks : (r.blocks.dropWhile fun block => depth ≤ block.1) = [] := hopen
  unfold Reading.line
  simp only [selectorLine, Text.trim_spaces hselector.solid_selector, hskip, depthOf_spaces hselector.solid_selector,
    hselector.ofLine?_selector, hblocks]
  rfl

theorem line_blank (h : Text.allBlank l = true) : r.line number l = .ok r := by
  have htrim : Text.trim l = [] := Text.trim_eq_nil_iff.mpr (List.all_eq_true.mp h)
  have hskip : isSkipped [] = true := rfl
  unfold Reading.line
  simp only [htrim, hskip, if_true]

/-- What a line does when it is read does not depend on its number. -/
theorem line_number {after : Reading} (h : r.line number l = .ok after) (other : Nat) : r.line other l = .ok after := by
  unfold Reading.line at h ⊢
  dsimp only at h ⊢
  cases hskip : isSkipped (Text.trim l) with
  | true => rwa [hskip] at h
  | false =>
    rw [hskip] at h
    generalize (r.blocks.dropWhile fun block => depthOf l ≤ block.1) = blocks at h ⊢
    cases hentry : Entry.ofLine? (Text.trim l) with
    | none =>
      rw [hentry] at h
      cases h
    | some entry =>
      obtain ⟨key, value⟩ := entry
      rw [hentry] at h
      cases value with
      | nil => cases blocks <;> exact h
      | cons c value =>
        cases blocks with
        | nil => cases h
        | cons block outer => exact h

theorem lines_cons_of {next after : Reading} (hline : r.line number l = .ok next)
    (hls : next.lines (number + 1) ls = .ok after) : r.lines number (l :: ls) = .ok after := by
  rw [Reading.lines, hline]
  exact hls

theorem lines_append {next after : Reading} (hown : r.lines number own = .ok next)
    (hls : ∀ number, next.lines number ls = .ok after) : r.lines number (own ++ ls) = .ok after := by
  induction own generalizing r number with
  | nil =>
    cases hown
    exact hls number
  | cons l own ih =>
    obtain ⟨first, hline, hrest⟩ := lines_cons hown
    exact lines_cons_of hline (ih hrest)

/-- Blank lines change nothing, but for the numbers of the others. -/
theorem lines_of_nonBlank {after : Reading} (h : r.lines number (nonBlank ls) = .ok after) (other : Nat) :
    r.lines other ls = .ok after := by
  induction ls generalizing r number other with
  | nil => exact h
  | cons l ls ih =>
    rw [Text.nonBlank_cons] at h
    split at h
    · next hblank => exact lines_cons_of (line_blank hblank) (ih h _)
    · obtain ⟨next, hline, hrest⟩ := lines_cons h
      exact lines_cons_of (line_number hline other) (ih hrest _)

end lines

section runs

variable {blocks : List (Nat × List Char)}

theorem enclosing_enclosing (h : depth ≤ inner) : enclosing (enclosing blocks inner) depth = enclosing blocks depth := by
  induction blocks with
  | nil => rfl
  | cons block blocks ih =>
    unfold enclosing at ih ⊢
    by_cases hblock : inner ≤ block.1
    · have hdepth : depth ≤ block.1 := h.trans hblock
      rw [List.dropWhile_cons_of_pos (by simpa using hblock), List.dropWhile_cons_of_pos (by simpa using hdepth)]
      exact ih
    · rw [List.dropWhile_cons_of_neg (by simpa using hblock)]

theorem enclosing_self {opened : List (Nat × List Char)} (h : enclosing blocks depth = opened) :
    enclosing opened depth = opened := by
  rw [← h]
  exact enclosing_enclosing (Nat.le_refl depth)

/-- A block stays open on lines that are deeper than its own. -/
theorem enclosing_cons_of_lt (selector : List Char) (blocks : List (Nat × List Char)) (h : depth < inner) :
    enclosing ((depth, selector) :: blocks) inner = (depth, selector) :: blocks :=
  List.dropWhile_cons_of_neg (by simpa using h)

theorem enclosing_cons_self {selector : List Char} :
    enclosing ((depth, selector) :: blocks) depth = enclosing blocks depth :=
  List.dropWhile_cons_of_pos (by simp)

/-- Lines that say `ds` inside a selector that is open, and leave open what was open around them. -/
def Says (depth : Nat) (ls : List (List Char)) (declared : List Char → List Declaration) : Prop :=
  ∀ (r : Reading) (d : Nat) (parent : List Char) (outer : List (Nat × List Char)),
    enclosing r.blocks depth = (d, parent) :: outer →
    ∃ blocks, enclosing blocks depth = (d, parent) :: outer ∧
      ∀ number, r.lines number ls = .ok ⟨blocks, (declared parent).foldl RuleMap.declare r.rules⟩

theorem says_property (hname : Key name) (hvalue : Solid value) :
    Says depth [propertyLine depth name value] (Member.property name value).declared := by
  intro r d parent outer hopen
  exact ⟨_, enclosing_self hopen, fun _ => lines_cons_of (line_property hname hvalue hopen) rfl⟩

theorem says_block (hselector : Key selector) (deeper : depth < inner)
    (hmembers : Says inner ls fun parent => declaredAll parent members) :
    Says depth (selectorLine depth selector :: ls) (Member.block selector members).declared := by
  intro r d parent outer hopen
  have hinside := enclosing_cons_of_lt (nestSelector parent selector) ((d, parent) :: outer) deeper
  obtain ⟨blocks, hblocks, hlines⟩ := hmembers ⟨_, r.rules⟩ _ _ _ hinside
  refine ⟨blocks, ?_, fun number => lines_cons_of (line_selector hselector hopen) (hlines _)⟩
  calc enclosing blocks depth = enclosing (enclosing blocks inner) depth := (enclosing_enclosing deeper.le).symm
    _ = enclosing ((d, parent) :: outer) depth := by rw [hblocks, enclosing_cons_self]
    _ = (d, parent) :: outer := enclosing_self hopen

theorem says_append {first rest : List Char → List Declaration} (hfirst : Says depth own first)
    (hrest : Says depth ls rest) : Says depth (own ++ ls) fun parent => first parent ++ rest parent := by
  intro r d parent outer hopen
  obtain ⟨opened, hopened, hown⟩ := hfirst r d parent outer hopen
  obtain ⟨blocks, hblocks, hlines⟩ := hrest ⟨opened, _⟩ d parent outer hopened
  refine ⟨blocks, hblocks, fun number => ?_⟩
  rw [List.foldl_append]
  exact lines_append (hown number) hlines

/-- Members that are laid out on lines are what the lines say. -/
theorem says_of_laysAll (h : LaysAll depth members ls) : Says depth ls fun parent => declaredAll parent members := by
  refine @LaysAll.rec (fun depth member own _ => Says depth own member.declared)
    (fun depth members ls _ => Says depth ls fun parent => declaredAll parent members)
    ?property ?block ?nil ?cons depth members ls h
  case property =>
    intro depth name value hname hvalue
    exact says_property hname hvalue
  case block =>
    intro depth inner selector members ls hselector deeper _ hmembers
    exact says_block hselector deeper hmembers
  case nil =>
    intro depth r d parent outer hopen
    exact ⟨r.blocks, hopen, fun _ => rfl⟩
  case cons =>
    intro depth member members own ls _ _ hfirst hrest
    exact says_append hfirst hrest

/-- Blocks that are laid out on lines where none is open are what the lines say. -/
theorem lines_of_blocks {blocks : Blocks} (h : LaysAll depth blocks.members ls) (hopen : enclosing r.blocks depth = []) :
    ∃ opened, ∀ number, r.lines number ls = .ok ⟨opened, blocks.declared.foldl RuleMap.declare r.rules⟩ := by
  induction blocks generalizing r ls with
  | nil =>
    cases h
    exact ⟨r.blocks, fun _ => rfl⟩
  | cons block blocks ih =>
    obtain ⟨selector, members⟩ := block
    cases h with
    | @cons _ _ _ own ls first rest =>
    cases first with
    | @block _ inner _ _ within hselector deeper all =>
    have hinside := enclosing_cons_of_lt selector [] deeper
    obtain ⟨opened, hopened, hmembers⟩ := says_of_laysAll all ⟨_, r.rules⟩ _ _ _ hinside
    have hclosed : enclosing opened depth = [] :=
      calc enclosing opened depth = enclosing (enclosing opened inner) depth := (enclosing_enclosing deeper.le).symm
        _ = [] := by
          rw [hopened, enclosing_cons_self]
          rfl
    obtain ⟨left, hrest⟩ := ih (r := ⟨opened, _⟩) rest hclosed
    refine ⟨left, fun number => ?_⟩
    have hdeclared : Blocks.declared ((selector, members) :: blocks) =
        declaredAll selector members ++ Blocks.declared blocks := rfl
    rw [hdeclared, List.foldl_append]
    exact lines_append (lines_cons_of (line_outermost hselector hopen) (hmembers _)) hrest

end runs

section margins

/-- A line that is not blank, no further to the left than `depth`, with no blanks at its end. -/
def Indented (depth : Nat) (l : List Char) : Prop :=
  ∃ k body, l = spaces (depth + k) ++ body ∧ Solid body

theorem Indented.of_le (h : Indented inner l) (hle : depth ≤ inner) : Indented depth l := by
  obtain ⟨k, body, rfl, hbody⟩ := h
  obtain ⟨more, rfl⟩ := Nat.exists_eq_add_of_le hle
  exact ⟨more + k, body, by rw [Nat.add_assoc], hbody⟩

theorem indented_of_laysAll (h : LaysAll depth members ls) : ∀ l ∈ ls, Indented depth l := by
  refine @LaysAll.rec (fun depth _ own _ => ∀ l ∈ own, Indented depth l)
    (fun depth _ ls _ => ∀ l ∈ ls, Indented depth l) ?property ?block ?nil ?cons depth members ls h
  case property =>
    intro depth name value hname hvalue
    exact List.forall_mem_singleton.mpr ⟨0, _, rfl, hname.solid_property hvalue⟩
  case block =>
    intro depth inner selector members ls hselector deeper _ hmembers
    refine List.forall_mem_cons.mpr ⟨⟨0, _, rfl, hselector.solid_selector⟩, fun l hl => ?_⟩
    exact (hmembers l hl).of_le deeper.le
  case nil =>
    intro depth
    exact List.forall_mem_nil _
  case cons =>
    intro depth member members own ls _ _ hfirst hrest
    exact List.forall_mem_append.mpr ⟨hfirst, hrest⟩

theorem laysAll_nil (h : LaysAll depth [] ls) : ls = [] := by
  cases h
  rfl

theorem exists_first (h : LaysAll depth (member :: members) ls) :
    ∃ body rest, ls = (spaces depth ++ body) :: rest ∧ Solid body := by
  cases h with
  | cons first rest =>
    cases first with
    | property hname hvalue => exact ⟨_, _, rfl, hname.solid_property hvalue⟩
    | block hselector => exact ⟨_, _, rfl, hselector.solid_selector⟩

theorem dropMargin_line {n k : Nat} (h : Solid body) : Text.dropMargin (spaces n) (spaces (n + k) ++ body) = spaces k ++ body :=
  Text.dropMargin_spaces h.not_allBlank

/-- Lines that all move to the left by a margin still lay out the members. -/
theorem laysAll_dropMargin {n : Nat} (h : LaysAll depth members ls) : ∀ k, depth = n + k →
    LaysAll k members (ls.map (Text.dropMargin (spaces n))) := by
  refine @LaysAll.rec
    (fun depth member own _ => ∀ k, depth = n + k → Lays k member (own.map (Text.dropMargin (spaces n))))
    (fun depth members ls _ => ∀ k, depth = n + k → LaysAll k members (ls.map (Text.dropMargin (spaces n))))
    ?property ?block ?nil ?cons depth members ls h
  case property =>
    rintro _ name value hname hvalue k rfl
    rw [List.map_singleton, propertyLine, dropMargin_line (hname.solid_property hvalue)]
    exact .property hname hvalue
  case block =>
    rintro _ inner selector members ls hselector deeper _ hmembers k rfl
    obtain ⟨more, rfl⟩ := Nat.exists_eq_add_of_le deeper.le
    rw [List.map_cons, selectorLine, dropMargin_line hselector.solid_selector]
    exact .block hselector (by omega) (hmembers (k + more) (Nat.add_assoc _ _ _))
  case nil =>
    intro depth k _
    exact .nil
  case cons =>
    intro depth member members own ls _ _ hfirst hrest k hk
    rw [List.map_append]
    exact .cons (hfirst k hk) (hrest k hk)

/-- Without their margin lines lay out what they did, and the margin is made of blanks. -/
theorem exists_laysAll_margin (h : LaysAll depth members (nonBlank ls)) :
    ∃ k, LaysAll k members ((nonBlank ls).map (Text.dropMargin (Text.margin ls))) ∧
      Text.allBlank (Text.margin ls) = true := by
  cases members with
  | nil =>
    have hnone : nonBlank ls = [] := laysAll_nil h
    have hmargin : Text.margin ls = [] := by
      unfold nonBlank at hnone
      rw [Text.margin, hnone]
      rfl
    rw [hnone, hmargin]
    exact ⟨0, .nil, rfl⟩
  | cons member members =>
    obtain ⟨body, rest, hls, hbody⟩ := exists_first h
    have hindented := indented_of_laysAll h
    rw [hls] at hindented
    have hmargin : Text.margin ls = spaces depth := by
      refine Text.margin_eq_spaces hls (Text.lead_spaces hbody.head) fun l hl => ?_
      obtain ⟨k, body, rfl, hbody⟩ := hindented l (List.mem_cons_of_mem _ hl)
      exact ⟨k, Text.lead_spaces hbody.head⟩
    rw [hmargin]
    exact ⟨0, laysAll_dropMargin h 0 rfl, Text.allBlank_spaces depth⟩

theorem Indented.getLast?_ne_return (h : Indented depth l) : l.getLast? ≠ some '\r' := by
  obtain ⟨k, body, rfl, hbody⟩ := h
  rw [List.getLast?_append_of_ne_nil _ hbody.1]
  intro hlast
  exact absurd (hbody.last _ hlast) (by decide)

end margins

section texts

/-- The lines of a text that is joined from lines are these lines, if blank ones do not count. -/
theorem nonBlank_lines_of_laysAll (hfeed : ∀ l ∈ ls, '\n' ∉ l) (h : LaysAll depth members (nonBlank ls)) :
    nonBlank (Text.lines (Text.join ['\n'] ls)) = nonBlank ls :=
  Text.nonBlank_lines_join (fun l hl _ hc heq => hfeed l hl (heq ▸ hc))
    fun l hl => (indented_of_laysAll h l hl).getLast?_ne_return

theorem exists_laysAll_dedent (hfeed : ∀ l ∈ ls, '\n' ∉ l) (h : LaysAll depth members (nonBlank ls)) :
    ∃ k, LaysAll k members (nonBlank (Text.lines (Text.dedent (Text.join ['\n'] ls)))) := by
  have hlines := nonBlank_lines_of_laysAll hfeed h
  generalize Text.join ['\n'] ls = s at hlines ⊢
  rw [← hlines] at h
  obtain ⟨k, hlays, hblank⟩ := exists_laysAll_margin h
  rw [← Text.nonBlank_map_dropMargin hblank] at hlays
  have hplain : ∀ l ∈ (Text.lines s).map (Text.dropMargin (Text.margin (Text.lines s))), '\n' ∉ l := by
    refine List.forall_mem_map.mpr fun l hl hmem => ?_
    exact Text.not_of_mem_lines hl _ (Text.dropMargin_subset hmem) rfl
  exact ⟨k, (nonBlank_lines_of_laysAll hplain hlays).symm ▸ hlays⟩

/-- A text on which blocks are printed is read as what the blocks declare. -/
theorem compileRules_of_prints {blocks : Blocks} {text : String} (h : Prints blocks text) :
    ∃ rules, compileRules text none = .ok rules ∧ rules.Holds blocks.declared := by
  obtain ⟨depth, ls, htext, hfeed, hlays⟩ := h
  obtain ⟨k, hlays⟩ := exists_laysAll_dedent hfeed hlays
  obtain ⟨opened, hread⟩ := lines_of_blocks (r := {}) hlays rfl
  refine ⟨_, ?_, RuleMap.holds_foldl RuleMap.holds_empty blocks.declared⟩
  have hsource : blockSource text.toList none = Text.dedent (Text.join ['\n'] ls) := congrArg Text.dedent htext
  rw [compileRules, hsource, lines_of_nonBlank (hread 1) 1]
  rfl

/-- A selector with a nested one between two of its properties, and the joined selector once more. -/
def cardBlocks : Blocks :=
  [(['.', 'a'], [.property ['x'] ['1'], .block ['.', 'b'] [.property ['y'] ['2']], .property ['x'] ['3']]),
    (['.', 'a', '.', 'b'], [.property ['z'] ['4']])]

def cardLines : List (List Char) :=
  [selectorLine 2 ['.', 'a'], propertyLine 4 ['x'] ['1'], [' '], selectorLine 4 ['.', 'b'],
    propertyLine 7 ['y'] ['2'], propertyLine 4 ['x'] ['3'], [], selectorLine 2 ['.', 'a', '.', 'b'],
    propertyLine 3 ['z'] ['4'], []]

theorem prints_card : Prints cardBlocks (String.ofList (Text.join ['\n'] cardLines)) := by
  have hproperty {depth : Nat} {name value : List Char} (hname : Key name) (hvalue : Solid value) :
      LaysAll depth [.property name value] [propertyLine depth name value] :=
    .cons (.property hname hvalue) .nil
  have hx : Key ['x'] := ⟨⟨by decide, by decide⟩, by simp, by decide⟩
  have hy : Key ['y'] := ⟨⟨by decide, by decide⟩, by simp, by decide⟩
  have hz : Key ['z'] := ⟨⟨by decide, by decide⟩, by simp, by decide⟩
  have ha : Key ['.', 'a'] := ⟨⟨by decide, by decide⟩, by simp, by decide⟩
  have hb : Key ['.', 'b'] := ⟨⟨by decide, by decide⟩, by simp, by decide⟩
  have hab : Key ['.', 'a', '.', 'b'] := ⟨⟨by decide, by decide⟩, by simp, by decide⟩
  have hvalue {c : Char} (hc : Text.isBlank c = false) : Solid [c] :=
    Text.solid_of_ends (List.cons_ne_nil _ _) (by simpa using hc) (by simpa using hc)
  have hnested := Lays.block hb (by decide : 4 < 7) (hproperty hy (hvalue (by decide : Text.isBlank '2' = false)))
  have hmembers := LaysAll.cons (.property hx (hvalue (by decide : Text.isBlank '1' = false)))
    (.cons hnested (hproperty hx (hvalue (by decide : Text.isBlank '3' = false))))
  have hlast := Lays.block hab (by decide : 2 < 3) (hproperty hz (hvalue (by decide : Text.isBlank '4' = false)))
  have hlays := LaysAll.cons (.block ha (by decide : 2 < 4) hmembers) (.cons hlast .nil)
  exact ⟨2, cardLines, String.toList_ofList, by decide, hlays⟩

theorem card_read : Prints cardBlocks (String.ofList (Text.join ['\n'] cardLines)) ∧
    ∃ rules, compileRules (String.ofList (Text.join ['\n'] cardLines)) none = .ok rules ∧
      rules.Holds cardBlocks.declared ∧ rules.entries.map (·.1) = [".a", ".a.b"] := by
  obtain ⟨rules, hrules, hholds⟩ := compileRules_of_prints prints_card
  refine ⟨prints_card, rules, hrules, hholds, ?_⟩
  rw [hholds.selectors]
  rfl

end texts

end Hypermedia.Style
