import Hypermedia.Text.Placeholder
import Hypermedia.Proofs.Text.Words

/-! Templates: texts as literals and placeholders by turns. Every text is such a template in one way, and
to fill it in is to ask for the value of each placeholder once, from left to right. -/
namespace Hypermedia.Text

/-- What has no letter and no underscore at its head. -/
def NoWord (s : List Char) : Prop :=
  ∀ c ∈ s.head?, isWordStart c = false

/-- No dollar sign of a literal has a letter or an underscore after it. -/
def Inert : List Char → Prop
  | [] => True
  | c :: s => (c = '$' → NoWord s) ∧ Inert s

/-- What a path does not go on with. -/
def EndsPath : List Char → Prop
  | [] => True
  | c :: s => isWordChar c = false ∧ (c = '.' → NoWord s)

/-- A letter or an underscore, then letters, digits and underscores. -/
def IsName : List Char → Prop
  | [] => False
  | c :: s => isWordStart c = true ∧ ∀ d ∈ s, isWordChar d = true

/-- A placeholder for the value at a path of names, and the literal after it. -/
structure Slot where
  names : List (List Char)
  literal : List Char

namespace Slot

def path (s : Slot) : List Char :=
  join ['.'] s.names

def text (s : Slot) : List Char :=
  '$' :: s.path ++ s.literal

def pieces (s : Slot) : List Piece :=
  .placeholder s.path :: s.literal.map .plain

structure WellFormed (s : Slot) : Prop where
  ne_nil : s.names ≠ []
  names : ∀ name ∈ s.names, IsName name
  ends : EndsPath s.literal
  inert : Inert s.literal

end Slot

/-- A text: a literal, then placeholders with a literal after each. -/
structure Template where
  opening : List Char
  slots : List Slot

namespace Template

def text (t : Template) : List Char :=
  t.opening ++ t.slots.flatMap Slot.text

def paths (t : Template) : List (List Char) :=
  t.slots.map Slot.path

def pieces (t : Template) : List Piece :=
  t.opening.map .plain ++ t.slots.flatMap Slot.pieces

structure WellFormed (t : Template) : Prop where
  inert : Inert t.opening
  slots : ∀ slot ∈ t.slots, slot.WellFormed

/-- The literals with values between them. -/
def weave (t : Template) (values : List (List Char)) : List Char :=
  t.opening ++ (List.zipWith (fun found slot => found ++ slot.literal) values t.slots).flatten

end Template

section decidable

-- named, as the search may also find the instance that tries all characters there are
instance : DecidablePred NoWord :=
  fun s => Option.decidableForallMem s.head?

instance Inert.decidable : DecidablePred Inert
  | [] => inferInstanceAs (Decidable True)
  | c :: s =>
    have := Inert.decidable s
    inferInstanceAs (Decidable ((c = '$' → NoWord s) ∧ Inert s))

instance : DecidablePred EndsPath
  | [] => inferInstanceAs (Decidable True)
  | c :: s => inferInstanceAs (Decidable (isWordChar c = false ∧ (c = '.' → NoWord s)))

instance : DecidablePred IsName
  | [] => inferInstanceAs (Decidable False)
  | c :: s =>
    have : Decidable (∀ d ∈ s, isWordChar d = true) := List.decidableBAll _ s
    inferInstanceAs (Decidable (isWordStart c = true ∧ ∀ d ∈ s, isWordChar d = true))

instance : DecidablePred Slot.WellFormed := fun s =>
  decidable_of_iff
    (s.names ≠ [] ∧ (∀ name ∈ s.names, IsName name) ∧ EndsPath s.literal ∧ Inert s.literal)
    ⟨fun ⟨hne, hnames, hends, hinert⟩ => ⟨hne, hnames, hends, hinert⟩,
      fun h => ⟨h.ne_nil, h.names, h.ends, h.inert⟩⟩

instance : DecidablePred Template.WellFormed := fun t =>
  decidable_of_iff (Inert t.opening ∧ ∀ slot ∈ t.slots, slot.WellFormed)
    ⟨fun ⟨hinert, hslots⟩ => ⟨hinert, hslots⟩, fun h => ⟨h.inert, h.slots⟩⟩

end decidable

variable {c : Char} {s rest literal name path : List Char} {names : List (List Char)} {slot : Slot}
  {slots : List Slot} {t u : Template}

section reading

theorem isWordChar_of_isWordStart (h : isWordStart c = true) : isWordChar c = true := by
  simp only [isWordStart, isWordChar, Char.isAlphanum, Bool.or_eq_true] at *
  tauto

/-- The text of a placeholder begins with a dollar sign, and so does what comes after a literal. -/
def BeginsSlot (s : List Char) : Prop :=
  ∀ c ∈ s.head?, c = '$'

theorem beginsSlot_flatMap (slots : List Slot) : BeginsSlot (slots.flatMap Slot.text) := by
  cases slots with
  | nil => exact nofun
  | cons slot slots =>
    rintro c ⟨⟩
    rfl

theorem BeginsSlot.noWord (h : BeginsSlot s) : NoWord s := by
  intro c hc
  rw [h c hc]
  decide

theorem NoWord.of_append (h : NoWord (literal ++ rest)) : NoWord literal := by
  cases literal with
  | nil => exact nofun
  | cons c literal => exact h

theorem EndsPath.of_append (h : EndsPath (literal ++ rest)) : EndsPath literal := by
  cases literal with
  | nil => trivial
  | cons c literal => exact ⟨h.1, fun hc => (h.2 hc).of_append⟩

theorem NoWord.append (h : NoWord literal) (hrest : BeginsSlot rest) : NoWord (literal ++ rest) := by
  cases literal with
  | nil => exact hrest.noWord
  | cons c literal => exact h

theorem EndsPath.append (h : EndsPath literal) (hrest : BeginsSlot rest) : EndsPath (literal ++ rest) := by
  cases literal with
  | cons c literal => exact ⟨h.1, fun hc => (h.2 hc).append hrest⟩
  | nil =>
    cases rest with
    | nil => trivial
    | cons c rest =>
      obtain rfl := hrest c rfl
      exact ⟨by decide, fun hc => absurd hc (by decide)⟩

/-- A dollar sign that no word follows stands for itself. -/
theorem piecesAfter_dollar (h : NoWord s) : piecesAfter .dollar s = .plain '$' :: piecesAfter .nothing s := by
  cases s with
  | nil => rfl
  | cons c s =>
    have hc : isWordStart c = false := h c rfl
    by_cases hdollar : c = '$'
    · subst hdollar
      simp [piecesAfter, Reading.next?, Reading.pieces, hc]
    · simp [piecesAfter, Reading.next?, Reading.pieces, hc, hdollar]

theorem piecesAfter_literal (h : Inert literal) (hrest : BeginsSlot rest) :
    piecesAfter .nothing (literal ++ rest) = literal.map .plain ++ piecesAfter .nothing rest := by
  induction literal with
  | nil => rfl
  | cons c literal ih =>
    obtain ⟨hc, hliteral⟩ := h
    by_cases hdollar : c = '$'
    · subst hdollar
      have hstep : piecesAfter .nothing ('$' :: (literal ++ rest)) = piecesAfter .dollar (literal ++ rest) := rfl
      rw [List.cons_append, hstep, piecesAfter_dollar ((hc rfl).append hrest), ih hliteral]
      rfl
    · simp [piecesAfter, Reading.next?, Reading.pieces, hdollar, ih hliteral]

theorem piecesAfter_word (h : ∀ c ∈ s, isWordChar c = true) :
    piecesAfter (.path path) (s ++ rest) = piecesAfter (.path (path ++ s)) rest := by
  induction s generalizing path with
  | nil => simp
  | cons c s ih =>
    obtain ⟨hc, hs⟩ := List.forall_mem_cons.mp h
    simp [piecesAfter, Reading.next?, hc, ih hs]

theorem piecesAfter_name (h : IsName name) :
    piecesAfter .dollar (name ++ rest) = piecesAfter (.path name) rest := by
  cases name with
  | nil => exact h.elim
  | cons c s =>
    have hstep : piecesAfter .dollar (c :: s ++ rest) = piecesAfter (.path [c]) (s ++ rest) := by
      simp [piecesAfter, Reading.next?, h.1]
    rw [hstep, piecesAfter_word h.2]
    rfl

theorem piecesAfter_point (h : IsName name) :
    piecesAfter (.path path) ('.' :: name ++ rest) = piecesAfter (.path (path ++ '.' :: name)) rest := by
  cases name with
  | nil => exact h.elim
  | cons c s =>
    have hpoint : isWordChar '.' = false := by decide
    have hstep : piecesAfter (.path path) ('.' :: (c :: s) ++ rest) =
        piecesAfter (.path (path ++ ['.', c])) (s ++ rest) := by
      simp [piecesAfter, Reading.next?, hpoint, h.1]
    rw [hstep, piecesAfter_word h.2]
    simp

theorem join_cons_of_ne_nil (name : List Char) (h : names ≠ []) :
    join ['.'] (name :: names) = name ++ '.' :: join ['.'] names := by
  cases names with
  | nil => exact absurd rfl h
  | cons other names => simp [join, List.intercalate]

theorem join_cons (name : List Char) (names : List (List Char)) :
    join ['.'] (name :: names) = name ++ names.flatMap ('.' :: ·) := by
  induction names generalizing name with
  | nil => simp [join]
  | cons other names ih =>
    rw [join_cons_of_ne_nil name (List.cons_ne_nil _ _), ih, List.flatMap_cons]
    rfl

theorem piecesAfter_names (h : ∀ name ∈ names, IsName name) :
    piecesAfter (.path path) (names.flatMap ('.' :: ·) ++ rest) =
      piecesAfter (.path (path ++ names.flatMap ('.' :: ·))) rest := by
  induction names generalizing path with
  | nil => simp
  | cons name names ih =>
    obtain ⟨hname, hnames⟩ := List.forall_mem_cons.mp h
    rw [List.flatMap_cons, List.append_assoc, piecesAfter_point hname, ih hnames, List.append_assoc]

theorem piecesAfter_path (hne : names ≠ []) (h : ∀ name ∈ names, IsName name) :
    piecesAfter .dollar (join ['.'] names ++ rest) = piecesAfter (.path (join ['.'] names)) rest := by
  cases names with
  | nil => exact absurd rfl hne
  | cons name names =>
    obtain ⟨hname, hnames⟩ := List.forall_mem_cons.mp h
    rw [join_cons, List.append_assoc, piecesAfter_name hname, piecesAfter_names hnames]

/-- A path ends where a text does not go on with it, be it after a point. -/
theorem piecesAfter_end (h : EndsPath s) :
    piecesAfter (.path path) s = .placeholder path :: piecesAfter .nothing s := by
  cases s with
  | nil => rfl
  | cons c s =>
    obtain ⟨hc, hpoint⟩ := h
    by_cases hdot : c = '.'
    · subst hdot
      have hword := hpoint rfl
      cases s with
      | nil => rfl
      | cons d s =>
        have hd : isWordStart d = false := hword d rfl
        by_cases hdollar : d = '$'
        · subst hdollar
          simp [piecesAfter, Reading.next?, Reading.pieces, hc, hd]
        · simp [piecesAfter, Reading.next?, Reading.pieces, hc, hd, hdollar]
    · by_cases hdollar : c = '$'
      · subst hdollar
        simp [piecesAfter, Reading.next?, Reading.pieces, hc]
      · simp [piecesAfter, Reading.next?, Reading.pieces, hc, hdot, hdollar]

theorem Slot.WellFormed.pieces (h : slot.WellFormed) (hrest : BeginsSlot rest) :
    piecesAfter .nothing (slot.text ++ rest) = slot.pieces ++ piecesAfter .nothing rest := by
  have hdollar : piecesAfter .nothing (slot.text ++ rest) =
      piecesAfter .dollar (slot.path ++ (slot.literal ++ rest)) := by
    rw [Slot.text, List.append_assoc]
    rfl
  rw [hdollar, Slot.path, piecesAfter_path h.ne_nil h.names, piecesAfter_end (h.ends.append hrest),
    piecesAfter_literal h.inert hrest]
  rfl

/-- The pieces of a template are its placeholders and the characters of its literals. -/
theorem Template.WellFormed.pieces (h : t.WellFormed) : Text.pieces t.text = t.pieces := by
  have hslots : ∀ slots : List Slot, (∀ slot ∈ slots, slot.WellFormed) →
      piecesAfter .nothing (slots.flatMap Slot.text) = slots.flatMap Slot.pieces := by
    intro slots hslots
    induction slots with
    | nil => rfl
    | cons slot slots ih =>
      obtain ⟨hslot, hrest⟩ := List.forall_mem_cons.mp hslots
      rw [List.flatMap_cons, hslot.pieces (beginsSlot_flatMap slots), ih hrest, List.flatMap_cons]
  rw [Text.pieces, Template.text, piecesAfter_literal h.inert (beginsSlot_flatMap t.slots),
    hslots t.slots h.slots, Template.pieces]

end reading

section writing

/-- A text that begins with a word begins with a path that it does not go on with. -/
theorem exists_path (hc : isWordStart c = true) (s : List Char) : ∃ names rest,
    c :: s = join ['.'] names ++ rest ∧ names ≠ [] ∧ (∀ name ∈ names, IsName name) ∧ EndsPath rest := by
  induction h : s.length using Nat.strong_induction_on generalizing c s with
  | _ n ih =>
    subst h
    have hword : IsName (c :: s.takeWhile isWordChar) := ⟨hc, fun d hd => List.mem_takeWhile_imp hd⟩
    have hless : (s.dropWhile isWordChar).length ≤ s.length := length_dropWhile_le _ _
    have hsplit : c :: s = (c :: s.takeWhile isWordChar) ++ s.dropWhile isWordChar := by simp
    have hend (hends : EndsPath (s.dropWhile isWordChar)) : ∃ names rest,
        c :: s = join ['.'] names ++ rest ∧ names ≠ [] ∧ (∀ name ∈ names, IsName name) ∧ EndsPath rest :=
      ⟨[c :: s.takeWhile isWordChar], s.dropWhile isWordChar, by simp [join], List.cons_ne_nil _ _,
        List.forall_mem_singleton.mpr hword, hends⟩
    cases hrest : s.dropWhile isWordChar with
    | nil => exact hend (hrest ▸ trivial)
    | cons d rest =>
      have hd : isWordChar d = false := by
        simpa [hrest] using List.head?_dropWhile_not isWordChar s
      by_cases hpoint : d = '.' → NoWord rest
      · exact hend (hrest ▸ ⟨hd, hpoint⟩)
      · -- a point with a word after it: the path goes on
        obtain ⟨rfl, e, he, hstart⟩ : d = '.' ∧ ∃ e ∈ rest.head?, isWordStart e = true := by
          simpa [NoWord] using hpoint
        obtain ⟨after, rfl⟩ := List.head?_eq_some_iff.mp he
        rw [hrest] at hless hsplit
        have hlt : after.length < s.length := by
          simp only [List.length_cons] at hless
          omega
        obtain ⟨names, rest, hjoin, hne, hnames, hends⟩ := ih after.length hlt hstart after rfl
        refine ⟨(c :: s.takeWhile isWordChar) :: names, rest, ?_, List.cons_ne_nil _ _,
          List.forall_mem_cons.mpr ⟨hword, hnames⟩, hends⟩
        rw [hsplit, hjoin, join_cons_of_ne_nil _ hne]
        simp

/-- Every text is a template. -/
theorem exists_template (s : List Char) : ∃ t : Template, t.WellFormed ∧ t.text = s := by
  induction h : s.length using Nat.strong_induction_on generalizing s with
  | _ n ih =>
    subst h
    cases s with
    | nil => exact ⟨⟨[], []⟩, ⟨trivial, nofun⟩, rfl⟩
    | cons c s =>
      by_cases hinert : c = '$' → NoWord s
      · -- a character that begins no placeholder joins the literal after it
        obtain ⟨t, ht, rfl⟩ := ih s.length (Nat.lt_succ_self _) s rfl
        exact ⟨⟨c :: t.opening, t.slots⟩, ⟨⟨fun hc => (hinert hc).of_append, ht.inert⟩, ht.slots⟩, rfl⟩
      · obtain ⟨rfl, d, hd, hstart⟩ : c = '$' ∧ ∃ d ∈ s.head?, isWordStart d = true := by
          simpa [NoWord] using hinert
        obtain ⟨after, rfl⟩ := List.head?_eq_some_iff.mp hd
        obtain ⟨names, rest, hjoin, hne, hnames, hends⟩ := exists_path hstart after
        have hless : rest.length < ('$' :: d :: after).length := by
          rw [hjoin, List.length_cons, List.length_append]
          omega
        obtain ⟨t, ht, rfl⟩ := ih rest.length hless rest rfl
        have hslot : Slot.WellFormed ⟨names, t.opening⟩ := ⟨hne, hnames, hends.of_append, ht.inert⟩
        refine ⟨⟨[], ⟨names, t.opening⟩ :: t.slots⟩,
          ⟨trivial, List.forall_mem_cons.mpr ⟨hslot, ht.slots⟩⟩, ?_⟩
        rw [hjoin]
        simp [Template.text, Slot.text, Slot.path]

theorem IsName.isWordChar (h : IsName name) : ∀ c ∈ name, isWordChar c = true := by
  cases name with
  | nil => exact h.elim
  | cons c s => exact List.forall_mem_cons.mpr ⟨isWordChar_of_isWordStart h.1, h.2⟩

/-- The names of a path are what stands between its points. -/
theorem cut_path (hne : names ≠ []) (h : ∀ name ∈ names, IsName name) :
    cut (· == '.') (join ['.'] names) = names := by
  induction names with
  | nil => exact absurd rfl hne
  | cons name names ih =>
    obtain ⟨hname, hnames⟩ := List.forall_mem_cons.mp h
    have hsolid : ∀ c ∈ name, (c == '.') = false := by
      intro c hc
      rw [beq_eq_false_iff_ne]
      rintro rfl
      exact absurd (hname.isWordChar _ hc) (by decide)
    cases names with
    | nil => simpa [join] using cut_of_forall_not hsolid
    | cons other names =>
      rw [join_cons_of_ne_nil name (List.cons_ne_nil _ _), cut_append_cons (by decide),
        cut_of_forall_not hsolid, ih (List.cons_ne_nil _ _) hnames]
      rfl

/-- A literal ends where a placeholder begins. -/
theorem plain_append_inj {a b : List Char} {v w : List Slot}
    (h : a.map .plain ++ v.flatMap Slot.pieces = b.map .plain ++ w.flatMap Slot.pieces) :
    a = b ∧ v.flatMap Slot.pieces = w.flatMap Slot.pieces := by
  have hne (c : Char) (more : List Piece) (v : List Slot) : v.flatMap Slot.pieces ≠ .plain c :: more := by
    cases v with
    | nil => exact nofun
    | cons slot v =>
      intro h
      cases h
  induction a generalizing b with
  | nil =>
    cases b with
    | nil => exact ⟨rfl, h⟩
    | cons c b => exact absurd h (hne c _ v)
  | cons c a ih =>
    cases b with
    | nil => exact absurd h.symm (hne c _ w)
    | cons d b =>
      obtain ⟨hc, hrest⟩ := List.cons_eq_cons.mp h
      cases hc
      obtain ⟨rfl, hslots⟩ := ih hrest
      exact ⟨rfl, hslots⟩

theorem slots_unique {v w : List Slot} (hv : ∀ slot ∈ v, slot.WellFormed) (hw : ∀ slot ∈ w, slot.WellFormed)
    (h : v.flatMap Slot.pieces = w.flatMap Slot.pieces) : v = w := by
  induction v generalizing w with
  | nil =>
    cases w with
    | nil => rfl
    | cons slot w => cases h
  | cons slot v ih =>
    cases w with
    | nil => cases h
    | cons other w =>
      obtain ⟨hslot, hvs⟩ := List.forall_mem_cons.mp hv
      obtain ⟨hother, hws⟩ := List.forall_mem_cons.mp hw
      obtain ⟨hpath, hrest⟩ := List.cons_eq_cons.mp h
      obtain ⟨hliteral, hslots⟩ := plain_append_inj hrest
      have hnames : slot.names = other.names := by
        rw [← cut_path hslot.ne_nil hslot.names, ← cut_path hother.ne_nil hother.names]
        exact congrArg (cut (· == '.')) (Piece.placeholder.inj hpath)
      have hsame : slot = other := congrArg₂ Slot.mk hnames hliteral
      rw [hsame, ih hvs hws hslots]

/-- A text is a template in one way. -/
theorem template_unique (ht : t.WellFormed) (hu : u.WellFormed) (h : t.text = u.text) : t = u := by
  have hpieces : t.pieces = u.pieces := by rw [← ht.pieces, ← hu.pieces, h]
  obtain ⟨hopening, hslots⟩ := plain_append_inj hpieces
  obtain ⟨opening, slots⟩ := t
  cases hopening
  cases slots_unique ht.slots hu.slots hslots
  rfl

theorem existsUnique_template (s : List Char) : ∃! t : Template, t.WellFormed ∧ t.text = s := by
  obtain ⟨t, ht, htext⟩ := exists_template s
  refine ⟨t, ⟨ht, htext⟩, ?_⟩
  rintro u ⟨hu, hutext⟩
  exact template_unique hu ht (hutext.trans htext.symm)

end writing

section filling

variable {m : Type → Type} [Monad m] [LawfulMonad m]

theorem hasPlaceholders_text (h : t.WellFormed) : hasPlaceholders t.text = !t.slots.isEmpty := by
  have hplain (s : List Char) : (s.map Piece.plain).any Piece.isPlaceholder = false := by
    simp [Piece.isPlaceholder]
  rw [hasPlaceholders, h.pieces, Template.pieces, List.any_append, hplain]
  cases t.slots with
  | nil => rfl
  | cons slot slots => rfl

/-- Pieces with what `value` gives in the place of the placeholders. -/
def fillPieces (value : List Char → m (List Char)) (ps : List Piece) : m (List Char) :=
  List.flatten <$> ps.mapM (Piece.fill value)

variable (value : List Char → m (List Char))

theorem fillPieces_cons (p : Piece) (ps : List Piece) :
    fillPieces value (p :: ps) = do
      let front ← p.fill value
      let more ← fillPieces value ps
      return front ++ more := by
  simp [fillPieces]

theorem fillPieces_literal (literal : List Char) (ps : List Piece) :
    fillPieces value (literal.map .plain ++ ps) = (literal ++ ·) <$> fillPieces value ps := by
  induction literal with
  | nil => simp
  | cons c literal ih =>
    rw [List.map_cons, List.cons_append, fillPieces_cons, ih]
    simp [Piece.fill]

theorem fillPieces_slot (slot : Slot) (ps : List Piece) :
    fillPieces value (slot.pieces ++ ps) = do
      let found ← value slot.path
      let more ← fillPieces value ps
      return found ++ slot.literal ++ more := by
  rw [Slot.pieces, List.cons_append, fillPieces_cons, fillPieces_literal]
  simp [Piece.fill]

theorem fillPieces_slots (slots : List Slot) :
    fillPieces value (slots.flatMap Slot.pieces) =
      (fun values => (List.zipWith (fun found slot => found ++ slot.literal) values slots).flatten) <$>
        (slots.map Slot.path).mapM value := by
  induction slots with
  | nil => simp [fillPieces]
  | cons slot slots ih =>
    rw [List.flatMap_cons, fillPieces_slot, ih]
    simp

/-- To fill a template in is to ask for the value of each of its paths once, in their order. -/
theorem Template.WellFormed.fill (h : t.WellFormed) :
    Text.fill value t.text = t.weave <$> t.paths.mapM value := by
  have hfill : Text.fill value t.text = fillPieces value (Text.pieces t.text) := by
    simp [Text.fill, fillPieces]
  rw [hfill, h.pieces, Template.pieces, fillPieces_literal, fillPieces_slots]
  simp only [Functor.map_map]
  rfl

end filling

end Hypermedia.Text
