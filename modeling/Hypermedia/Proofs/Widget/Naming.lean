import Hypermedia.Proofs.Style.Cascade
import Hypermedia.Proofs.Widget.Grammar

/-! The selectors that a tree gives for its widgets, and when such a selector is read as that of one widget alone. -/
namespace Hypermedia

namespace Compound

variable {c d : Compound} {piece : Char × List Char} {marked : List (Char × List Char)} {part : List Char}
  {name : String}

section eids

theorem eid_of_addPiece (h : addPiece c piece = some d) :
    d.eid = if piece.1 = '#' then some (String.ofList piece.2) else c.eid := by
  unfold addPiece at h
  split at h
  · cases h
  · cases h
    rfl
  · cases h
    rfl
  · cases h
    rfl
  · next heid _ _ =>
    obtain ⟨n, -, rfl⟩ := Option.map_eq_some_iff.mp h
    exact (if_neg heid).symm

/-- Marked pieces leave the eid alone if none of them is an eid, and else put one of them in its place. -/
theorem eid_of_foldlM_addPiece (h : marked.foldlM addPiece c = some d) :
    (d.eid = c.eid ∧ ∀ piece ∈ marked, piece.1 ≠ '#') ∨
      ∃ run, ('#', run) ∈ marked ∧ d.eid = some (String.ofList run) := by
  induction marked generalizing c with
  | nil =>
    cases h
    exact .inl ⟨rfl, nofun⟩
  | cons piece marked ih =>
    obtain ⟨mark, run⟩ := piece
    rw [List.foldlM_cons] at h
    obtain ⟨next, hnext, hrest⟩ := Option.bind_eq_some_iff.mp h
    have hfirst := eid_of_addPiece hnext
    rcases ih hrest with ⟨hkept, hnone⟩ | ⟨last, hlast, heid⟩
    · by_cases hmark : mark = '#'
      · subst hmark
        exact .inr ⟨run, List.mem_cons_self, hkept.trans hfirst⟩
      · exact .inl ⟨hkept.trans (hfirst.trans (if_neg hmark)), List.forall_mem_cons.mpr ⟨hmark, hnone⟩⟩
    · exact .inr ⟨last, List.mem_cons_of_mem _ hlast, heid⟩

/-- A word with a mark for an eid gives an eid, and this is a name. -/
theorem exists_eid_of_parse? (h : parse? part = some c) (hword : ∀ x ∈ part, Text.isBlank x = false)
    (hmark : '#' ∈ part) : ∃ eid, c.eid = some eid ∧ IsName eid := by
  have hformed : Formed part := parse?_isSome_iff.mp (by rw [h]; rfl)
  rcases eid_of_foldlM_addPiece h with ⟨-, hnone⟩ | ⟨run, hpiece, heid⟩
  · obtain ⟨before, after, rfl⟩ := List.append_of_mem hmark
    exact absurd rfl (hnone _ (mem_pieces_iff.mpr ⟨before, after, rfl, rfl, rfl⟩))
  · obtain ⟨before, after, rfl, hmarker, rfl⟩ := mem_pieces_iff.mp hpiece
    refine ⟨_, heid, ?_⟩
    rw [IsName, String.toList_ofList]
    refine ⟨(hformed before '#' after rfl hmarker).1, fun x hx => ⟨hword x ?_, ?_⟩⟩
    · exact List.mem_append_right _ (List.mem_cons_of_mem _ ((List.takeWhile_sublist _).subset hx))
    · simpa using List.mem_takeWhile_imp hx

end eids

end Compound

namespace Tree

open Style (Properties RuleBook)

variable {t : Tree} {id x : WidgetId} {w : Widget} {kind : Widget.Kind} {eid : Option String} {name : String}

/-- The text is read as a selector that matches this widget and no other. -/
def Identifies (t : Tree) (text : String) (id : WidgetId) : Prop :=
  ∃ s, Selector.parse text = .ok s ∧ ∀ x, s.matches t x = true ↔ x = id

/-- A rule that is applied under the text bears on this widget, and leaves all others with the style they had. -/
def Restyles (t : Tree) (text : String) (id : WidgetId) : Prop :=
  ∀ (b : RuleBook) (properties : Properties) (priority : Int), ∃ applied r,
    b.apply text properties priority = .ok applied ∧ applied.rules = b.rules ++ [r] ∧
      r.properties = properties ∧ r.priority = priority ∧ r.Bears t id ∧
      ∀ x ≠ id, applied.compute t x = b.compute t x

/-- The widget has the kind and the eid, and if there is an eid then no other widget of the kind has it. -/
structure Sole (t : Tree) (id : WidgetId) (kind : Widget.Kind) (eid : Option String) : Prop where
  widget : ∃ w, t.get? id = some w ∧ w.kind = kind ∧ w.eid = eid
  place : id.index < 2 ^ 64
  sole : ∀ name ∈ eid, ∀ x v, t.get? x = some v → v.kind = kind → v.eid = some name → x = id

section reading

theorem kind_eq_of_letters {k l : Widget.Kind}
    (h : k.name.toList.map Char.toLower = l.name.toList.map Char.toLower) : k = l := by
  have hread (k : Widget.Kind) : Widget.Kind.ofTag? k.name = some k := by cases k <;> rfl
  have hsame : Widget.Kind.ofTag? k.name = Widget.Kind.ofTag? l.name := by
    rw [Widget.Kind.ofTag?, Widget.Kind.ofTag?, h]
  exact Option.some.inj ((hread k).symm.trans (hsame.trans (hread l)))

theorem isName_kind (kind : Widget.Kind) : Compound.IsName kind.name ∧ kind.name ≠ "*" := by
  cases kind <;> decide

/-- The compound that is written for a widget. -/
def compoundOf (kind : Widget.Kind) (eid : Option String) (id : WidgetId) : Compound where
  kind := some kind.name
  eid := eid
  identity := if eid.isSome then none else some id.index

theorem query_eq_written (h : t.Sole id kind eid) : (t.query id).toList = (compoundOf kind eid id).written := by
  obtain ⟨w, hw, rfl, rfl⟩ := h.widget
  rw [query, hw]
  cases heid : w.eid <;>
    simp [Widget.query, compoundOf, heid, Compound.written, Compound.writtenKind, Compound.marks, WidgetId.text]

theorem writable_compoundOf (h : t.Sole id kind eid) (hname : ∀ name ∈ eid, Compound.IsName name) :
    (compoundOf kind eid id).Writable where
  kind := by
    intro _ hkind
    cases hkind
    exact isName_kind kind
  eid := hname
  groups := nofun
  state := nofun
  identity := by
    intro n hn
    cases eid with
    | none =>
      cases hn
      exact h.place
    | some name => cases hn

theorem fits_compoundOf (h : t.Sole id kind eid) : (compoundOf kind eid id).Fits t x ↔ x = id := by
  obtain ⟨w, hw, rfl, rfl⟩ := h.widget
  constructor
  · rintro ⟨v, hv, hdescribes⟩
    have hkind : v.kind = w.kind := (kind_eq_of_letters (hdescribes.kind _ rfl)).symm
    cases heid : w.eid with
    | none =>
      have hplace : x.index = id.index := hdescribes.identity id.index (by simp [compoundOf, heid])
      exact WidgetId.ext hplace
    | some name => exact h.sole name heid x v hv hkind (hdescribes.eid name heid)
  · rintro rfl
    refine ⟨w, hw, ?_, fun _ heid => heid, ?_, nofun⟩
    · intro _ hkind
      cases hkind
      rfl
    · intro n hn
      cases heid : w.eid with
      | none => simpa [compoundOf, heid] using hn
      | some name => simp [compoundOf, heid] at hn

/-- With an eid that is a name, or with none, the selector of a widget is read as one of its kind that asks for no
state, and matches the widget alone. -/
theorem exists_parse_query (h : t.Sole id kind eid) (hname : ∀ name ∈ eid, Compound.IsName name) :
    ∃ s, Selector.parse (t.query id) = .ok s ∧ (∀ part ∈ s.parts, part.state = none) ∧
      ∀ x, s.matches t x = true ↔ x = id := by
  have hwrites : Selector.Writes [compoundOf kind eid id] (t.query id).toList := by
    rw [query_eq_written h]
    exact .last _
  obtain ⟨s, hs, hparts⟩ := Selector.exists_parse_of_writes hwrites (by simpa using writable_compoundOf h hname)
  obtain ⟨habove, hsubject⟩ : s.above = [] ∧ s.subject = compoundOf kind eid id := by
    simpa [Selector.parts, List.append_eq_singleton_iff] using hparts
  refine ⟨s, hs, by simp [hparts, compoundOf], fun x => ?_⟩
  rw [← fits_compoundOf h, ← Compound.matches_iff, Selector.matches, hsubject, habove]
  simp [Selector.ascend]

end reading

section rules

theorem restyles_of_parse {text : String} {s : Selector} (hs : Selector.parse text = .ok s)
    (hstate : ∀ part ∈ s.parts, part.state = none) (hmatches : ∀ x, s.matches t x = true ↔ x = id) :
    t.Restyles text id := by
  intro b properties priority
  let r : Style.Rule := { selector := s, properties, priority, order := b.nextOrder }
  refine ⟨_, r, RuleBook.apply_of_parse hs, rfl, rfl, rfl, ⟨hstate, (hmatches id).mpr rfl⟩, fun x hx => ?_⟩
  exact RuleBook.compute_concat rfl fun hbears => hx ((hmatches x).mp hbears.2)

end rules

section necessity

theorem above_eq_nil_of_matches {s : Selector} (hx : t.parent? x = none) (h : s.matches t x = true) :
    s.above = [] := by
  have hchain : t.ancestors x = [] := by
    rw [ancestors, hx]
    cases t.slots.size <;> rfl
  obtain ⟨chosen, hchosen, hfits⟩ := Selector.ascend_iff.mp (Bool.and_eq_true_iff.mp h).2
  rw [hchain, List.sublist_nil] at hchosen
  subst hchosen
  exact List.reverse_eq_nil_iff.mp (List.forall₂_nil_right_iff.mp hfits)

/-- If the selector of a widget with an eid has one part only, then this part is read from a word with the mark. -/
theorem exists_marked_of_parse_query {s : Selector} (hw : t.get? id = some w) (heid : w.eid = some name)
    (hs : Selector.parse (t.query id) = .ok s) (habove : s.above = []) :
    ∃ part, Compound.parse? part = some s.subject ∧ (∀ x ∈ part, Text.isBlank x = false) ∧ '#' ∈ part := by
  let start := w.kind.name.toList ++ ['#']
  have hquery : (t.query id).toList = start ++ name.toList := by
    simp [query, hw, Widget.query, heid, start]
  have hplain : ∀ x ∈ start, Text.isBlank x = false :=
    List.forall_mem_append.mpr ⟨fun x hx => ((isName_kind w.kind).1.2 x hx).1, List.forall_mem_singleton.mpr rfl⟩
  have hstart : Text.words start = [] ++ [start] := Text.words_of_forall_not (by simp [start]) hplain
  obtain ⟨more, rest, hwords, -, -⟩ := Text.exists_words_append hstart name.toList
  have hparts := Selector.mapM_of_parse hs
  rw [hquery, hwords, Selector.parts, habove, List.nil_append, List.nil_append, List.mapM_cons] at hparts
  obtain ⟨c, hc, hparts⟩ := Option.bind_eq_some_iff.mp hparts
  obtain ⟨cs, -, hparts⟩ := Option.bind_eq_some_iff.mp hparts
  obtain ⟨rfl, -⟩ := List.cons_eq_cons.mp (Option.some.inj hparts)
  have hword : start ++ more ∈ Text.words (start ++ name.toList) := by
    rw [hwords]
    exact List.mem_cons_self
  exact ⟨start ++ more, hc, (Text.mem_words hword).2, by simp [start]⟩

/-- A widget at the top that is found by its own selector has a name for its eid. -/
theorem isName_of_identifies (hw : t.get? id = some w) (htop : w.parent = none) (heid : w.eid = some name)
    (h : t.Identifies (t.query id) id) : Compound.IsName name := by
  obtain ⟨s, hs, hmatches⟩ := h
  have hid : s.matches t id = true := (hmatches id).mpr rfl
  have hparent : t.parent? id = none := by
    rw [parent?, hw]
    exact htop
  obtain ⟨part, hc, hword, hmark⟩ :=
    exists_marked_of_parse_query hw heid hs (above_eq_nil_of_matches hparent hid)
  obtain ⟨eid, hread, hname⟩ := Compound.exists_eid_of_parse? hc hword hmark
  obtain ⟨v, hv, hdescribes⟩ := Compound.matches_iff.mp (Bool.and_eq_true_iff.mp hid).1
  obtain rfl : w = v := Option.some.inj (hw.symm.trans hv)
  obtain rfl : name = eid := Option.some.inj (heid.symm.trans (hdescribes.eid eid hread))
  exact hname

/-- A tree of one widget. -/
def lone (kind : Widget.Kind) (eid : Option String) : Tree :=
  (({} : Tree).construct { kind, eid }).2

theorem sole_lone (kind : Widget.Kind) (eid : Option String) : (lone kind eid).Sole ⟨0⟩ kind eid := by
  refine ⟨⟨{ kind, eid }, rfl, rfl, rfl⟩, by decide, fun _ _ x v hv _ _ => ?_⟩
  rw [lone, get?_construct] at hv
  split at hv
  · next hx => exact WidgetId.ext hx
  · cases hv

end necessity

/-- What a tree gives as the selector of a widget is one of this widget alone, and good for its style, as long as its
eid is a name: a text that is not empty, without blanks and without marks. With any other eid there are trees where
it is not. -/
theorem query_identifies_iff (kind : Widget.Kind) (eid : Option String) :
    (∀ t id, Sole t id kind eid → t.Identifies (t.query id) id ∧ t.Restyles (t.query id) id) ↔
      ∀ name ∈ eid, Compound.IsName name := by
  constructor
  · intro h name hname
    obtain ⟨hidentifies, -⟩ := h (lone kind eid) ⟨0⟩ (sole_lone kind eid)
    exact isName_of_identifies rfl rfl hname hidentifies
  · intro hname t id h
    obtain ⟨s, hs, hstate, hmatches⟩ := exists_parse_query h hname
    exact ⟨⟨s, hs, hmatches⟩, restyles_of_parse hs hstate hmatches⟩

/-- A tower and a text in it have the same eid, and another text has none. -/
theorem query_identifies_namesakes :
    let t : Tree := { slots := #[some { kind := .tower, eid := some "save", children := [⟨1⟩, ⟨2⟩] },
                        some { kind := .text, eid := some "save", parent := some ⟨0⟩ },
                        some { kind := .text, parent := some ⟨0⟩ }]
                      root := some ⟨0⟩ }
    (t.Sole ⟨1⟩ .text (some "save") ∧ Compound.IsName "save" ∧ t.Identifies "Text#save" ⟨1⟩) ∧
      t.Sole ⟨2⟩ .text none ∧ t.Identifies "Text@2" ⟨2⟩ := by
  intro t
  have hname : Compound.IsName "save" := by decide
  have hnamed : t.Sole ⟨1⟩ .text (some "save") := by
    refine ⟨⟨_, rfl, rfl, rfl⟩, by decide, fun name hname x v hv hkind heid => ?_⟩
    obtain ⟨_ | _ | _ | n⟩ := x
    · cases hv
      cases hkind
    · rfl
    · cases hv
      cases heid
    · simp [get?, t] at hv
  have hplain : t.Sole ⟨2⟩ .text none := ⟨⟨_, rfl, rfl, rfl⟩, by decide, by simp⟩
  have hsave := (query_identifies_iff .text (some "save")).mpr (by simpa using hname) t ⟨1⟩ hnamed
  have hplace := (query_identifies_iff .text none).mpr (by simp) t ⟨2⟩ hplain
  exact ⟨⟨hnamed, hname, hsave.1⟩, hplain, hplace.1⟩

/-- The selector of a lone text with the eid `a b` asks for a widget of kind `b`, and the selector of one with the eid
`a.` cannot be read. -/
theorem unnamed_eids_stray :
    ((lone .text (some "a b")).Sole ⟨0⟩ .text (some "a b") ∧
      ¬ (lone .text (some "a b")).Identifies ((lone .text (some "a b")).query ⟨0⟩) ⟨0⟩) ∧
    (lone .text (some "a.")).Sole ⟨0⟩ .text (some "a.") ∧
      ¬ (lone .text (some "a.")).Restyles ((lone .text (some "a.")).query ⟨0⟩) ⟨0⟩ := by
  refine ⟨⟨sole_lone _ _, ?_⟩, sole_lone _ _, ?_⟩
  · rintro ⟨s, hs, hmatches⟩
    have hread : Selector.parse "Text#a b" = .ok { source := "Text#a b", subject := { kind := some "b" }
                                                   above := [{ kind := some "Text", eid := some "a" }] } := by
      decide
    obtain rfl := Except.ok.inj (hread.symm.trans hs)
    exact absurd ((hmatches ⟨0⟩).mpr rfl) (by decide)
  · intro h
    obtain ⟨b, r, happly, -⟩ := h {} Dict.empty 0
    have hread : Selector.parse "Text#a." = .error (.invalidSelector "Text#a.") := by decide
    rw [show (lone .text (some "a.")).query ⟨0⟩ = "Text#a." from rfl, RuleBook.apply_of_parse_error hread] at happly
    cases happly

end Tree

end Hypermedia
