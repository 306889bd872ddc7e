import Hypermedia.Proofs.Style.Blocks
import Hypermedia.Proofs.Tree.Matches

/-! Isolation of styles: what the rules of a widget's own block apply to. -/
namespace Hypermedia

/-- The part of a selector in the place of the subject of another names the eid and the index that the
subject names. -/
def Selector.KeepsName (s query : Selector) : Prop :=
  ∀ own, s.parts[query.above.length]? = some own →
    (query.subject.eid.isSome = true → own.eid = query.subject.eid) ∧
      (query.subject.identity.isSome = true → own.identity = query.subject.identity)

namespace Style

variable {scope text : String} {query s : Selector}

theorem mapM_append_cons {α β : Type} {f : α → Option β} {before after : List α} {a : α} {bs : List β}
    (h : (before ++ a :: after).mapM f = some bs) :
    ∃ above own below, bs = above ++ own :: below ∧ before.mapM f = some above ∧ f a = some own ∧
      after.mapM f = some below := by
  rw [List.mapM_append] at h
  obtain ⟨above, habove, h⟩ := Option.bind_eq_some_iff.mp h
  obtain ⟨rest, hrest, h⟩ := Option.bind_eq_some_iff.mp h
  rw [List.mapM_cons] at hrest
  obtain ⟨own, hown, hrest⟩ := Option.bind_eq_some_iff.mp hrest
  obtain ⟨below, hbelow, hrest⟩ := Option.bind_eq_some_iff.mp hrest
  cases hrest
  cases h
  exact ⟨above, own, below, rfl, habove, hown, hbelow⟩

theorem pieces_of_attaches {more rest : List Char} (hmore : more <+: rest)
    (hrest : ∀ c ∈ rest.head?, Attaches c) (hcolon : ¬ [':'] <+: rest)
    (hsolid : ∀ c ∈ more, Text.isBlank c = false) : (Compound.pieces more).1 = [] := by
  obtain ⟨rest, rfl⟩ := hmore
  cases more with
  | nil => rfl
  | cons c more =>
    have hattaches := hrest c rfl
    have hblank := hsolid c List.mem_cons_self
    have hmarker : Compound.isMarker c = true := by
      rcases hattaches with rfl | rfl | rfl | rfl | rfl | rfl
      · rfl
      · rfl
      · rfl
      · rfl
      · exact absurd (List.cons_prefix_cons.mpr ⟨rfl, List.nil_prefix⟩) hcolon
      · cases hblank
    rw [Compound.pieces, hmarker]
    rfl

/-- A selector that goes on from another has the parts of that one, with more groups in the last, and perhaps
parts below. -/
theorem exists_parts (hquery : Selector.parse scope = .ok query) (hs : Selector.parse text = .ok s)
    (hextends : Extends scope.toList text.toList) (hcolon : ¬ scope.toList ++ [':'] <+: text.toList) :
    ∃ own below, s.parts = query.above ++ own :: below ∧ own.kind = query.subject.kind ∧
      query.subject.groups ⊆ own.groups := by
  obtain ⟨rest, htext, hrest⟩ := hextends
  have hscope := Selector.mapM_of_parse hquery
  have hparts := Selector.mapM_of_parse hs
  obtain hwords | ⟨before, w, hwords⟩ := List.eq_nil_or_concat (Text.words scope.toList)
  · rw [hwords] at hscope
    exact absurd (Option.some.inj hscope).symm (List.append_ne_nil_of_right_ne_nil _ (List.cons_ne_nil _ _))
  rw [List.concat_eq_append] at hwords
  rw [hwords] at hscope
  obtain ⟨above, subject, below, heq, habove, hsubject, hbelow⟩ := mapM_append_cons hscope
  cases hbelow
  obtain ⟨rfl, hsame⟩ := List.append_inj' heq rfl
  obtain ⟨more, after, hjoined, hmore, hsolid⟩ := Text.exists_words_append hwords rest
  rw [htext, hjoined] at hparts
  obtain ⟨above', own, below, hown, habove', hpart, -⟩ := mapM_append_cons hparts
  obtain rfl : above' = query.above := Option.some.inj (habove'.symm.trans habove)
  have hmark : (Compound.pieces more).1 = [] := by
    refine pieces_of_attaches hmore hrest (fun h => hcolon ?_) hsolid
    rw [htext]
    exact (List.prefix_append_right_inj _).mpr h
  rw [List.singleton_inj.mp hsame]
  exact ⟨own, below, hown, Compound.of_parse?_append hmark hsubject hpart⟩

/-- The rules that come of a widget's own block apply to the widget and to what is below it, unless a nested
key goes on with another eid or index of the widget, or with a colon. -/
theorem within_of_matches {t : Tree} {w : WidgetId} {rules : RuleMap} {entry : String × Properties}
    {id : WidgetId} (hquery : Selector.parse (t.query w) = .ok query)
    (honly : ∀ id, query.matches t id = true → id = w)
    (hwhole : '\'' ∉ (t.query w).toList ∨ '\n' ∉ (t.query w).toList) (htext : '&' ∉ text.toList)
    (hrules : compileRules text (some (t.query w)) = .ok rules) (hentry : entry ∈ rules.entries)
    (hs : Selector.parse entry.1 = .ok s) (hcolon : ¬ (t.query w).toList ++ [':'] <+: entry.1.toList)
    (hname : s.KeepsName query) (hid : s.matches t id = true) :
    t.Within id w ∧ (t.Forest → id ∈ t.descendants w) := by
  have hextends := extends_of_compileRules htext hwhole hrules entry hentry
  obtain ⟨own, below, hparts, hkind, hgroups⟩ := exists_parts hquery hs hextends hcolon
  obtain ⟨heid, hidentity⟩ := hname own (by rw [hparts]; simp)
  have hnarrows : Compound.Narrows query.subject own := ⟨hkind, hgroups, heid, hidentity⟩
  obtain ⟨a, hwithin, hown, habove⟩ := Selector.exists_of_matches hparts hid
  have hmatches : query.matches t a = true :=
    Bool.and_eq_true_iff.mpr ⟨hnarrows.matches hown, habove⟩
  obtain rfl := honly a hmatches
  refine ⟨hwithin, fun hforest => hforest.mem_descendants_iff.mpr ⟨?_, hwithin⟩⟩
  exact Selector.contains_of_matches hid

/-- A tower with two towers in it, and a text in the first of these. -/
def twins : Tree where
  slots := #[some { kind := .tower, children := [⟨1⟩, ⟨2⟩] },
    some { kind := .tower, eid := some "a", groups := ["on"], parent := some ⟨0⟩, children := [⟨3⟩] },
    some { kind := .tower, eid := some "b", parent := some ⟨0⟩ },
    some { kind := .text, parent := some ⟨1⟩ }]
  root := some ⟨0⟩

/-- The selector of the first of the twins. -/
def firstTwin : Selector :=
  { source := "Tower#a", above := [], subject := { kind := some "Tower", eid := some "a" } }

theorem matches_firstTwin {id : WidgetId} : firstTwin.matches twins id = true ↔ id = ⟨1⟩ := by
  match id with
  | ⟨0⟩ => decide
  | ⟨1⟩ => decide
  | ⟨2⟩ => decide
  | ⟨3⟩ => decide
  | ⟨n + 4⟩ =>
    have hnone : twins.get? ⟨n + 4⟩ = none := by simp [Tree.get?, twins]
    simp [Selector.matches, Compound.matches, hnone]

/-- A key that names another eid takes a rule from the widget whose block it stands in to another widget. -/
theorem not_within_twins :
    ¬ ∀ (t : Tree) (w : WidgetId) (query : Selector) (text : String) (rules : RuleMap),
      t.contains w = true → Selector.parse (t.query w) = .ok query →
      (∀ id, query.matches t id = true ↔ id = w) → '&' ∉ text.toList →
      compileRules text (some (t.query w)) = .ok rules → ∀ entry ∈ rules.entries, ∀ s,
        Selector.parse entry.1 = .ok s → ∀ id, s.matches t id = true → t.Within id w := by
  intro h
  have hrules : compileRules "#b:\n  gap: x" (some (twins.query ⟨1⟩)) =
      .ok ⟨[("Tower#a#b", Dict.ofList [("gap", .str "x")])]⟩ := by rfl
  have hother : Selector.parse "Tower#a#b" =
      .ok { source := "Tower#a#b", above := [], subject := { kind := some "Tower", eid := some "b" } } := by
    decide
  have hwithin : twins.Within ⟨2⟩ ⟨1⟩ := by
    refine h twins ⟨1⟩ firstTwin "#b:\n  gap: x" _ rfl ?_ (fun _ => matches_firstTwin) (by decide) hrules _
      List.mem_cons_self _ hother ⟨2⟩ (by decide)
    decide
  obtain heq | hbelow := Tree.within_iff.mp hwithin
  · cases heq
  · obtain ⟨p, hp, hbelow⟩ := Tree.below_iff.mp hbelow
    obtain rfl : ⟨0⟩ = p := Option.some.inj hp
    obtain heq | hbelow := Tree.within_iff.mp hbelow
    · cases heq
    · obtain ⟨p, hp, -⟩ := Tree.below_iff.mp hbelow
      cases hp

theorem within_of_matches_twins :
    compileRules ".on:\n  Text:\n    gap: x" (some (twins.query ⟨1⟩)) =
        .ok ⟨[("Tower#a.on Text", Dict.ofList [("gap", .str "x")])]⟩ ∧
      twins.Within ⟨3⟩ ⟨1⟩ ∧ (twins.Forest → ⟨3⟩ ∈ twins.descendants ⟨1⟩) := by
  have hrules : compileRules ".on:\n  Text:\n    gap: x" (some (twins.query ⟨1⟩)) =
      .ok ⟨[("Tower#a.on Text", Dict.ofList [("gap", .str "x")])]⟩ := by rfl
  have hquery : Selector.parse (twins.query ⟨1⟩) = .ok firstTwin := by decide
  have hs : Selector.parse "Tower#a.on Text" = .ok
      { source := "Tower#a.on Text"
        above := [{ kind := some "Tower", eid := some "a", groups := ["on"] }]
        subject := { kind := some "Text" } } := by decide
  refine ⟨hrules, within_of_matches hquery (fun _ => matches_firstTwin.mp) (.inl (by decide)) (by decide)
    hrules List.mem_cons_self hs (by decide) ?_ (by decide)⟩
  intro own hown
  cases hown
  exact ⟨fun _ => rfl, nofun⟩

end Style

end Hypermedia
