import Hypermedia.Widget.Match
import Hypermedia.Proofs.Text.Words
import Hypermedia.Proofs.Tree.Forest

/-! What selectors match: compounds that say more than others, and parts that are satisfied on the way up. -/
namespace Hypermedia

namespace Compound

variable {c d : Compound} {s t : List Char}

/-- Text that starts with a mark adds its pieces to those of the text before it. -/
theorem pieces_append (h : (pieces t).1 = []) :
    pieces (s ++ t) = ((pieces s).1, (pieces s).2 ++ (pieces t).2) := by
  induction s with
  | nil => exact Prod.ext h rfl
  | cons c s ih =>
    rw [List.cons_append, pieces, pieces, ih]
    dsimp only
    split <;> rfl

theorem of_addPiece {piece : Char × List Char} (h : addPiece c piece = some d) :
    d.kind = c.kind ∧ c.groups ⊆ d.groups := by
  unfold addPiece at h
  split at h
  · cases h
  · cases h
    exact ⟨rfl, List.Subset.refl _⟩
  · cases h
    exact ⟨rfl, List.subset_append_left _ _⟩
  · cases h
    exact ⟨rfl, List.Subset.refl _⟩
  · obtain ⟨n, -, rfl⟩ := Option.map_eq_some_iff.mp h
    exact ⟨rfl, List.Subset.refl _⟩

/-- Marked pieces leave the kind alone and take no group away. -/
theorem of_foldlM_addPiece {marked : List (Char × List Char)} (h : marked.foldlM addPiece c = some d) :
    d.kind = c.kind ∧ c.groups ⊆ d.groups := by
  induction marked generalizing c with
  | nil =>
    cases h
    exact ⟨rfl, List.Subset.refl _⟩
  | cons piece marked ih =>
    rw [List.foldlM_cons] at h
    obtain ⟨next, hnext, hrest⟩ := Option.bind_eq_some_iff.mp h
    obtain ⟨hkind, hgroups⟩ := of_addPiece hnext
    obtain ⟨hkind', hgroups'⟩ := ih hrest
    exact ⟨hkind'.trans hkind, List.Subset.trans hgroups hgroups'⟩

theorem of_parse?_append (ht : (pieces t).1 = []) (hc : parse? s = some c)
    (hd : parse? (s ++ t) = some d) : d.kind = c.kind ∧ c.groups ⊆ d.groups := by
  unfold parse? at hc hd
  rw [pieces_append ht] at hd
  dsimp only at hd
  rw [List.foldlM_append] at hd
  obtain ⟨next, hnext, hrest⟩ := Option.bind_eq_some_iff.mp hd
  obtain rfl : next = c := Option.some.inj (hnext.symm.trans hc)
  exact of_foldlM_addPiece hrest

/-- A compound describes a widget by its own fields; the case of letters does not count in a kind. -/
structure Describes (c : Compound) (id : WidgetId) (w : Widget) : Prop where
  kind : ∀ kind ∈ c.kind, kind.toList.map Char.toLower = w.kind.name.toList.map Char.toLower
  eid : ∀ eid ∈ c.eid, w.eid = some eid
  identity : ∀ n ∈ c.identity, id.index = n
  groups : c.groups ⊆ w.groups

/-- The widget is there, and the compound describes it. -/
def Fits (c : Compound) (t : Tree) (id : WidgetId) : Prop :=
  ∃ w, t.get? id = some w ∧ c.Describes id w

theorem matches_iff {t : Tree} {id : WidgetId} : c.matches t id = true ↔ c.Fits t id := by
  unfold Compound.matches Fits
  cases t.get? id with
  | none => simp
  | some w =>
    have hoption {α : Type} (o : Option α) (p : α → Bool) : o.all p = true ↔ ∀ a ∈ o, p a = true := by
      cases o <;> simp
    simp only [Bool.and_eq_true, hoption, List.all_eq_true, Text.sameLetters, beq_iff_eq, List.contains_iff_mem,
      Option.some.injEq, exists_eq_left']
    exact ⟨fun ⟨⟨⟨hkind, heid⟩, hidentity⟩, hgroups⟩ => ⟨hkind, heid, hidentity, hgroups⟩,
      fun h => ⟨⟨⟨h.kind, h.eid⟩, h.identity⟩, h.groups⟩⟩

/-- What a compound must keep of another to match no other widgets. -/
structure Narrows (c d : Compound) : Prop where
  kind : d.kind = c.kind
  groups : c.groups ⊆ d.groups
  eid : c.eid.isSome = true → d.eid = c.eid
  identity : c.identity.isSome = true → d.identity = c.identity

theorem Narrows.matches {tree : Tree} {id : WidgetId} (h : Narrows c d)
    (hd : d.matches tree id = true) : c.matches tree id = true := by
  obtain ⟨w, hw, hdescribes⟩ := matches_iff.mp hd
  refine matches_iff.mpr ⟨w, hw, h.kind ▸ hdescribes.kind, fun eid heid => ?_, fun n hn => ?_,
    List.Subset.trans h.groups hdescribes.groups⟩
  · have hkept : d.eid = some eid := (h.eid (by rw [heid]; rfl)).trans heid
    exact hdescribes.eid eid hkept
  · have hkept : d.identity = some n := (h.identity (by rw [hn]; rfl)).trans hn
    exact hdescribes.identity n hkept

end Compound

namespace Tree

variable {t : Tree} {a : WidgetId} {rest : List WidgetId}

theorem chain_isPrefix {m n : Nat} (h : m ≤ n) (o : Option WidgetId) : t.chain m o <+: t.chain n o := by
  induction m generalizing n o with
  | zero => exact List.nil_prefix
  | succ m ih =>
    obtain ⟨n, rfl⟩ : ∃ k, n = k + 1 := ⟨n - 1, by omega⟩
    cases o with
    | none => exact List.prefix_refl _
    | some id => exact List.cons_prefix_cons.mpr ⟨rfl, ih (Nat.le_of_succ_le_succ h) _⟩

/-- A chain goes on from each of its widgets as the chain of that widget does. -/
theorem exists_of_isSuffix_chain {n : Nat} {o : Option WidgetId} (h : a :: rest <:+ t.chain n o) :
    ∃ m ≤ n, rest = t.chain m (t.parent? a) := by
  induction n generalizing o with
  | zero => simp [chain] at h
  | succ n ih =>
    cases o with
    | none => simp [chain] at h
    | some id =>
      rw [chain, List.suffix_cons_iff] at h
      rcases h with h | h
      · obtain ⟨rfl, rfl⟩ := List.cons_eq_cons.mp h
        exact ⟨n, Nat.le_succ n, rfl⟩
      · obtain ⟨m, hm, hrest⟩ := ih h
        exact ⟨m, Nat.le_succ_of_le hm, hrest⟩

theorem isPrefix_ancestors {x : WidgetId} (h : a :: rest <:+ t.ancestors x) : rest <+: t.ancestors a := by
  obtain ⟨m, hm, rfl⟩ := exists_of_isSuffix_chain h
  exact chain_isPrefix hm _

end Tree

namespace Selector

variable {t : Tree} {id : WidgetId} {ids more : List WidgetId} {part : Compound} {parts above : List Compound}

/-- The walk upward takes the first widget that fits, and succeeds if any choice of widgets on the way does. -/
theorem ascend_iff : ascend t parts ids = true ↔
    ∃ chosen, chosen.Sublist ids ∧ List.Forall₂ (fun part id => part.Fits t id) parts chosen := by
  induction ids generalizing parts with
  | nil =>
    cases parts with
    | nil => simp [ascend]
    | cons part parts =>
      refine ⟨nofun, ?_⟩
      rintro ⟨chosen, hchosen, hfits⟩
      rw [List.sublist_nil.mp hchosen] at hfits
      cases hfits
  | cons id ids ih =>
    cases parts with
    | nil => simp [ascend]
    | cons part parts =>
      rw [ascend]
      split
      · next hpart =>
        -- a choice that leaves out this widget can do with fewer
        rw [ih]
        constructor
        · rintro ⟨chosen, hchosen, hfits⟩
          exact ⟨id :: chosen, hchosen.cons_cons id, .cons (Compound.matches_iff.mp hpart) hfits⟩
        · rintro ⟨chosen, hchosen, hfits⟩
          cases hfits with
          | @cons _ a _ rest _ hrest => exact ⟨rest, List.Sublist.of_cons_cons hchosen, hrest⟩
      · next hpart =>
        rw [ih]
        constructor
        · rintro ⟨chosen, hchosen, hfits⟩
          exact ⟨chosen, hchosen.cons id, hfits⟩
        · rintro ⟨chosen, hchosen, hfits⟩
          cases hchosen with
          | cons _ hchosen => exact ⟨chosen, hchosen, hfits⟩
          | cons_cons _ hchosen =>
            cases hfits with
            | cons hid _ => exact absurd (Compound.matches_iff.mpr hid) hpart

theorem ascend_of_isPrefix (h : ids <+: more) (hi : ascend t parts ids = true) :
    ascend t parts more = true := by
  obtain ⟨chosen, hchosen, hfits⟩ := ascend_iff.mp hi
  exact ascend_iff.mpr ⟨chosen, hchosen.trans h.sublist, hfits⟩

/-- Parts that are satisfied on the way up leave the rest of the way to those above them. -/
theorem ascend_append (h : ascend t (parts ++ above) ids = true) :
    ∃ rest, rest <:+ ids ∧ ascend t above rest = true := by
  induction ids generalizing parts with
  | nil =>
    cases parts with
    | nil => exact ⟨[], List.suffix_refl _, h⟩
    | cons part parts => cases h
  | cons id ids ih =>
    cases parts with
    | nil => exact ⟨id :: ids, List.suffix_refl _, h⟩
    | cons part parts =>
      rw [List.cons_append, ascend] at h
      have hrest : ∃ rest, rest <:+ ids ∧ ascend t above rest = true := by
        split at h
        · exact ih h
        · rw [← List.cons_append] at h
          exact ih h
      exact hrest.imp fun rest h => ⟨h.1.trans (List.suffix_cons id ids), h.2⟩

theorem ascend_cons (h : ascend t (part :: parts) ids = true) :
    ∃ a rest, a :: rest <:+ ids ∧ part.matches t a = true ∧ ascend t parts rest = true := by
  induction ids with
  | nil => cases h
  | cons id ids ih =>
    rw [ascend] at h
    split at h
    · next hpart => exact ⟨id, ids, List.suffix_refl _, hpart, h⟩
    · obtain ⟨a, rest, hrest, ha⟩ := ih h
      exact ⟨a, rest, hrest.trans (List.suffix_cons id ids), ha⟩

/-- A selector matches below, or at, a widget that satisfies one of its parts, with the parts above this one
satisfied by ancestors of that widget. -/
theorem exists_of_matches {s : Selector} {own : Compound} {below : List Compound}
    (hparts : s.parts = above ++ own :: below) (h : s.matches t id = true) :
    ∃ a, t.Within id a ∧ own.matches t a = true ∧ ascend t above.reverse (t.ancestors a) = true := by
  obtain ⟨hsubject, habove⟩ := Bool.and_eq_true_iff.mp h
  obtain rfl | ⟨inner, last, rfl⟩ := List.eq_nil_or_concat below
  · obtain ⟨rfl, hown⟩ := List.append_inj' hparts rfl
    rw [List.singleton_inj.mp hown] at hsubject
    exact ⟨id, Relation.ReflTransGen.refl, hsubject, habove⟩
  · rw [List.concat_eq_append, ← List.cons_append, ← List.append_assoc] at hparts
    obtain ⟨hinner, -⟩ := List.append_inj' hparts rfl
    rw [hinner, List.reverse_append, List.reverse_cons, List.append_assoc] at habove
    obtain ⟨way, hway, hup⟩ := ascend_append habove
    obtain ⟨a, rest, ha, hown, hrest⟩ := ascend_cons hup
    have hsuffix := ha.trans hway
    have hbelow := Tree.below_of_mem_chain (hsuffix.subset List.mem_cons_self)
    exact ⟨a, hbelow.within, hown, ascend_of_isPrefix (Tree.isPrefix_ancestors hsuffix) hrest⟩

theorem contains_of_matches {s : Selector} (h : s.matches t id = true) : t.contains id = true := by
  obtain ⟨w, hw, -⟩ := Compound.matches_iff.mp (Bool.and_eq_true_iff.mp h).1
  exact Tree.contains_iff.mpr ⟨w, hw⟩

theorem mapM_of_parse {text : String} {s : Selector} (h : parse text = .ok s) :
    (Text.words text.toList).mapM Compound.parse? = some s.parts := by
  unfold parse at h
  split at h
  · cases h
  · next compounds hcompounds =>
    split at h
    · cases h
    · next subject hsubject =>
      cases h
      rw [hcompounds, parts, List.dropLast_append_getLast?]
      exact hsubject

end Selector

end Hypermedia
