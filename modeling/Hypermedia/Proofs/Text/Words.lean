import Hypermedia.Text.Cut
import Mathlib.Data.List.Basic
import Mathlib.Data.List.TakeWhile

/-! The pieces and the words of a text: what they are made of, and how they fall apart where two texts
meet. -/
namespace Hypermedia.Text

variable {p : Char → Bool} {c : Char} {s t w piece : List Char}

section cut

theorem cut_append_cons (hc : p c = true) : cut p (s ++ c :: t) = cut p s ++ cut p t := by
  induction s with
  | nil => simp [cut, hc]
  | cons d s ih =>
    rw [List.cons_append, cut, cut, ih]
    split
    · rfl
    · cases hs : cut p s with
      | nil => exact absurd hs (cut_ne_nil p s)
      | cons piece pieces => rfl

theorem cut_of_forall_not (hs : ∀ c ∈ s, p c = false) : cut p s = [s] := by
  induction s with
  | nil => rfl
  | cons c s ih =>
    obtain ⟨hc, hs⟩ := List.forall_mem_cons.mp hs
    simp [cut, hc, ih hs]

theorem not_of_mem_cut (h : piece ∈ cut p s) : ∀ c ∈ piece, p c = false := by
  induction s generalizing piece with
  | nil =>
    rw [cut, List.mem_singleton] at h
    simp [h]
  | cons d s ih =>
    rw [cut] at h
    cases hd : p d with
    | true =>
      rw [if_pos hd] at h
      rcases List.mem_cons.mp h with rfl | h
      · simp
      · exact ih h
    | false =>
      rw [if_neg (by simp [hd])] at h
      cases hs : cut p s with
      | nil => exact absurd hs (cut_ne_nil p s)
      | cons first pieces =>
        rw [hs] at h ih
        rcases List.mem_cons.mp h with rfl | h
        · exact List.forall_mem_cons.mpr ⟨hd, ih List.mem_cons_self⟩
        · exact ih (List.mem_cons_of_mem _ h)

theorem subset_of_mem_cut (h : piece ∈ cut p s) : piece ⊆ s := by
  induction s generalizing piece with
  | nil =>
    rw [cut, List.mem_singleton] at h
    simp [h]
  | cons d s ih =>
    rw [cut] at h
    split at h
    · rcases List.mem_cons.mp h with rfl | h
      · simp
      · exact List.Subset.trans (ih h) (List.subset_cons_self _ _)
    · cases hs : cut p s with
      | nil => exact absurd hs (cut_ne_nil p s)
      | cons first pieces =>
        rw [hs] at h ih
        rcases List.mem_cons.mp h with rfl | h
        · exact List.cons_subset_cons _ (ih List.mem_cons_self)
        · exact List.Subset.trans (ih (List.mem_cons_of_mem _ h)) (List.subset_cons_self _ _)

/-- Where two texts meet, the last piece of one runs on into the first piece of the other. -/
theorem cut_append {before after : List (List Char)} {a b : List Char}
    (hs : cut p s = before ++ [a]) (ht : cut p t = b :: after) :
    cut p (s ++ t) = before ++ (a ++ b) :: after := by
  induction s generalizing before a with
  | nil =>
    have hnil : before ++ [a] = [] ++ [[]] := hs.symm
    obtain ⟨rfl, ha⟩ := List.append_inj' hnil rfl
    rw [List.singleton_inj.mp ha]
    exact ht
  | cons c s ih =>
    rw [cut] at hs
    rw [List.cons_append, cut]
    split at hs
    · next hc =>
      rw [if_pos hc]
      cases before with
      | nil => exact absurd (List.cons_eq_cons.mp hs).2 (cut_ne_nil p s)
      | cons first before =>
        obtain ⟨rfl, hrest⟩ := List.cons_eq_cons.mp hs
        rw [ih hrest]
        rfl
    · next hc =>
      rw [if_neg hc]
      split at hs
      · next hnil => exact absurd hnil (cut_ne_nil p s)
      · next piece pieces hpieces =>
        cases before with
        | nil =>
          obtain ⟨rfl, rfl⟩ := List.cons_eq_cons.mp hs
          rw [@ih [] piece hpieces]
          rfl
        | cons first before =>
          obtain ⟨rfl, rfl⟩ := List.cons_eq_cons.mp hs
          rw [@ih (piece :: before) a hpieces]
          rfl

theorem prefix_of_cut {after : List (List Char)} {b : List Char} (h : cut p s = b :: after) :
    b <+: s := by
  induction s generalizing b after with
  | nil =>
    obtain ⟨rfl, -⟩ := List.cons_eq_cons.mp h
    exact List.nil_prefix
  | cons c s ih =>
    rw [cut] at h
    split at h
    · obtain ⟨rfl, -⟩ := List.cons_eq_cons.mp h
      exact List.nil_prefix
    · split at h
      · next hnil => exact absurd hnil (cut_ne_nil p s)
      · next piece pieces hpieces =>
        obtain ⟨rfl, -⟩ := List.cons_eq_cons.mp h
        exact List.cons_prefix_cons.mpr ⟨rfl, ih hpieces⟩

theorem exists_mem_cut (hmem : c ∈ s) (hc : p c = false) : ∃ piece ∈ cut p s, c ∈ piece := by
  obtain ⟨before, after, rfl⟩ := List.append_of_mem hmem
  obtain ⟨own, last, hbefore⟩ := List.eq_nil_or_concat (cut p before) |>.resolve_left (cut_ne_nil p before)
  obtain ⟨first, rest, hafter⟩ := List.exists_cons_of_ne_nil (cut_ne_nil p after)
  rw [List.concat_eq_append] at hbefore
  have hcons : cut p (c :: after) = (c :: first) :: rest := by simp [cut, hc, hafter]
  rw [cut_append hbefore hcons]
  exact ⟨last ++ c :: first, by simp, by simp⟩

theorem length_le_of_mem_cut (h : piece ∈ cut p s) : piece.length ≤ s.length := by
  induction s generalizing piece with
  | nil => simp_all [cut]
  | cons c s ih =>
    rw [cut] at h
    split at h
    · rcases List.mem_cons.mp h with rfl | h
      · exact Nat.zero_le _
      · exact (ih h).trans (Nat.le_succ _)
    · split at h
      · next hnil => exact absurd hnil (cut_ne_nil p s)
      · next first pieces hcut =>
        rcases List.mem_cons.mp h with rfl | h
        · exact Nat.succ_le_succ (ih (hcut ▸ List.mem_cons_self))
        · exact (ih (hcut ▸ List.mem_cons_of_mem _ h)).trans (Nat.le_succ _)

end cut

section parts

theorem trimEnd_subset : trimEnd s ⊆ s := by
  intro c hc
  have hc := (List.dropWhile_sublist _).subset (List.mem_reverse.mp hc)
  exact List.mem_reverse.mp hc

theorem trim_subset : trim s ⊆ s :=
  List.Subset.trans trimEnd_subset (List.dropWhile_sublist _).subset

theorem trimEnd_cons (hc : isBlank c = false) : trimEnd (c :: s) = c :: trimEnd s := by
  unfold trimEnd
  rw [List.reverse_cons, List.dropWhile_append]
  split
  · next hnil =>
    have hnil := List.isEmpty_iff.mp hnil
    simp [hc, hnil]
  · simp

theorem trimEnd_concat (hc : isBlank c = false) : trimEnd (s ++ [c]) = s ++ [c] := by
  simp [trimEnd, hc]

theorem subset_of_splitOnce {sep before after : List Char}
    (h : splitOnce sep s = some (before, after)) : before ⊆ s := by
  induction s generalizing before with
  | nil =>
    rw [splitOnce] at h
    split at h
    · cases h
      exact List.Subset.refl _
    · cases h
  | cons c s ih =>
    rw [splitOnce] at h
    split at h
    · cases h
      exact List.nil_subset _
    · obtain ⟨⟨first, rest⟩, hsplit, hjoined⟩ := Option.map_eq_some_iff.mp h
      cases hjoined
      exact List.cons_subset_cons c (ih hsplit)

theorem subset_of_dropEnding {ending : List Char} (h : dropEnding ending s = some t) :
    t ⊆ s := by
  obtain ⟨rest, hrest, rfl⟩ := Option.map_eq_some_iff.mp h
  intro c hc
  rw [← List.mem_reverse, ← List.isPrefixOf?_eq_some_iff_append_eq.mp hrest]
  exact List.mem_append_right _ (List.mem_reverse.mp hc)

end parts

section words

theorem mem_words (h : w ∈ words s) : w ≠ [] ∧ ∀ c ∈ w, isBlank c = false := by
  obtain ⟨hcut, hne⟩ := List.mem_filter.mp h
  exact ⟨by simpa using hne, not_of_mem_cut hcut⟩

theorem subset_of_mem_words (h : w ∈ words s) : w ⊆ s :=
  subset_of_mem_cut (List.mem_filter.mp h).1

@[simp] theorem words_nil : words [] = [] := rfl

theorem words_append_cons (hc : isBlank c = true) : words (s ++ c :: t) = words s ++ words t := by
  rw [words, cut_append_cons hc, List.filter_append, words, words]

theorem words_cons (hc : isBlank c = true) : words (c :: t) = words t :=
  words_append_cons (s := []) hc

/-- A text without blanks is one word. -/
theorem words_of_forall_not (hne : s ≠ []) (hs : ∀ c ∈ s, isBlank c = false) : words s = [s] := by
  rw [words, cut_of_forall_not hs]
  simpa using hne

theorem words_of_forall (hs : ∀ c ∈ s, isBlank c = true) : words s = [] := by
  induction s with
  | nil => rfl
  | cons c s ih =>
    obtain ⟨hc, hs⟩ := List.forall_mem_cons.mp hs
    rw [words_cons hc, ih hs]

/-- Words do not run over from a text that ends with a blank. -/
theorem words_append_of_getLast? (hs : ∀ c ∈ s.getLast?, isBlank c = true) :
    words (s ++ t) = words s ++ words t := by
  rcases List.eq_nil_or_concat s with rfl | ⟨s, c, rfl⟩
  · rfl
  · have hc : isBlank c = true := hs c (by simp)
    rw [List.concat_eq_append, List.append_assoc, List.singleton_append, words_append_cons hc,
      words_append_cons hc, words_nil, List.append_nil]

/-- Words do not run over into a text that starts with a blank. -/
theorem words_append_of_head? (ht : ∀ c ∈ t.head?, isBlank c = true) :
    words (s ++ t) = words s ++ words t := by
  cases t with
  | nil => simp
  | cons c t =>
    have hc : isBlank c = true := ht c (by simp)
    rw [words_append_cons hc, words_cons hc]

/-- Where two texts meet, the last word of one may run on into the other. -/
theorem exists_words_append {before : List (List Char)} (h : words s = before ++ [w])
    (t : List Char) :
    ∃ more after, words (s ++ t) = before ++ (w ++ more) :: after ∧ more <+: t ∧
      ∀ c ∈ more, isBlank c = false := by
  obtain hs | ⟨pieces, a, hs⟩ := List.eq_nil_or_concat (cut isBlank s)
  · exact absurd hs (cut_ne_nil _ s)
  obtain ⟨b, after, ht⟩ := List.exists_cons_of_ne_nil (cut_ne_nil isBlank t)
  rw [List.concat_eq_append] at hs
  have hwords : words (s ++ t) = pieces.filter (!·.isEmpty) ++ ((a ++ b) :: after).filter (!·.isEmpty) := by
    rw [words, cut_append hs ht, List.filter_append]
  rw [words, hs, List.filter_append] at h
  cases a with
  | nil =>
    rw [List.filter_cons_of_neg (by simp), List.filter_nil, List.append_nil] at h
    rw [h, List.append_assoc, List.singleton_append, ← List.append_nil w] at hwords
    exact ⟨[], _, hwords, List.nil_prefix, nofun⟩
  | cons c a =>
    rw [List.filter_cons_of_pos (by simp), List.filter_nil] at h
    obtain ⟨rfl, hw⟩ := List.append_inj' h rfl
    rw [List.filter_cons_of_pos (by simp)] at hwords
    refine ⟨b, _, List.singleton_inj.mp hw ▸ hwords, prefix_of_cut ht, ?_⟩
    exact not_of_mem_cut (ht ▸ List.mem_cons_self)

theorem words_append_of_forall (hs : ∀ c ∈ s, isBlank c = true) : words (s ++ t) = words t := by
  rw [words_append_of_getLast? fun c hc => hs c (List.mem_of_getLast? hc), words_of_forall hs,
    List.nil_append]

theorem words_append_forall (ht : ∀ c ∈ t, isBlank c = true) : words (s ++ t) = words s := by
  rw [words_append_of_head? fun c hc => ht c (List.mem_of_head? hc), words_of_forall ht,
    List.append_nil]

theorem words_trimStart : words (trimStart s) = words s :=
  calc words (trimStart s)
    _ = words (s.takeWhile isBlank ++ trimStart s) :=
      (words_append_of_forall fun _ => List.mem_takeWhile_imp).symm
    _ = words s := by rw [trimStart, List.takeWhile_append_dropWhile]

theorem words_trimEnd : words (trimEnd s) = words s :=
  calc words (trimEnd s)
    _ = words (trimEnd s ++ (s.reverse.takeWhile isBlank).reverse) :=
      (words_append_forall fun _ hc => List.mem_takeWhile_imp (List.mem_reverse.mp hc)).symm
    _ = words s := by
      rw [trimEnd, ← List.reverse_append, List.takeWhile_append_dropWhile, List.reverse_reverse]

/-- Blanks around a text are in none of its words. -/
@[simp] theorem words_trim : words (trim s) = words s := by
  rw [trim, words_trimEnd, words_trimStart]

theorem words_eq_nil_iff : words s = [] ↔ ∀ c ∈ s, isBlank c = true := by
  refine ⟨fun h => ?_, words_of_forall⟩
  induction s with
  | nil => simp
  | cons c s ih =>
    cases hc : isBlank c with
    | true =>
      rw [words_cons hc] at h
      exact List.forall_mem_cons.mpr ⟨hc, ih h⟩
    | false =>
      rw [words, cut, if_neg (by simp [hc])] at h
      split at h <;> simp at h

theorem trim_eq_nil_iff : trim s = [] ↔ ∀ c ∈ s, isBlank c = true := by
  constructor
  · intro h
    rw [← words_eq_nil_iff, ← words_trim, h, words_nil]
  · intro h
    have hstart : trimStart s = [] := List.dropWhile_eq_nil_iff.mpr h
    rw [trim, hstart]
    rfl

end words

section spaced

/-- Blanks within a line. -/
def Padding (s : List Char) : Prop :=
  ∀ c ∈ s, isBlank c = true ∧ c ≠ '\n'

/-- Words in a line, with blanks between any two of them and perhaps after the last. -/
inductive Spaced : List (List Char) → List Char → Prop where
  | last {word after} (padded : Padding after) : Spaced [word] (word ++ after)
  | more {word gap words rest} (padded : Padding gap) (gapped : gap ≠ [])
      (next : Spaced words rest) : Spaced (word :: words) (word ++ gap ++ rest)

/-- A word with blanks after it is the first word of the text. -/
theorem words_append_gap {gap rest : List Char} (hne : w ≠ []) (hw : ∀ c ∈ w, isBlank c = false)
    (hgap : ∀ c ∈ gap, isBlank c = true) (hgapped : gap ≠ []) : words (w ++ gap ++ rest) = w :: words rest := by
  have hends : ∀ c ∈ (w ++ gap).getLast?, isBlank c = true := by
    intro c hc
    rw [List.getLast?_append_of_ne_nil _ hgapped] at hc
    exact hgap c (List.mem_of_getLast? hc)
  rw [words_append_of_getLast? hends, words_append_forall hgap, words_of_forall_not hne hw]
  rfl

theorem words_of_spaced {ws : List (List Char)} (h : Spaced ws s)
    (hws : ∀ w ∈ ws, w ≠ [] ∧ ∀ c ∈ w, isBlank c = false) : words s = ws := by
  induction h with
  | last padded =>
    obtain ⟨⟨hne, hw⟩, -⟩ := List.forall_mem_cons.mp hws
    rw [words_append_forall fun c hc => (padded c hc).1, words_of_forall_not hne hw]
  | more padded gapped _ ih =>
    obtain ⟨⟨hne, hw⟩, hrest⟩ := List.forall_mem_cons.mp hws
    rw [words_append_gap hne hw (fun c hc => (padded c hc).1) gapped, ih hrest]

/-- The first word of a text, between blanks and a rest that starts with a blank. -/
theorem exists_of_words_eq_cons {ws : List (List Char)} (h : words s = w :: ws) :
    ∃ before rest, s = before ++ w ++ rest ∧ (∀ c ∈ before, isBlank c = true) ∧
      (∀ c ∈ rest.head?, isBlank c = true) ∧ words rest = ws := by
  induction s with
  | nil => cases h
  | cons c s ih =>
    cases hc : isBlank c with
    | true =>
      rw [words_cons hc] at h
      obtain ⟨before, rest, rfl, hbefore, hrest⟩ := ih h
      exact ⟨c :: before, rest, rfl, List.forall_mem_cons.mpr ⟨hc, hbefore⟩, hrest⟩
    | false =>
      have hsplit : c :: s = c :: s.takeWhile (!isBlank ·) ++ s.dropWhile (!isBlank ·) := by
        rw [List.cons_append, List.takeWhile_append_dropWhile]
      have hword : ∀ d ∈ c :: s.takeWhile (!isBlank ·), isBlank d = false := by
        refine List.forall_mem_cons.mpr ⟨hc, fun d hd => ?_⟩
        simpa using List.mem_takeWhile_imp hd
      have hrest : ∀ d ∈ (s.dropWhile (!isBlank ·)).head?, isBlank d = true := by
        intro d hd
        have hnot := List.head?_dropWhile_not (!isBlank ·) s
        rw [Option.mem_def.mp hd] at hnot
        simpa using hnot
      rw [hsplit, words_append_of_head? hrest, words_of_forall_not (List.cons_ne_nil _ _) hword] at h
      obtain ⟨rfl, rfl⟩ := List.cons_eq_cons.mp h
      exact ⟨[], _, hsplit, by simp, hrest, rfl⟩

/-- A line with words in it is these words with blanks between and around them. -/
theorem exists_spaced {ws : List (List Char)} (hline : ∀ c ∈ s, c ≠ '\n') (h : words s = w :: ws) :
    ∃ before body, s = before ++ body ∧ Padding before ∧ Spaced (w :: ws) body ∧
      body.head? = w.head? := by
  induction ws generalizing s w with
  | nil =>
    obtain ⟨before, rest, rfl, hbefore, -, hrest⟩ := exists_of_words_eq_cons h
    have hw := (mem_words (h ▸ List.mem_singleton_self w)).1
    refine ⟨before, w ++ rest, List.append_assoc _ _ _, fun c hc => ⟨hbefore c hc, hline c (by simp [hc])⟩,
      .last fun c hc => ⟨words_eq_nil_iff.mp hrest c hc, hline c (by simp [hc])⟩, ?_⟩
    obtain ⟨c, w, rfl⟩ := List.exists_cons_of_ne_nil hw
    rfl
  | cons v ws ih =>
    obtain ⟨before, rest, rfl, hbefore, hblank, hrest⟩ := exists_of_words_eq_cons h
    have hw := (mem_words (h ▸ List.mem_cons_self)).1
    obtain ⟨gap, body, rfl, hgap, hbody, hhead⟩ :=
      ih (fun c hc => hline c (by simp [hc])) hrest
    have hne : gap ≠ [] := by
      rintro rfl
      obtain ⟨hv, hword⟩ := mem_words (hrest ▸ List.mem_cons_self)
      obtain ⟨c, v, rfl⟩ := List.exists_cons_of_ne_nil hv
      have hc : isBlank c = true := hblank c (by rw [List.nil_append, hhead]; rfl)
      exact Bool.false_ne_true ((hword c List.mem_cons_self).symm.trans hc)
    refine ⟨before, w ++ gap ++ body, by simp only [List.append_assoc],
      fun c hc => ⟨hbefore c hc, hline c (by simp [hc])⟩, .more hgap hne hbody, ?_⟩
    obtain ⟨c, w, rfl⟩ := List.exists_cons_of_ne_nil hw
    rfl

end spaced

end Hypermedia.Text
