import Hypermedia.Text.Margin
import Hypermedia.Proofs.Text.Words

/-! The lines of a text, of one whose margin is taken away, and of one that is given another margin. -/
namespace Hypermedia.Text

variable {c sep : Char} {s t l lead m : List Char} {ls : List (List Char)}

section lines

theorem dropReturn_subset : dropReturn l ⊆ l := by
  unfold dropReturn
  split
  · exact List.dropLast_subset l
  · exact List.Subset.refl l

theorem dropReturn_cons (hc : c ≠ '\r') : dropReturn (c :: l) = c :: dropReturn l := by
  cases l with
  | nil => simp [dropReturn, hc]
  | cons d l =>
    unfold dropReturn
    rw [List.getLast?_cons_cons, List.dropLast_cons_cons]
    split <;> rfl

theorem dropReturn_concat (hc : c ≠ '\r') : dropReturn (l ++ [c]) = l ++ [c] := by
  simp [dropReturn, hc]

theorem exists_of_mem_lines (h : l ∈ lines s) :
    ∃ piece ∈ cut (· == '\n') s, l = piece ∨ l = dropReturn piece := by
  rcases List.mem_append.mp h with h | h
  · obtain ⟨piece, hpiece, rfl⟩ := List.mem_map.mp h
    exact ⟨piece, List.dropLast_subset _ hpiece, .inr rfl⟩
  · have hlast := Option.mem_toList.mp (List.mem_filter.mp h).1
    exact ⟨l, List.mem_of_getLast? hlast, .inl rfl⟩

theorem subset_of_mem_lines (h : l ∈ lines s) : l ⊆ s := by
  obtain ⟨piece, hpiece, rfl | rfl⟩ := exists_of_mem_lines h
  · exact subset_of_mem_cut hpiece
  · exact List.Subset.trans dropReturn_subset (subset_of_mem_cut hpiece)

theorem not_of_mem_lines (h : l ∈ lines s) : ∀ c ∈ l, c ≠ '\n' := by
  obtain ⟨piece, hpiece, hl⟩ := exists_of_mem_lines h
  have hplain : ∀ c ∈ piece, c ≠ '\n' := fun c hc => by simpa using not_of_mem_cut hpiece c hc
  rcases hl with rfl | rfl
  · exact hplain
  · exact fun c hc => hplain c (dropReturn_subset hc)

theorem lines_append_cons (hs : ∀ c ∈ s, c ≠ '\n') :
    lines (s ++ '\n' :: t) = dropReturn s :: lines t := by
  have hcut : cut (· == '\n') (s ++ '\n' :: t) = s :: cut (· == '\n') t := by
    rw [cut_append_cons (by rfl), cut_of_forall_not fun c hc => by simpa using hs c hc]
    rfl
  obtain ⟨piece, pieces, ht⟩ := List.exists_cons_of_ne_nil (cut_ne_nil (· == '\n') t)
  simp only [lines, hcut, ht, List.dropLast_cons_cons, List.getLast?_cons_cons, List.map_cons,
    List.cons_append]

end lines

section join

theorem mem_join (h : c ∈ join [sep] ls) : c = sep ∨ ∃ l ∈ ls, c ∈ l := by
  induction ls with
  | nil => cases h
  | cons l ls ih =>
    cases ls with
    | nil =>
      rw [join, List.intercalate_singleton] at h
      exact .inr ⟨l, List.mem_cons_self, h⟩
    | cons m ls =>
      rw [join, List.intercalate_cons_cons, List.append_assoc] at h
      rcases List.mem_append.mp h with h | h
      · exact .inr ⟨l, List.mem_cons_self, h⟩
      · rcases List.mem_cons.mp h with rfl | h
        · exact .inl rfl
        · exact (ih h).imp_right fun ⟨l, hl, hc⟩ => ⟨l, List.mem_cons_of_mem _ hl, hc⟩

theorem join_eq_nil_iff (hls : ∀ l ∈ ls, l ≠ []) : join m ls = [] ↔ ls = [] := by
  constructor
  · intro hjoin
    cases ls with
    | nil => rfl
    | cons first ls =>
      have hfirst := hls first List.mem_cons_self
      cases ls with
      | nil => exact absurd (by simpa [join] using hjoin) hfirst
      | cons next ls =>
        rw [join, List.intercalate_cons_cons, List.append_assoc] at hjoin
        exact absurd (List.append_eq_nil_iff.mp hjoin).1 hfirst
  · rintro rfl
    rfl

theorem cut_join (hne : ls ≠ []) (hls : ∀ l ∈ ls, ∀ c ∈ l, c ≠ '\n') : cut (· == '\n') (join ['\n'] ls) = ls := by
  induction ls with
  | nil => exact absurd rfl hne
  | cons first ls ih =>
    obtain ⟨hfirst, hls⟩ := List.forall_mem_cons.mp hls
    have hwhole : cut (· == '\n') first = [first] :=
      cut_of_forall_not fun c hc => by simpa using hfirst c hc
    cases ls with
    | nil => rw [join, List.intercalate_singleton, hwhole]
    | cons m ls =>
      rw [join, List.intercalate_cons_cons, List.append_assoc, List.singleton_append,
        cut_append_cons (by rfl), hwhole]
      exact congrArg (first :: ·) (ih (List.cons_ne_nil m ls) hls)

theorem mem_cut_join (hls : ∀ l ∈ ls, ∀ c ∈ l, c ≠ '\n')
    (h : l ∈ cut (· == '\n') (join ['\n'] ls)) : l = [] ∨ l ∈ ls := by
  cases ls with
  | nil => exact .inl (List.mem_singleton.mp h)
  | cons first ls => exact .inr (cut_join (List.cons_ne_nil first ls) hls ▸ h)

end join

section margins

theorem dropMargin_subset : dropMargin m l ⊆ l := by
  unfold dropMargin
  split
  · exact List.nil_subset l
  · cases h : m.isPrefixOf? l with
    | none => exact List.Subset.refl l
    | some rest =>
      rw [← List.isPrefixOf?_eq_some_iff_append_eq.mp h]
      exact List.subset_append_right m rest

theorem mem_of_mem_dedent (h : c ∈ dedent s) : c = '\n' ∨ c ∈ s := by
  refine (mem_join h).imp_right fun ⟨l, hl, hc⟩ => ?_
  obtain ⟨line, hline, rfl⟩ := List.mem_map.mp hl
  exact subset_of_mem_lines hline (dropMargin_subset hc)

/-- The lines of an indented text are empty or start with the indentation. -/
theorem of_mem_lines_indent (hlead : ∀ c ∈ lead, c ≠ '\n') (h : l ∈ lines (indent s lead)) :
    l = [] ∨ ∃ rest, l = lead ++ rest ∧ rest ⊆ s := by
  obtain ⟨piece, hpiece, hl⟩ := exists_of_mem_lines h
  have hplain : ∀ l ∈ (lines s).map fun l => if allBlank l then [] else lead ++ l,
      ∀ c ∈ l, c ≠ '\n' := by
    intro l hl c hc
    obtain ⟨line, hline, rfl⟩ := List.mem_map.mp hl
    split at hc
    · cases hc
    · exact (List.mem_append.mp hc).elim (hlead c) (not_of_mem_lines hline c)
  rcases mem_cut_join hplain hpiece with rfl | hpiece
  · exact .inl (hl.elim id id)
  obtain ⟨line, hline, rfl⟩ := List.mem_map.mp hpiece
  split at hl
  · exact .inl (hl.elim id id)
  · next hblank =>
    have hne : line ≠ [] := by
      rintro rfl
      exact hblank rfl
    refine .inr (hl.elim (fun h => ⟨line, h, subset_of_mem_lines hline⟩) fun h => ?_)
    unfold dropReturn at h
    split at h
    · rw [List.dropLast_append_of_ne_nil hne] at h
      exact ⟨_, h, List.Subset.trans (List.dropLast_subset line) (subset_of_mem_lines hline)⟩
    · exact ⟨line, h, subset_of_mem_lines hline⟩

end margins

end Hypermedia.Text
