import Hypermedia.Proofs.Style.Blocks
import Hypermedia.Proofs.Text.Margins
import Mathlib.Data.List.GetD

/-! Lines that differ in how far to the right they stand, and in nothing else that is read of them: the lines of a text
and of the same text with other margins. -/
namespace Hypermedia.Style

/-- Lines with the same text between the blanks around it, `k` bytes farther to the right in the second one. Blank
lines are shifted by any distance. -/
structure Shifted (k : Int) (l m : List Char) : Prop where
  trim : Text.trim m = Text.trim l
  depth : Text.allBlank l = false → (depthOf m : Int) = depthOf l + k

/-- The line that has `n` others before it; past the end, an empty one. -/
def lineAt (ls : List (List Char)) (n : Nat) : List Char :=
  ls.getD n []

/-- Line by line, the same texts shifted by one distance. -/
def ShiftedAll (k : Int) (ls ms : List (List Char)) : Prop :=
  ∀ n, Shifted k (lineAt ls n) (lineAt ms n)

variable {k k' : Int} {l m p s lead : List Char} {ls ms ps : List (List Char)}

section shifted

theorem allBlank_iff_trim : Text.allBlank l = true ↔ Text.trim l = [] := by
  rw [Text.trim_eq_nil_iff]
  exact List.all_eq_true

theorem Shifted.allBlank (h : Shifted k l m) : Text.allBlank m = Text.allBlank l := by
  rw [Bool.eq_iff_iff, allBlank_iff_trim, allBlank_iff_trim, h.trim]

theorem Shifted.symm (h : Shifted k l m) : Shifted (-k) m l where
  trim := h.trim.symm
  depth hblank := by
    have hdepth := h.depth (h.allBlank ▸ hblank)
    omega

theorem Shifted.trans (h : Shifted k l m) (h' : Shifted k' m p) : Shifted (k + k') l p where
  trim := h'.trim.trans h.trim
  depth hblank := by
    have hdepth := h.depth hblank
    have hdepth' := h'.depth (h.allBlank ▸ hblank)
    omega

theorem Shifted.of_blank (hl : Text.allBlank l = true) (hm : Text.allBlank m = true) : Shifted k l m where
  trim := by rw [allBlank_iff_trim.mp hl, allBlank_iff_trim.mp hm]
  depth hblank := by simp [hl] at hblank

/-- What stands before a line shifts it by as many bytes. -/
theorem Shifted.of_append (hs : Text.allBlank s = true) : Shifted (Text.byteLength s) l (s ++ l) where
  trim := Text.trim_append_left hs
  depth _ := by
    have hwhile : (s ++ l).takeWhile Text.isBlank = s ++ l.takeWhile Text.isBlank :=
      List.takeWhile_append_of_pos (List.all_eq_true.mp hs)
    rw [depthOf, depthOf, hwhile, Text.byteLength_append]
    omega

theorem shifted_refl (l : List Char) : Shifted 0 l l :=
  ⟨rfl, fun _ => (Int.add_zero _).symm⟩

theorem shifted_dropReturn : Shifted 0 l (Text.dropReturn l) where
  trim := Text.trim_dropReturn
  depth hblank := by rw [depthOf, depthOf, Text.takeWhile_dropReturn hblank, Int.add_zero]

theorem ShiftedAll.symm (h : ShiftedAll k ls ms) : ShiftedAll (-k) ms ls := fun n => (h n).symm

theorem ShiftedAll.trans (h : ShiftedAll k ls ms) (h' : ShiftedAll k' ms ps) : ShiftedAll (k + k') ls ps :=
  fun n => (h n).trans (h' n)

end shifted

section texts

/-- Lines that are joined and taken apart again are where they were. -/
theorem shiftedAll_lines_join (hls : ∀ l ∈ ls, ∀ c ∈ l, c ≠ '\n') :
    ShiftedAll 0 ls (Text.lines (Text.join ['\n'] ls)) := by
  induction ls with
  | nil => exact fun n => shifted_refl []
  | cons first ls ih =>
    obtain ⟨hfirst, hls⟩ := List.forall_mem_cons.mp hls
    cases ls with
    | nil =>
      have hcut : Text.cut (· == '\n') first = [first] :=
        Text.cut_of_forall_not fun c hc => by simpa using hfirst c hc
      have hlines : ∀ n, lineAt (Text.lines first) n = lineAt [first] n := by
        intro n
        cases first with
        | nil => cases n <;> rfl
        | cons c first => simp [Text.lines, hcut]
      intro n
      rw [Text.join, List.intercalate_singleton, hlines]
      exact shifted_refl _
    | cons second ls =>
      rw [Text.join, List.intercalate_cons_cons, List.append_assoc, List.singleton_append,
        Text.lines_append_cons hfirst]
      intro n
      cases n with
      | zero => exact shifted_dropReturn
      | succ n => exact ih hls n

/-- Lines that are changed one by one, and then joined and taken apart again. -/
theorem shiftedAll_lines_map {f : List Char → List Char} (hnil : f [] = [])
    (hf : ∀ l ∈ ls, Shifted k l (f l) ∧ ∀ c ∈ f l, c ≠ '\n') :
    ShiftedAll k ls (Text.lines (Text.join ['\n'] (ls.map f))) := by
  have hmap : ShiftedAll k ls (ls.map f) := by
    intro n
    have hat : lineAt (ls.map f) n = f (lineAt ls n) := by
      rw [lineAt, lineAt, ← hnil, List.getD_map, hnil]
    rw [hat]
    by_cases hn : n < ls.length
    · have hline : lineAt ls n = ls[n] := List.getD_eq_getElem _ _ hn
      rw [hline]
      exact (hf _ (List.getElem_mem hn)).1
    · have hline : lineAt ls n = [] := List.getD_eq_default _ _ (Nat.not_lt.mp hn)
      rw [hline, hnil]
      exact .of_blank rfl rfl
  have hjoin : ShiftedAll 0 (ls.map f) (Text.lines (Text.join ['\n'] (ls.map f))) := by
    refine shiftedAll_lines_join fun l hl => ?_
    obtain ⟨line, hline, rfl⟩ := List.mem_map.mp hl
    exact (hf line hline).2
  simpa using hmap.trans hjoin

/-- A text without its margin has every line where it was, as far to the left as the margin is wide. -/
theorem shiftedAll_dedent (s : List Char) : ShiftedAll (-Text.byteLength (Text.margin (Text.lines s)))
    (Text.lines s) (Text.lines (Text.dedent s)) := by
  refine shiftedAll_lines_map rfl fun l hl => ⟨?_, fun c hc =>
    Text.not_of_mem_lines hl c (Text.dropMargin_subset hc)⟩
  cases hblank : Text.allBlank l with
  | true =>
    refine .of_blank hblank ?_
    rw [Text.dropMargin, if_pos hblank]
    rfl
  | false =>
    obtain ⟨hsplit, hmargin⟩ := Text.exists_dropMargin hl hblank
    have hshifted : Shifted (Text.byteLength (Text.margin (Text.lines s)))
        (Text.dropMargin (Text.margin (Text.lines s)) l) l := by
      conv => rhs; rw [hsplit]
      exact .of_append hmargin
    exact hshifted.symm

theorem shiftedAll_indent (hlead : Text.allBlank lead = true) (hfeed : ∀ c ∈ lead, c ≠ '\n') (s : List Char) :
    ShiftedAll (Text.byteLength lead) (Text.lines s) (Text.lines (Text.indent s lead)) := by
  refine shiftedAll_lines_map rfl fun l hl => ?_
  cases hblank : Text.allBlank l with
  | true => exact ⟨.of_blank hblank rfl, by simp⟩
  | false =>
    refine ⟨.of_append hlead, fun c hc => ?_⟩
    exact (List.mem_append.mp hc).elim (hfeed c) (Text.not_of_mem_lines hl c)

end texts

end Hypermedia.Style
