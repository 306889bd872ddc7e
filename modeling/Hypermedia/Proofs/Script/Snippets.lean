import Hypermedia.Script.Interpreter
import Hypermedia.Proofs.Lists
import Hypermedia.Proofs.Text.Lines
import Hypermedia.Proofs.Widget.Grammar

/-! The snippets that go with failures: which lines of a source they show, and for which line numbers they can be
computed at all. -/
namespace Hypermedia.Script

variable {sum : Nat → Nat → Option Nat} {source : List Char} {line n m first last : Nat}

section sums

theorem checkedSum_eq_some (h : n + m < wordLimit) : checkedSum n m = some (n + m) :=
  if_pos h

theorem wrappedSum_eq_some (h : n + m < wordLimit) : wrappedSum n m = some (n + m) :=
  congrArg some (Nat.mod_eq_of_lt h)

end sums

section windows

/-- The entries with the numbers from `first` to before `last`, counted from `k`, are a window. -/
theorem filter_zipIdx {α : Type} (ls : List α) (k first last : Nat) :
    (ls.zipIdx k).filter (fun entry => decide (first ≤ entry.2 ∧ entry.2 < last)) =
      ((ls.zipIdx k).take (last - k)).drop (first - k) := by
  induction ls generalizing k with
  | nil => simp
  | cons l ls ih =>
    rw [List.zipIdx_cons, List.filter_cons, ih (k + 1)]
    by_cases hlast : k < last
    · have htake : last - k = last - (k + 1) + 1 := by omega
      rw [htake, List.take_succ_cons]
      by_cases hfirst : first ≤ k
      · have hdrop : first - k = 0 := by omega
        have hdrop' : first - (k + 1) = 0 := by omega
        simp [hlast, hfirst, hdrop, hdrop']
      · have hdrop : first - k = first - (k + 1) + 1 := by omega
        simp [hfirst, hdrop]
    · have htake : last - k = 0 := by omega
      have htake' : last - (k + 1) = 0 := by omega
      simp [hlast, htake, htake']

end windows

section excerpts

/-- A line as it is shown, with its number; the failing line is marked. -/
def shownLine (line : Nat) (entry : List Char × Nat) : List Char :=
  (if entry.2 = line then ['>', ' '] else [' ', ' ']) ++ Text.trimEnd entry.1

def firstShown (line : Nat) : Nat :=
  max 1 (line - 4)

def lastShown (source : List Char) (line : Nat) : Nat :=
  min (Text.lines source).length (line + 4)

/-- The lines with the numbers from `first` to `last`, where the first line of all is number one. -/
def numberedLines (source : List Char) (first last : Nat) : List (List Char × Nat) :=
  ((Text.lines source).zipIdx 1).filter fun entry => decide (first ≤ entry.2 ∧ entry.2 ≤ last)

/-- What is to be shown of a source that failed at `line`. -/
def excerpt (source : List Char) (line : Nat) : List Char :=
  if line = 0 then []
  else Text.join ['\n'] ((numberedLines source (firstShown line) (lastShown source line)).map (shownLine line))

theorem numberedLines_eq (source : List Char) (first last : Nat) :
    numberedLines source first last =
      (((Text.lines source).zipIdx.take last).drop (first - 1)).map fun entry => (entry.1, entry.2 + 1) := by
  have hwindow := filter_zipIdx (Text.lines source) 1 first (last + 1)
  simp only [Nat.lt_succ_iff, Nat.add_sub_cancel] at hwindow
  rw [numberedLines, hwindow, List.zipIdx_succ, ← List.map_take, ← List.map_drop]

theorem numberedLines_eq_nil_iff (hfirst : 1 ≤ first) (hlast : last ≤ (Text.lines source).length) :
    numberedLines source first last = [] ↔ last < first := by
  rw [numberedLines_eq, List.map_eq_nil_iff, List.drop_eq_nil_iff, List.length_take, List.length_zipIdx]
  omega

theorem shownLine_ne_nil (entry : List Char × Nat) : shownLine line entry ≠ [] := by
  unfold shownLine
  split <;> simp

theorem excerpt_eq_nil_iff : excerpt source line = [] ↔ line = 0 ∨ lastShown source line < firstShown line := by
  unfold excerpt
  split
  · next hzero => simp [hzero]
  · next hzero =>
    have hlines : numberedLines source (firstShown line) (lastShown source line) = [] ↔
        lastShown source line < firstShown line :=
      numberedLines_eq_nil_iff (Nat.le_max_left _ _) (Nat.min_le_left _ _)
    rw [Text.join_eq_nil_iff (List.forall_mem_map.mpr fun entry _ => shownLine_ne_nil entry), List.map_eq_nil_iff, hlines]
    simp [hzero]

end excerpts

section snippets

theorem snippetLine?_eq {entry : List Char × Nat} (hnext : sum entry.2 1 = some (entry.2 + 1)) :
    snippetLine? sum line entry = some (shownLine line (entry.1, entry.2 + 1)) := by
  rw [snippetLine?, hnext]
  rfl

/-- Where no sum stops the program or wraps around, a snippet is what is to be shown. -/
theorem snippetWith_eq (hstop : sum line 4 = some (line + 4)) (hnext : ∀ n < line + 4, sum n 1 = some (n + 1)) :
    snippetWith sum source line = some (excerpt source line) := by
  unfold snippetWith excerpt
  split
  · rfl
  · next hzero =>
    have hstart : firstShown line - 1 = line - 5 := by
      unfold firstShown
      omega
    have hend : lastShown source line = min (line + 4) (Text.lines source).length := Nat.min_comm _ _
    have hnear : (((Text.lines source).zipIdx.take (lastShown source line)).drop (line - 5)).mapM
          (snippetLine? sum line) =
        some ((numberedLines source (firstShown line) (lastShown source line)).map (shownLine line)) := by
      rw [numberedLines_eq, hstart, List.map_map]
      refine mapM_of_forall_eq_some fun entry hentry => snippetLine?_eq (hnext _ ?_)
      obtain ⟨i, hi, rfl⟩ := List.mem_take_iff_getElem.mp (List.mem_of_mem_drop hentry)
      simp only [List.getElem_zipIdx]
      omega
    rw [hend] at hnear
    simp only [hstop, Option.bind_eq_bind, Option.bind_some, hnear, Option.pure_def, hend]

theorem snippetWith_checkedSum (source : List Char) (line : Nat) :
    snippetWith checkedSum source line = if line + 4 < wordLimit then some (excerpt source line) else none := by
  split
  · next hline => exact snippetWith_eq (checkedSum_eq_some hline) fun n hn => checkedSum_eq_some (by omega)
  · next hline =>
    have hzero : line ≠ 0 := by
      rintro rfl
      exact hline (by decide)
    have hstop : checkedSum line 4 = none := if_neg hline
    rw [snippetWith, if_neg hzero, hstop]
    rfl

/-- A sum that wraps around leaves nothing of any text that fits in memory. -/
theorem snippet_eq (hline : line < wordLimit) (hsource : (Text.lines source).length + 8 < wordLimit) :
    snippet source line = excerpt source line := by
  by_cases hstop : line + 4 < wordLimit
  · rw [snippet, snippetWith_eq (wrappedSum_eq_some hstop) fun n hn => wrappedSum_eq_some (by omega)]
    rfl
  · have hempty : excerpt source line = [] := by
      rw [excerpt_eq_nil_iff, lastShown, firstShown]
      omega
    have hzero : line ≠ 0 := by
      rintro rfl
      exact hstop (by decide)
    have hwrapped : (line + 4) % wordLimit ≤ line - 5 := by
      have hlimit : 8 < wordLimit := by decide
      rw [Nat.mod_eq_sub_mod (by omega), Nat.mod_eq_of_lt (by omega)]
      omega
    have hnear : ((Text.lines source).zipIdx.take (min ((line + 4) % wordLimit) (Text.lines source).length)).drop
        (line - 5) = [] := by
      rw [List.drop_eq_nil_iff, List.length_take]
      omega
    rw [hempty, snippet, snippetWith, if_neg hzero]
    simp only [wrappedSum, Option.bind_eq_bind, Option.bind_some, hnear]
    rfl

end snippets

section positions

variable {mark s t digits message : List Char} {c : Char}

theorem upTo_append (hs : c ∉ s) : upTo (c :: mark) (s ++ t) = s ++ upTo (c :: mark) t := by
  induction s with
  | nil => rfl
  | cons d s ih =>
    rw [List.mem_cons, not_or] at hs
    obtain ⟨hd, hs⟩ := hs
    have hno : (c :: mark).isPrefixOf (d :: (s ++ t)) = false := by
      rw [List.isPrefixOf, beq_false_of_ne hd, Bool.false_and]
    rw [List.cons_append, upTo, hno, ih hs]
    rfl

/-- A text that begins with a position is read as one, whatever follows. -/
theorem positioned?_eq (hne : digits ≠ []) (hdigits : ∀ c ∈ digits, c.isDigit = true)
    (hword : Decimal.valueOf digits < wordLimit) :
    positioned? ("celx:".toList ++ (digits ++ (": ".toList ++ message))) = some (Decimal.valueOf digits, message) := by
  have hprefix : "celx:".toList.isPrefixOf? ("celx:".toList ++ (digits ++ (": ".toList ++ message))) =
      some (digits ++ (": ".toList ++ message)) := List.isPrefixOf?_eq_some_iff_append_eq.mpr rfl
  have htake : (digits ++ (": ".toList ++ message)).takeWhile Char.isDigit = digits := by
    rw [List.takeWhile_append_of_pos hdigits]
    simp
  have hmark : [':', ' '].isPrefixOf? (": ".toList ++ message) = some message :=
    List.isPrefixOf?_eq_some_iff_append_eq.mpr rfl
  have hempty : digits.isEmpty = false := List.isEmpty_eq_false_iff.mpr hne
  have hvalue : ¬ Nat.pow 2 64 ≤ digits.foldl (fun n c => 10 * n + (c.toNat - 48)) 0 := Nat.not_le.mpr hword
  rw [positioned?, hprefix, Option.bind_eq_bind, Option.bind_some, htake]
  dsimp only
  rw [List.drop_left, hmark]
  simp [hempty, hvalue, Decimal.valueOf]

theorem ofText_eq (hne : digits ≠ []) (hdigits : ∀ c ∈ digits, c.isDigit = true)
    (hword : Decimal.valueOf digits < wordLimit) (message : String) :
    (Failure.ofText ("celx:" ++ String.ofList digits ++ ": " ++ message)).line = some (Decimal.valueOf digits) := by
  have hfeed : '\n' ∉ "celx:".toList ++ (digits ++ ": ".toList) := by
    intro hmem
    rcases List.mem_append.mp hmem with h | h
    · exact absurd h (by decide)
    · rcases List.mem_append.mp h with h | h
      · exact absurd (hdigits _ h) (by decide)
      · exact absurd h (by decide)
  have hcut : upTo "\nstack traceback:".toList ("celx:" ++ String.ofList digits ++ ": " ++ message).toList =
      "celx:".toList ++ (digits ++ (": ".toList ++ upTo "\nstack traceback:".toList message.toList)) := by
    have hhead : ("celx:" ++ String.ofList digits ++ ": " ++ message).toList =
        "celx:".toList ++ (digits ++ ": ".toList) ++ message.toList := by
      simp only [String.toList_append, String.toList_ofList, List.append_assoc]
    have hmark : "\nstack traceback:".toList = '\n' :: "stack traceback:".toList := by decide
    rw [hhead, hmark, upTo_append hfeed, List.append_assoc, List.append_assoc]
  rw [Failure.ofText, hcut, positioned?_eq hne hdigits hword]

theorem ofText_lineText {line : Nat} (hline : line < wordLimit) (message : String) :
    (Failure.ofText ("celx:" ++ Failure.lineText line ++ ": " ++ message)).line = some line := by
  have hvalue := Decimal.valueOf_digitsOf line
  have hne : Decimal.digitsOf line ≠ [] := Nat.toDigits_ne_nil
  have hread := ofText_eq hne (fun _ => Decimal.isDigit_of_mem_digitsOf) (hvalue.symm ▸ hline) message
  rwa [hvalue] at hread

end positions

/-- A snippet shows the lines at most four away from the failing one, as long as the number of the last of them is a
word: for the four greatest line numbers a program that checks its sums stops, and one that lets them wrap around shows
what there is to show, nothing. A script can choose a message that names any of them. -/
theorem snippet_exact_unless_overflow (source : String) {line : Nat} (hline : line < wordLimit) :
    (snippetWith checkedSum source.toList line =
        if line + 4 < wordLimit then some (excerpt source.toList line) else none) ∧
      (excerpt source.toList line = [] ↔ line = 0 ∨ lastShown source.toList line < firstShown line) ∧
      ((Text.lines source.toList).length + 8 < wordLimit →
        snippet source.toList line = excerpt source.toList line) ∧
      ∀ message handler widget : String,
        let f := Failure.ofText ("celx:" ++ Failure.lineText line ++ ": " ++ message)
        (f.withOrigin handler widget source).origin =
          some { handler, widget, snippet := String.ofList (snippet source.toList line) } := by
  refine ⟨snippetWith_checkedSum _ _, excerpt_eq_nil_iff, snippet_eq hline, fun message handler widget => ?_⟩
  dsimp only [Failure.withOrigin]
  rw [ofText_lineText hline, Option.getD_some]

theorem snippet_exact_near_end :
    3 < wordLimit ∧ (Text.lines "a = 1\nb = 2 \n\tc = nil + 1\n\n".toList).length + 8 < wordLimit ∧
      snippetWith checkedSum "a = 1\nb = 2 \n\tc = nil + 1\n\n".toList 3 =
        some "  a = 1\n  b = 2\n> \tc = nil + 1\n  ".toList ∧
      snippet "a = 1\nb = 2 \n\tc = nil + 1\n\n".toList 3 =
        excerpt "a = 1\nb = 2 \n\tc = nil + 1\n\n".toList 3 := by
  have hline : 3 < wordLimit := by decide
  have hsource : (Text.lines "a = 1\nb = 2 \n\tc = nil + 1\n\n".toList).length + 8 < wordLimit := by decide +kernel
  obtain ⟨hchecked, -, hwrapped, -⟩ := snippet_exact_unless_overflow "a = 1\nb = 2 \n\tc = nil + 1\n\n" hline
  exact ⟨hline, hsource, hchecked.trans (by decide +kernel), hwrapped hsource⟩

/-- The greatest word is read from a message, but it has no place in a snippet whose sums are checked. -/
theorem greatest_line_overflows :
    (Failure.ofText "celx:18446744073709551615: boom").line = some 18446744073709551615 ∧
      excerpt "a = 1".toList 18446744073709551615 = [] ∧
      snippetWith checkedSum "a = 1".toList 18446744073709551615 = none := by
  decide +kernel

end Hypermedia.Script
