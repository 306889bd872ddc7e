import Hypermedia.Proofs.Style.Layout
import Hypermedia.Proofs.Style.Shifted

/-! What is wrong with a rule block, line by line of its text, and the line that is reported for it. -/
namespace Hypermedia.Style

/-- A line that is read: neither blank nor a comment. -/
def Counts (l : List Char) : Prop :=
  isSkipped (Text.trim l) = false

/-- A line that opens a block: a key with nothing behind its colon. -/
def Opens (l : List Char) : Prop :=
  Counts l ∧ ∃ key, Entry.ofLine? (Text.trim l) = some ⟨key, []⟩

/-- After the first `n` lines a block of this depth is open: one of them opens it, and those behind it stand deeper. -/
def Open (ls : List (List Char)) (n depth : Nat) : Prop :=
  ∃ i < n, Opens (lineAt ls i) ∧ depthOf (lineAt ls i) = depth ∧
    ∀ j, i < j → j < n → Counts (lineAt ls j) → depth < depthOf (lineAt ls j)

/-- What is wrong with the line that has `n` others before it: it is no entry, or it gives a property where no block
around it is open. In a scope no property is outside. -/
inductive Fault (nested : Bool) (ls : List (List Char)) (n : Nat) : String → Prop where
  | unread (hcounts : Counts (lineAt ls n)) (hentry : Entry.ofLine? (Text.trim (lineAt ls n)) = none) :
      Fault nested ls n ("expected 'key: value', found '" ++ String.ofList (Text.trim (lineAt ls n)) ++ "'")
  | outside {entry : Entry} (hscope : nested = false) (hcounts : Counts (lineAt ls n))
      (hentry : Entry.ofLine? (Text.trim (lineAt ls n)) = some entry) (hvalue : entry.value ≠ [])
      (hout : ∀ depth, Open ls n depth → depthOf (lineAt ls n) ≤ depth) :
      Fault nested ls n ("property '" ++ String.ofList entry.key ++ "' outside of any selector")

/-- A line that opens a block around all of some other lines. -/
structure Heads (header : List Char) (ls : List (List Char)) : Prop where
  opens : Opens header
  depth : depthOf header = 0
  deeper : ∀ i, Counts (lineAt ls i) → 0 < depthOf (lineAt ls i)

structure FirstFault (nested : Bool) (ls : List (List Char)) (n : Nat) (message : String) : Prop where
  fault : Fault nested ls n message
  first : ∀ i < n, ∀ m, ¬ Fault nested ls i m

variable {nested : Bool} {ls ms : List (List Char)} {l header : List Char} {n i depth number : Nat} {k : Int}
  {m m' : String} {blocks : List (Nat × List Char)} {r : Reading} {e : CompileError}

section faults

theorem Fault.counts (h : Fault nested ls n m) : Counts (lineAt ls n) := by
  cases h <;> assumption

theorem not_counts_nil : ¬ Counts [] := by
  simp [Counts, Text.trim, Text.trimStart, Text.trimEnd, isSkipped]

theorem Fault.lt_length (h : Fault nested ls n m) : n < ls.length := by
  by_contra hn
  have hline : lineAt ls n = [] := List.getD_eq_default _ _ (Nat.not_lt.mp hn)
  exact not_counts_nil (hline ▸ h.counts)

theorem Fault.message_unique (h : Fault nested ls n m) (h' : Fault nested ls n m') : m = m' := by
  cases h with
  | unread _ hentry =>
    cases h' with
    | unread => rfl
    | outside _ _ hentry' => exact absurd (hentry.symm.trans hentry') (by simp)
  | outside _ _ hentry =>
    cases h' with
    | unread _ hentry' => exact absurd (hentry'.symm.trans hentry) (by simp)
    | outside _ _ hentry' => rw [Option.some.inj (hentry.symm.trans hentry')]

theorem not_fault_opens (h : Opens (lineAt ls n)) : ¬ Fault nested ls n m := by
  obtain ⟨-, key, hkey⟩ := h
  intro hf
  cases hf with
  | unread _ hentry => exact absurd (hkey.symm.trans hentry) (by simp)
  | outside _ _ hentry hvalue =>
    rw [← Option.some.inj (hkey.symm.trans hentry)] at hvalue
    exact hvalue rfl

theorem not_fault_of_open {entry : Entry} (hentry : Entry.ofLine? (Text.trim (lineAt ls n)) = some entry)
    (hopen : Open ls n depth) (hdeeper : depth < depthOf (lineAt ls n)) : ¬ Fault nested ls n m := by
  intro hf
  cases hf with
  | unread _ hentry' => exact absurd (hentry.symm.trans hentry') (by simp)
  | outside _ _ _ _ hout => exact absurd (hout depth hopen) (Nat.not_le.mpr hdeeper)

theorem FirstFault.unique (h : FirstFault nested ls n m) (h' : FirstFault nested ls i m') : n = i ∧ m = m' := by
  have hle : n ≤ i := Nat.not_lt.mp fun hlt => h.first i hlt m' h'.fault
  have hge : i ≤ n := Nat.not_lt.mp fun hlt => h'.first n hlt m h.fault
  obtain rfl : n = i := Nat.le_antisymm hle hge
  exact ⟨rfl, h.fault.message_unique h'.fault⟩

end faults

section shifted

theorem Counts.not_blank (h : Counts l) : Text.allBlank l = false := by
  refine Bool.eq_false_iff.mpr fun hblank => ?_
  rw [Counts, allBlank_iff_trim.mp hblank] at h
  exact absurd h (by decide)

theorem Open.of_shiftedAll (h : ShiftedAll k ls ms) (hopen : Open ls n depth) :
    ∃ depth' : Nat, Open ms n depth' ∧ (depth' : Int) = depth + k := by
  obtain ⟨i, hi, hopens, rfl, hdeeper⟩ := hopen
  have hsame : ∀ j, Counts (lineAt ms j) → Counts (lineAt ls j) := fun j hcounts => by
    rwa [Counts, ← (h j).trim]
  have hshift : ∀ j, Counts (lineAt ls j) → (depthOf (lineAt ms j) : Int) = depthOf (lineAt ls j) + k :=
    fun j hcounts => (h j).depth hcounts.not_blank
  refine ⟨depthOf (lineAt ms i), ⟨i, hi, ?_, rfl, fun j hij hjn hcounts => ?_⟩, hshift i hopens.1⟩
  · rwa [Opens, Counts, (h i).trim]
  · have hlt := hdeeper j hij hjn (hsame j hcounts)
    have hi := hshift i hopens.1
    have hj := hshift j (hsame j hcounts)
    omega

/-- A fault stays one where all lines move by the same distance. -/
theorem Fault.of_shiftedAll (h : ShiftedAll k ls ms) (hfault : Fault nested ls n m) : Fault nested ms n m := by
  have htrim := (h n).trim
  cases hfault with
  | unread hcounts hentry =>
    rw [← htrim] at hentry ⊢
    exact .unread (by rwa [Counts, htrim]) hentry
  | outside hscope hcounts hentry hvalue hout =>
    refine .outside hscope (by rwa [Counts, htrim]) (htrim ▸ hentry) hvalue fun depth' hopen => ?_
    obtain ⟨depth, hbefore, hdepth⟩ := hopen.of_shiftedAll h.symm
    have hle := hout depth hbefore
    have hline := (h n).depth hcounts.not_blank
    omega

theorem firstFault_shiftedAll (h : ShiftedAll k ls ms) : FirstFault nested ls n m ↔ FirstFault nested ms n m :=
  ⟨fun hf => ⟨hf.fault.of_shiftedAll h, fun i hi m' hf' => hf.first i hi m' (hf'.of_shiftedAll h.symm)⟩,
    fun hf => ⟨hf.fault.of_shiftedAll h.symm, fun i hi m' hf' => hf.first i hi m' (hf'.of_shiftedAll h)⟩⟩

end shifted

section reading

/-- Exactly the blocks that the first `n` lines leave open, the deepest first. -/
structure Follows (ls : List (List Char)) (n : Nat) (blocks : List (Nat × List Char)) : Prop where
  sorted : blocks.Pairwise fun inner outer => outer.1 < inner.1
  depths : ∀ depth, (∃ block ∈ blocks, block.1 = depth) ↔ Open ls n depth

theorem follows_zero (ls : List (List Char)) : Follows ls 0 [] where
  sorted := List.Pairwise.nil
  depths depth := by
    constructor
    · rintro ⟨block, hblock, -⟩
      cases hblock
    · rintro ⟨i, hi, -⟩
      omega

theorem open_succ : Open ls (n + 1) depth ↔
    Open ls n depth ∧ (Counts (lineAt ls n) → depth < depthOf (lineAt ls n)) ∨
      Opens (lineAt ls n) ∧ depthOf (lineAt ls n) = depth := by
  constructor
  · rintro ⟨i, hi, hopens, hdepth, hdeeper⟩
    rcases Nat.lt_succ_iff_lt_or_eq.mp hi with hi | rfl
    · refine .inl ⟨⟨i, hi, hopens, hdepth, fun j hij hjn => hdeeper j hij (by omega)⟩, ?_⟩
      exact hdeeper n hi (Nat.lt_succ_self n)
    · exact .inr ⟨hopens, hdepth⟩
  · rintro (⟨⟨i, hi, hopens, hdepth, hdeeper⟩, hlast⟩ | ⟨hopens, hdepth⟩)
    · refine ⟨i, by omega, hopens, hdepth, fun j hij hjn hcounts => ?_⟩
      rcases Nat.lt_succ_iff_lt_or_eq.mp hjn with hjn | rfl
      · exact hdeeper j hij hjn hcounts
      · exact hlast hcounts
    · exact ⟨n, Nat.lt_succ_self n, hopens, hdepth, fun j hij hjn => by omega⟩

theorem mem_enclosing_iff (h : blocks.Pairwise fun inner outer => outer.1 < inner.1) {block : Nat × List Char} :
    block ∈ enclosing blocks depth ↔ block ∈ blocks ∧ block.1 < depth := by
  induction blocks with
  | nil => simp [enclosing]
  | cons first blocks ih =>
    obtain ⟨hfirst, hrest⟩ := List.pairwise_cons.mp h
    by_cases hle : depth ≤ first.1
    · have hdrop : enclosing (first :: blocks) depth = enclosing blocks depth :=
        List.dropWhile_cons_of_pos (decide_eq_true hle)
      rw [hdrop, ih hrest, List.mem_cons]
      refine and_congr_left fun hlt => (or_iff_right ?_).symm
      rintro rfl
      omega
    · have hkeep : enclosing (first :: blocks) depth = first :: blocks :=
        List.dropWhile_cons_of_neg (by simpa using hle)
      rw [hkeep]
      refine ⟨fun hmem => ⟨hmem, ?_⟩, And.left⟩
      rcases List.mem_cons.mp hmem with rfl | hmem
      · exact Nat.not_le.mp hle
      · exact (hfirst block hmem).trans (Nat.not_le.mp hle)

theorem Follows.sorted_enclosing (h : Follows ls n blocks) (depth : Nat) :
    (enclosing blocks depth).Pairwise fun inner outer => outer.1 < inner.1 :=
  h.sorted.sublist (List.dropWhile_sublist _)

theorem Follows.enclosing (h : Follows ls n blocks) (limit depth : Nat) :
    (∃ block ∈ enclosing blocks limit, block.1 = depth) ↔ Open ls n depth ∧ depth < limit := by
  rw [← h.depths]
  constructor
  · rintro ⟨block, hblock, rfl⟩
    obtain ⟨hmem, hlt⟩ := (mem_enclosing_iff h.sorted).mp hblock
    exact ⟨⟨block, hmem, rfl⟩, hlt⟩
  · rintro ⟨⟨block, hmem, rfl⟩, hlt⟩
    exact ⟨block, (mem_enclosing_iff h.sorted).mpr ⟨hmem, hlt⟩, rfl⟩

theorem Follows.skip (h : Follows ls n blocks) (hskip : ¬ Counts (lineAt ls n)) : Follows ls (n + 1) blocks where
  sorted := h.sorted
  depths depth := by
    rw [h.depths, open_succ]
    exact ⟨fun hopen => .inl ⟨hopen, fun hcounts => absurd hcounts hskip⟩,
      fun hopen => hopen.elim And.left fun hopens => absurd hopens.1.1 hskip⟩

theorem Follows.close (h : Follows ls n blocks) (hcounts : Counts (lineAt ls n)) (hopens : ¬ Opens (lineAt ls n)) :
    Follows ls (n + 1) (Style.enclosing blocks (depthOf (lineAt ls n))) where
  sorted := h.sorted_enclosing _
  depths depth := by
    rw [h.enclosing, open_succ]
    exact ⟨fun hopen => .inl ⟨hopen.1, fun _ => hopen.2⟩,
      fun hopen => hopen.elim (fun hopen => ⟨hopen.1, hopen.2 hcounts⟩) fun hopen => absurd hopen.1 hopens⟩

theorem Follows.push (h : Follows ls n blocks) (hopens : Opens (lineAt ls n)) (selector : List Char) :
    Follows ls (n + 1) ((depthOf (lineAt ls n), selector) :: Style.enclosing blocks (depthOf (lineAt ls n))) where
  sorted := List.pairwise_cons.mpr
    ⟨fun _ hblock => ((mem_enclosing_iff h.sorted).mp hblock).2, h.sorted_enclosing _⟩
  depths depth := by
    rw [List.exists_mem_cons_iff, h.enclosing, open_succ, or_comm]
    exact or_congr (and_congr_right fun _ => ⟨fun hlt _ => hlt, fun hlt => hlt hopens.1⟩) (and_iff_right hopens).symm

theorem line_skip (hskip : ¬ Counts l) : r.line number l = .ok r := by
  have hskip : isSkipped (Text.trim l) = true := Bool.not_eq_false _ ▸ hskip
  unfold Reading.line
  simp only [hskip, if_true]

theorem line_unread (hcounts : Counts l) (hentry : Entry.ofLine? (Text.trim l) = none) : r.line number l =
    .error (.style number ("expected 'key: value', found '" ++ String.ofList (Text.trim l) ++ "'")) := by
  have hskip : isSkipped (Text.trim l) = false := hcounts
  unfold Reading.line
  simp only [hskip, hentry, Bool.false_eq_true, if_false]

theorem line_opens (r : Reading) (number : Nat) (hcounts : Counts l) {key : List Char}
    (hentry : Entry.ofLine? (Text.trim l) = some ⟨key, []⟩) :
    ∃ selector, r.line number l = .ok ⟨(depthOf l, selector) :: enclosing r.blocks (depthOf l), r.rules⟩ := by
  have hskip : isSkipped (Text.trim l) = false := hcounts
  have hblocks : r.blocks.dropWhile (fun block => depthOf l ≤ block.1) = enclosing r.blocks (depthOf l) := rfl
  unfold Reading.line
  simp only [hskip, hentry, hblocks, Bool.false_eq_true, if_false]
  cases enclosing r.blocks (depthOf l) with
  | nil => exact ⟨key, rfl⟩
  | cons block outer => exact ⟨nestSelector block.2 key, rfl⟩

theorem line_outside (hcounts : Counts l) {entry : Entry} (hentry : Entry.ofLine? (Text.trim l) = some entry)
    (hvalue : entry.value ≠ []) (hout : enclosing r.blocks (depthOf l) = []) : r.line number l =
      .error (.style number ("property '" ++ String.ofList entry.key ++ "' outside of any selector")) := by
  have hskip : isSkipped (Text.trim l) = false := hcounts
  have hblocks : r.blocks.dropWhile (fun block => depthOf l ≤ block.1) = [] := hout
  obtain ⟨c, value, hcons⟩ := List.exists_cons_of_ne_nil hvalue
  unfold Reading.line
  simp only [hskip, hentry, hblocks, hcons, Bool.false_eq_true, if_false]

theorem line_inside (r : Reading) (number : Nat) (hcounts : Counts l) {entry : Entry}
    (hentry : Entry.ofLine? (Text.trim l) = some entry) (hvalue : entry.value ≠ [])
    (hin : enclosing r.blocks (depthOf l) ≠ []) :
    ∃ rules, r.line number l = .ok ⟨enclosing r.blocks (depthOf l), rules⟩ := by
  have hskip : isSkipped (Text.trim l) = false := hcounts
  have hblocks : r.blocks.dropWhile (fun block => depthOf l ≤ block.1) = enclosing r.blocks (depthOf l) := rfl
  obtain ⟨c, value, hcons⟩ := List.exists_cons_of_ne_nil hvalue
  unfold Reading.line
  simp only [hskip, hentry, hblocks, hcons, Bool.false_eq_true, if_false]
  cases hopen : enclosing r.blocks (depthOf l) with
  | nil => exact absurd hopen hin
  | cons block outer => exact ⟨_, rfl⟩

/-- A line that is read keeps track of the open blocks and has no fault, or it is reported for its fault. -/
theorem Follows.line (h : Follows ls n r.blocks) (number : Nat) :
    (∃ next, r.line number (lineAt ls n) = .ok next ∧ Follows ls (n + 1) next.blocks ∧
      ∀ m, ¬ Fault false ls n m) ∨
    ∃ m, r.line number (lineAt ls n) = .error (.style number m) ∧ Fault false ls n m := by
  by_cases hcounts : Counts (lineAt ls n)
  · cases hentry : Entry.ofLine? (Text.trim (lineAt ls n)) with
    | none => exact .inr ⟨_, line_unread hcounts hentry, .unread hcounts hentry⟩
    | some entry =>
      by_cases hvalue : entry.value = []
      · obtain ⟨key, value⟩ := entry
        obtain rfl : value = [] := hvalue
        obtain ⟨selector, hline⟩ := line_opens r number hcounts hentry
        have hopens : Opens (lineAt ls n) := ⟨hcounts, key, hentry⟩
        exact .inl ⟨_, hline, h.push hopens selector, fun m => not_fault_opens hopens⟩
      · have hopens : ¬ Opens (lineAt ls n) := by
          rintro ⟨-, key, hkey⟩
          rw [Option.some.inj (hentry.symm.trans hkey)] at hvalue
          exact hvalue rfl
        by_cases hout : Style.enclosing r.blocks (depthOf (lineAt ls n)) = []
        · refine .inr ⟨_, line_outside hcounts hentry hvalue hout,
            .outside rfl hcounts hentry hvalue fun depth hopen => ?_⟩
          -- a block that is open and less deep would enclose the line
          refine Nat.not_lt.mp fun hlt => ?_
          obtain ⟨block, hblock, -⟩ := (h.enclosing _ depth).mpr ⟨hopen, hlt⟩
          rw [hout] at hblock
          cases hblock
        · obtain ⟨rules, hline⟩ := line_inside r number hcounts hentry hvalue hout
          obtain ⟨block, outer, hcons⟩ := List.exists_cons_of_ne_nil hout
          have hblock := (h.enclosing (depthOf (lineAt ls n)) block.1).mp
            ⟨block, hcons ▸ List.mem_cons_self, rfl⟩
          exact .inl ⟨_, hline, h.close hcounts hopens, fun m => not_fault_of_open hentry hblock.1 hblock.2⟩
  · exact .inl ⟨r, line_skip hcounts, h.skip hcounts, fun m hf => hcounts hf.counts⟩

/-- A reading fails exactly at the first line with a fault, and is reported for it. -/
theorem Follows.lines_error_iff (h : Follows ls n r.blocks) (hclear : ∀ i < n, ∀ m, ¬ Fault false ls i m) :
    r.lines (n + 1) (ls.drop n) = .error e ↔ ∃ i m, FirstFault false ls i m ∧ e = .style (i + 1) m := by
  -- over the lines that are left; those before them have no fault, so the first one is still to come
  induction hrest : ls.drop n generalizing n r with
  | nil =>
    refine iff_of_false (by simp [Reading.lines]) ?_
    rintro ⟨i, m, hfirst, -⟩
    have hlength := List.drop_eq_nil_iff.mp hrest
    exact hclear i (hfirst.fault.lt_length.trans_le hlength) m hfirst.fault
  | cons l rest ih =>
    have hline : lineAt ls n = l := by
      rw [lineAt, List.getD_eq_getElem?_getD, ← List.head?_drop, hrest]
      rfl
    have htail : ls.drop (n + 1) = rest := by rw [← List.tail_drop, hrest, List.tail_cons]
    rw [Reading.lines, ← hline]
    obtain ⟨next, hread, hfollows, hno⟩ | ⟨m, hread, hfault⟩ := h.line (n + 1)
    · rw [hread]
      refine ih hfollows (fun i hi => ?_) htail
      rcases Nat.lt_succ_iff_lt_or_eq.mp hi with hi | rfl
      · exact hclear i hi
      · exact hno
    · rw [hread]
      have hfirst : FirstFault false ls n m := ⟨hfault, hclear⟩
      constructor
      · intro heq
        cases heq
        exact ⟨n, m, hfirst, rfl⟩
      · rintro ⟨i, m', hfirst', rfl⟩
        obtain ⟨rfl, rfl⟩ := hfirst.unique hfirst'
        rfl

theorem lines_error_iff : Reading.lines {} 1 ls = .error e ↔ ∃ n m, FirstFault false ls n m ∧ e = .style (n + 1) m :=
  (follows_zero ls).lines_error_iff fun i hi => absurd hi (Nat.not_lt_zero i)

end reading

section header

theorem Heads.open (h : Heads header ls) (n : Nat) : Open (header :: ls) (n + 1) 0 := by
  refine ⟨0, Nat.succ_pos n, h.opens, h.depth, fun j hj _ hcounts => ?_⟩
  obtain ⟨i, rfl⟩ := Nat.exists_eq_succ_of_ne_zero hj.ne'
  exact h.deeper i hcounts

/-- Under a line that opens a block around all the others, these have the faults of lines in a scope. -/
theorem Heads.fault_iff (h : Heads header ls) : Fault false (header :: ls) (n + 1) m ↔ Fault true ls n m := by
  constructor
  · intro hf
    cases hf with
    | unread hcounts hentry => exact .unread hcounts hentry
    | outside _ hcounts hentry hvalue hout =>
      -- the block of the first line stays open, and every line is deeper
      exact absurd (.outside rfl hcounts hentry hvalue hout)
        (not_fault_of_open hentry (h.open n) (h.deeper n hcounts))
  · intro hf
    cases hf with
    | unread hcounts hentry => exact .unread hcounts hentry
    | outside hnested => cases hnested

theorem Heads.firstFault_iff (h : Heads header ls) :
    FirstFault false (header :: ls) i m ↔ ∃ n, i = n + 1 ∧ FirstFault true ls n m := by
  have hzero : ∀ m, ¬ Fault false (header :: ls) 0 m := fun m => not_fault_opens h.opens
  constructor
  · intro hf
    cases i with
    | zero => exact absurd hf.fault (hzero m)
    | succ n =>
      refine ⟨n, rfl, h.fault_iff.mp hf.fault, fun j hj m' hearlier => ?_⟩
      exact hf.first (j + 1) (Nat.succ_lt_succ hj) m' (h.fault_iff.mpr hearlier)
  · rintro ⟨n, rfl, hf⟩
    refine ⟨h.fault_iff.mpr hf.fault, fun j hj m' hearlier => ?_⟩
    cases j with
    | zero => exact hzero m' hearlier
    | succ j => exact hf.first j (Nat.lt_of_succ_lt_succ hj) m' (h.fault_iff.mp hearlier)

end header

section texts

variable {text query : String} {scope : Option String}

theorem compileRules_eq_error_iff : compileRules text scope = .error e ↔
    Reading.lines {} 1 (Text.lines (blockSource text.toList scope)) = .error e := by
  unfold compileRules
  cases Reading.lines {} 1 (Text.lines (blockSource text.toList scope)) with
  | ok reading => exact iff_of_false (fun h => by cases h) (fun h => by cases h)
  | error e' => exact ⟨fun h => by cases h; rfl, fun h => by cases h; rfl⟩

theorem lines_blockSource_some (hfeed : '\n' ∉ query.toList) : Text.lines (blockSource text.toList (some query)) =
    ('\'' :: (query.toList ++ ['\'', ':'])) ::
      Text.lines (Text.indent (Text.dedent text.toList) [' ', ' ', ' ', ' ']) := by
  have hplain : ∀ c ∈ '\'' :: query.toList ++ ['\'', ':'], c ≠ '\n' := by
    rintro c hc rfl
    simp_all
  have hreturn : Text.dropReturn (('\'' :: (query.toList ++ ['\''])) ++ [':']) =
      ('\'' :: (query.toList ++ ['\''])) ++ [':'] := Text.dropReturn_concat (by decide)
  rw [blockSource_some, Text.lines_append_cons hplain]
  simpa using hreturn

theorem opens_quoted {query : List Char} (hquote : '\'' ∉ query) : Opens ('\'' :: (query ++ ['\'', ':'])) := by
  have hsolid : Text.Solid ('\'' :: (query ++ ['\'', ':'])) := by
    have hmarks : Text.Solid ('\'' :: (query ++ ['\'']) ++ [':']) := Text.solid_of_marks (by decide) (by decide)
    simpa using hmarks
  have hbefore : ∀ c ∈ query, (c != '\'') = true := fun c hc => bne_iff_ne.mpr fun heq => hquote (heq ▸ hc)
  have hentry : Entry.ofLine? ('\'' :: (query ++ ['\'', ':'])) = some ⟨query, []⟩ := by
    have hdrop : (query ++ ['\'', ':']).dropWhile (· != '\'') = ['\'', ':'] := List.dropWhile_append_of_pos hbefore
    have htake : (query ++ ['\'', ':']).takeWhile (· != '\'') = query := by
      rw [List.takeWhile_append_of_pos hbefore]
      exact List.append_nil query
    rw [Entry.ofLine?, quotedEntry?, hdrop, htake]
    rfl
  refine ⟨?_, query, ?_⟩
  · rw [Counts, hsolid.2]
    rfl
  · rw [hsolid.2, hentry]

/-- The line of a scope opens a block around the lines that are indented under it. -/
theorem heads_scope {query : List Char} (hquote : '\'' ∉ query) (s : List Char) :
    Heads ('\'' :: (query ++ ['\'', ':'])) (Text.lines (Text.indent s [' ', ' ', ' ', ' '])) where
  opens := opens_quoted hquote
  depth := rfl
  deeper i hcounts := by
    have hindent : ShiftedAll (Text.byteLength [' ', ' ', ' ', ' ']) (Text.lines s)
        (Text.lines (Text.indent s [' ', ' ', ' ', ' '])) := shiftedAll_indent (by decide) (by simp) s
    have hshifted := hindent i
    have hdepth := hshifted.depth (hshifted.allBlank ▸ hcounts.not_blank)
    have hfour : Text.byteLength [' ', ' ', ' ', ' '] = 4 := by decide
    omega

/-- The lines of a block in a scope, past the line of the scope, have the faults of the lines of the text. -/
theorem firstFault_scope (s : List Char) : FirstFault nested (Text.lines s) n m ↔
    FirstFault nested (Text.lines (Text.indent (Text.dedent s) [' ', ' ', ' ', ' '])) n m :=
  firstFault_shiftedAll ((shiftedAll_dedent s).trans (shiftedAll_indent (by decide) (by simp) _))

/-- A rule block fails exactly at the first line of its text with a fault. Without a scope that line is reported by its
number; in a scope the line of the scope is counted too. -/
theorem compileRules_error_iff (hscope : ∀ query ∈ scope, '\'' ∉ query.toList ∧ '\n' ∉ query.toList) :
    compileRules text scope = .error e ↔ ∃ n m, FirstFault scope.isSome (Text.lines text.toList) n m ∧
      e = .style (if scope.isSome then n + 2 else n + 1) m := by
  rw [compileRules_eq_error_iff, lines_error_iff]
  cases scope with
  | none =>
    have hsame (n m) : FirstFault false (Text.lines text.toList) n m ↔
        FirstFault false (Text.lines (Text.dedent text.toList)) n m := firstFault_shiftedAll (shiftedAll_dedent _)
    simp only [blockSource, ← hsame]
    rfl
  | some query =>
    obtain ⟨hquote, hfeed⟩ := hscope query rfl
    have hheads := heads_scope hquote (Text.dedent text.toList)
    rw [lines_blockSource_some hfeed]
    simp only [Option.isSome_some, if_true]
    constructor
    · rintro ⟨i, m, hfirst, rfl⟩
      obtain ⟨n, rfl, hnested⟩ := hheads.firstFault_iff.mp hfirst
      exact ⟨n, m, (firstFault_scope _).mpr hnested, rfl⟩
    · rintro ⟨n, m, hfirst, rfl⟩
      exact ⟨n + 1, m, hheads.firstFault_iff.mpr ⟨n, rfl, (firstFault_scope _).mp hfirst⟩, rfl⟩

theorem compileRules_error_card :
    (∀ query ∈ some "Tower@3", '\'' ∉ query.toList ∧ '\n' ∉ query.toList) ∧
    compileRules "\n  # card\n  Text:\n    gap" (some "Tower@3") =
      .error (.style 5 "expected 'key: value', found 'gap'") ∧
    FirstFault true (Text.lines "\n  # card\n  Text:\n    gap".toList) 3 "expected 'key: value', found 'gap'" := by
  have hplain : ∀ query ∈ some "Tower@3", '\'' ∉ query.toList ∧ '\n' ∉ query.toList := by decide
  have hread : compileRules "\n  # card\n  Text:\n    gap" (some "Tower@3") =
      .error (.style 5 "expected 'key: value', found 'gap'") := rfl
  obtain ⟨n, m, hfirst, heq⟩ := (compileRules_error_iff hplain).mp hread
  obtain ⟨hn, rfl⟩ := CompileError.style.inj heq
  obtain rfl : n = 3 := by simpa using hn.symm
  exact ⟨hplain, hread, hfirst⟩

/-- In a scope the number that is reported is not that of the line. -/
theorem error_past_line_of_scope :
    compileRules "gap" (some "Tower@3") = .error (.style 2 "expected 'key: value', found 'gap'") ∧
    FirstFault true (Text.lines "gap".toList) 0 "expected 'key: value', found 'gap'" ∧
    ¬ ∀ (text : String) (scope : Option String) (number : Nat) (message : String),
      (∀ query ∈ scope, '\'' ∉ query.toList ∧ '"' ∉ query.toList ∧ '\n' ∉ query.toList) →
      compileRules text scope = .error (.style number message) →
      ∃ n m, FirstFault scope.isSome (Text.lines text.toList) n m ∧ number = n + 1 := by
  have hread : compileRules "gap" (some "Tower@3") =
      .error (.style 2 "expected 'key: value', found 'gap'") := rfl
  have hfirst : FirstFault true (Text.lines "gap".toList) 0 "expected 'key: value', found 'gap'" :=
    ⟨.unread rfl rfl, fun i hi => absurd hi (Nat.not_lt_zero i)⟩
  refine ⟨hread, hfirst, fun hall => ?_⟩
  obtain ⟨n, m, hreported, hn⟩ := hall "gap" (some "Tower@3") 2 _ (by decide) hread
  have hzero := (hfirst.unique hreported).1
  omega

end texts

end Hypermedia.Style
