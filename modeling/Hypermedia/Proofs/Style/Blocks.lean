import Hypermedia.Style.Block
import Hypermedia.Proofs.Text.Lines

/-! Rule blocks that are read for a scope: every selector in them goes on from the scope. -/
namespace Hypermedia.Style

variable {s l scope child parent : List Char}

section entries

/-- What a quoted key is followed by. -/
theorem quotedEntry?_eq_some {quote : Char} {entry : Entry} (h : quotedEntry? quote s = some entry) :
    ∃ gap value, s = entry.key ++ quote :: (gap ++ ':' :: value) ∧
      (∀ c ∈ gap, Text.isBlank c = true) ∧ entry.value = Text.trim value := by
  unfold quotedEntry? at h
  split at h
  · cases h
  · next c after hafter =>
    split at h
    · next value hvalue =>
      cases h
      have hquote : c = quote := by
        have hhead := List.head?_dropWhile_not (· != quote) s
        rw [hafter] at hhead
        simpa using hhead
      subst hquote
      refine ⟨after.takeWhile Text.isBlank, value, ?_, fun _ => List.mem_takeWhile_imp, rfl⟩
      rw [← hvalue, Text.trimStart, List.takeWhile_append_dropWhile, ← hafter,
        List.takeWhile_append_dropWhile]
    · cases h

theorem key_subset_of_quoted {quote : Char} {entry : Entry}
    (h : quotedEntry? quote s = some entry) : entry.key ⊆ s := by
  obtain ⟨gap, value, hs, -⟩ := quotedEntry?_eq_some h
  rw [hs]
  exact List.subset_append_left _ _

theorem key_subset {entry : Entry} (h : Entry.ofLine? l = some entry) : entry.key ⊆ l := by
  unfold Entry.ofLine? at h
  split at h
  · exact List.subset_cons_of_subset _ (key_subset_of_quoted h)
  · exact List.subset_cons_of_subset _ (key_subset_of_quoted h)
  · unfold plainEntry? at h
    split at h
    · next hsplit =>
      cases h
      exact List.Subset.trans Text.trim_subset (Text.subset_of_splitOnce hsplit)
    · obtain ⟨key, hkey, rfl⟩ := Option.map_eq_some_iff.mp h
      exact List.Subset.trans Text.trim_subset (Text.subset_of_dropEnding hkey)

end entries

/-- What a selector may go on with after the text it is nested in. -/
def Attaches (c : Char) : Prop :=
  c = '.' ∨ c = '#' ∨ c = '/' ∨ c = '@' ∨ c = ':' ∨ c = ' '

/-- A selector that starts with a scope and ends there or goes on with a mark or a blank. -/
def Extends (scope s : List Char) : Prop :=
  ∃ rest, s = scope ++ rest ∧ ∀ c ∈ rest.head?, Attaches c

theorem Extends.refl (scope : List Char) : Extends scope scope :=
  ⟨[], (List.append_nil scope).symm, nofun⟩

theorem Extends.append (h : Extends scope parent) (hchild : ∀ c ∈ child.head?, Attaches c) :
    Extends scope (parent ++ child) := by
  obtain ⟨rest, rfl, hrest⟩ := h
  refine ⟨rest ++ child, List.append_assoc _ _ _, ?_⟩
  cases rest with
  | nil => exact hchild
  | cons c rest => exact hrest

theorem Extends.nest (h : Extends scope parent) (hchild : '&' ∉ child) :
    Extends scope (nestSelector parent child) := by
  unfold nestSelector
  rw [if_neg (by simpa using hchild)]
  have hblank : Extends scope (parent ++ ' ' :: child) :=
    h.append fun c hc => by simp [Attaches, ← Option.some.inj hc]
  split
  · next c rest =>
    split
    · next hmark =>
      refine h.append fun d hd => ?_
      obtain rfl : c = d := Option.some.inj hd
      unfold Attaches
      tauto
    · exact hblank
  · exact hblank

section rules

variable {m : RuleMap} {selector : String}

theorem mem_insert {properties : Properties} {entry : String × Properties}
    (h : entry ∈ (m.insert selector properties).entries) :
    entry.1 = selector ∨ ∃ old ∈ m.entries, old.1 = entry.1 := by
  unfold RuleMap.insert at h
  split at h
  · obtain ⟨old, hold, rfl⟩ := List.mem_map.mp h
    refine .inr ⟨old, hold, ?_⟩
    split <;> rfl
  · rcases List.mem_append.mp h with h | h
    · exact .inr ⟨entry, h, rfl⟩
    · exact .inl (congrArg Prod.fst (List.mem_singleton.mp h))

end rules

section lines

theorem le_byteLength {n : Nat} : n ≤ s.foldl (fun n c => n + c.utf8Size) n := by
  induction s generalizing n with
  | nil => exact Nat.le_refl n
  | cons c s ih => exact Nat.le_trans (Nat.le_add_right n c.utf8Size) ih

theorem depthOf_pos {c : Char} (hc : Text.isBlank c = true) : 0 < depthOf (c :: l) := by
  rw [depthOf, List.takeWhile_cons_of_pos hc, Text.byteLength, List.foldl_cons, Nat.zero_add]
  exact Nat.lt_of_lt_of_le c.utf8Size_pos le_byteLength

variable {r r' : Reading} {number : Nat}

/-- What is open and has been read inside a block for a scope. -/
structure Reading.Inside (scope : List Char) (r : Reading) : Prop where
  outermost : r.blocks.getLast? = some (0, scope)
  blocks : ∀ block ∈ r.blocks, Extends scope block.2
  rules : ∀ entry ∈ r.rules.entries, Extends scope entry.1.toList

theorem getLast?_dropWhile {α : Type} {p : α → Bool} {l : List α} {a : α} (h : l.getLast? = some a)
    (ha : p a = false) : (l.dropWhile p).getLast? = some a := by
  obtain ⟨before, rfl⟩ := List.getLast?_eq_some_iff.mp h
  rw [List.dropWhile_append]
  split
  · simp [ha]
  · simp

/-- A line below the depth of the scope keeps the scope open. -/
theorem Reading.Inside.line (h : r.Inside scope) (hplain : '&' ∉ l)
    (hdeep : isSkipped (Text.trim l) = false → 0 < depthOf l)
    (hr : r.line number l = .ok r') : r'.Inside scope := by
  unfold Reading.line at hr
  dsimp only at hr
  split at hr
  · cases hr
    exact h
  · next hskipped =>
    have hdeep := hdeep (Bool.eq_false_iff.mpr hskipped)
    have hlast := getLast?_dropWhile (p := fun block => depthOf l ≤ block.1) h.outermost
      (decide_eq_false (Nat.not_le.mpr hdeep))
    have hblocks : ∀ block ∈ r.blocks.dropWhile (fun block => depthOf l ≤ block.1),
        Extends scope block.2 := fun block hb => h.blocks block ((List.dropWhile_sublist _).subset hb)
    generalize r.blocks.dropWhile (fun block => depthOf l ≤ block.1) = blocks at hr hlast hblocks
    split at hr
    · cases hr
    · next entry hentry =>
      have hkey : '&' ∉ entry.key := fun hc => hplain (Text.trim_subset (key_subset hentry hc))
      split at hr
      · cases hlast
      · next depth parent outer hvalue =>
        cases hr
        have hparent := hblocks _ List.mem_cons_self
        refine ⟨by rwa [List.getLast?_cons_cons], List.forall_mem_cons.mpr ⟨?_, hblocks⟩, h.rules⟩
        exact hparent.nest hkey
      · cases hr
      · next value depth selector outer hvalue =>
        cases hr
        refine ⟨hlast, hblocks, fun entry hentry => ?_⟩
        rcases mem_insert hentry with heq | ⟨old, hold, heq⟩
        · rw [heq, String.toList_ofList]
          exact hblocks _ List.mem_cons_self
        · exact heq ▸ h.rules old hold

theorem lines_cons {ls : List (List Char)} (h : r.lines number (l :: ls) = .ok r') :
    ∃ next, r.line number l = .ok next ∧ next.lines (number + 1) ls = .ok r' := by
  rw [Reading.lines] at h
  cases hline : r.line number l with
  | error e =>
    rw [hline] at h
    cases h
  | ok next =>
    rw [hline] at h
    exact ⟨next, rfl, h⟩

theorem Reading.Inside.lines {ls : List (List Char)} (h : r.Inside scope)
    (hls : ∀ l ∈ ls, '&' ∉ l ∧ (isSkipped (Text.trim l) = false → 0 < depthOf l))
    (hr : r.lines number ls = .ok r') : r'.Inside scope := by
  induction ls generalizing r number with
  | nil =>
    cases hr
    exact h
  | cons l ls ih =>
    obtain ⟨⟨hplain, hdeep⟩, hrest⟩ := List.forall_mem_cons.mp hls
    obtain ⟨next, hline, hnext⟩ := lines_cons hr
    exact ih (h.line hplain hdeep hline) hrest hnext

end lines

section header

variable {r : Reading} {number : Nat} {c : Char}

/-- A quoted line before all others opens a block, and does nothing else. -/
theorem line_quoted (h : ({} : Reading).line number ('\'' :: s) = .ok r) :
    ∃ key, quotedEntry? '\'' (Text.trimEnd s) = some ⟨key, []⟩ ∧ r = { blocks := [(0, key)] } := by
  have htrim : Text.trim ('\'' :: s) = '\'' :: Text.trimEnd s := by
    rw [Text.trim, Text.trimStart, List.dropWhile_cons_of_neg (by decide)]
    exact Text.trimEnd_cons (by decide)
  have hdepth : depthOf ('\'' :: s) = 0 := by
    rw [depthOf, List.takeWhile_cons_of_neg (by decide)]
    rfl
  unfold Reading.line at h
  rw [htrim, hdepth] at h
  dsimp only at h
  have hentry : Entry.ofLine? ('\'' :: Text.trimEnd s) = quotedEntry? '\'' (Text.trimEnd s) := rfl
  rw [if_neg (by simp [isSkipped]), List.dropWhile_nil, hentry] at h
  split at h
  · cases h
  · next entry hentry =>
    obtain ⟨key, value⟩ := entry
    cases value with
    | nil =>
      cases h
      exact ⟨key, hentry, rfl⟩
    | cons c value => cases h

/-- Blanks do not end a text that ends with another character. -/
theorem eq_of_concat_eq {t : List Char} (h : s ++ [c] = t ++ c :: l) (hc : Text.isBlank c = false)
    (hl : ∀ d ∈ l, Text.isBlank d = true) : s = t := by
  obtain rfl | ⟨before, d, rfl⟩ := List.eq_nil_or_concat l
  · exact (List.append_inj' h rfl).1
  · rw [List.concat_eq_append] at h hl
    rw [← List.cons_append, ← List.append_assoc] at h
    obtain rfl : c = d := List.singleton_inj.mp (List.append_inj' h rfl).2
    have hblank : Text.isBlank c = true := hl c (by simp)
    exact absurd (hc.symm.trans hblank) Bool.false_ne_true

/-- A scope in quotes opens a block for itself, or no block if there is a quote in it. -/
theorem line_scope (h : ({} : Reading).line number ('\'' :: (scope ++ ['\'', ':'])) = .ok r) :
    r = { blocks := [(0, scope)] } := by
  obtain ⟨key, hkey, rfl⟩ := line_quoted h
  have hsplit : scope ++ ['\'', ':'] = (scope ++ ['\'']) ++ [':'] := by simp
  rw [hsplit, Text.trimEnd_concat (by decide)] at hkey
  obtain ⟨gap, value, heq, hgap, hvalue⟩ := quotedEntry?_eq_some hkey
  rw [← List.cons_append, ← List.append_assoc] at heq
  have heq := eq_of_concat_eq heq (by decide) (Text.trim_eq_nil_iff.mp hvalue.symm)
  rw [eq_of_concat_eq heq (by decide) hgap]

theorem quote_mem_of_line (h : ({} : Reading).line number (Text.dropReturn ('\'' :: s)) = .ok r) :
    '\'' ∈ s := by
  rw [Text.dropReturn_cons (by decide)] at h
  obtain ⟨key, hkey, -⟩ := line_quoted h
  obtain ⟨gap, value, heq, -⟩ := quotedEntry?_eq_some hkey
  apply Text.dropReturn_subset
  apply Text.trimEnd_subset
  rw [heq]
  exact List.mem_append_right _ List.mem_cons_self

end header

section scopes

variable {text query : String} {rules : RuleMap} {reading : Reading}

theorem blockSource_some : blockSource text.toList (some query) =
    ('\'' :: query.toList ++ ['\'', ':']) ++
      '\n' :: Text.indent (Text.dedent text.toList) [' ', ' ', ' ', ' '] := by
  simp [blockSource]

theorem exists_of_compileRules {scope : Option String} (h : compileRules text scope = .ok rules) :
    ∃ reading, Reading.lines {} 1 (Text.lines (blockSource text.toList scope)) = .ok reading ∧
      reading.rules = rules := by
  unfold compileRules at h
  cases hr : Reading.lines {} 1 (Text.lines (blockSource text.toList scope)) with
  | error e =>
    rw [hr] at h
    cases h
  | ok reading =>
    rw [hr] at h
    cases h
    exact ⟨reading, rfl, rfl⟩

/-- A line feed in a scope ends its line before the closing quote, so that another quote must do. -/
theorem quote_mem_of_lines (hfeed : '\n' ∈ query.toList)
    (hr : Reading.lines {} 1 (Text.lines (blockSource text.toList (some query))) = .ok reading) :
    '\'' ∈ query.toList := by
  obtain ⟨before, after, hbefore, hfirst⟩ := List.eq_append_cons_of_mem hfeed
  have hplain : ∀ c ∈ '\'' :: before, c ≠ '\n' :=
    List.forall_mem_cons.mpr ⟨by decide, fun c hc heq => hfirst (heq ▸ hc)⟩
  have htorn : blockSource text.toList (some query) = ('\'' :: before) ++ '\n' ::
      (after ++ ['\'', ':'] ++ '\n' :: Text.indent (Text.dedent text.toList) [' ', ' ', ' ', ' ']) := by
    rw [blockSource_some, hbefore]
    simp
  rw [htorn, Text.lines_append_cons hplain] at hr
  obtain ⟨opened, hopened, -⟩ := lines_cons hr
  rw [hbefore]
  exact List.mem_append_left _ (quote_mem_of_line hopened)

/-- The lines of a block that is read for a scope stay inside the scope. -/
theorem inside_of_lines (htext : '&' ∉ text.toList) (hfeed : '\n' ∉ query.toList)
    (hr : Reading.lines {} 1 (Text.lines (blockSource text.toList (some query))) = .ok reading) :
    reading.Inside query.toList := by
  have hplain : ∀ c ∈ '\'' :: query.toList ++ ['\'', ':'], c ≠ '\n' := by
    rintro c hc rfl
    simp [hfeed] at hc
  have hsplit : '\'' :: query.toList ++ ['\'', ':'] = ('\'' :: query.toList ++ ['\'']) ++ [':'] := by
    simp
  rw [blockSource_some, Text.lines_append_cons hplain, hsplit, Text.dropReturn_concat (by decide),
    ← hsplit] at hr
  obtain ⟨opened, hopened, hrest⟩ := lines_cons hr
  have hinside : opened.Inside query.toList := by
    rw [line_scope hopened]
    exact ⟨rfl, List.forall_mem_singleton.mpr (Extends.refl _), nofun⟩
  refine hinside.lines (fun l hl => ?_) hrest
  rcases Text.of_mem_lines_indent (by simp) hl with rfl | ⟨rest, rfl, hrest⟩
  · exact ⟨nofun, nofun⟩
  · refine ⟨fun hc => ?_, fun _ => depthOf_pos (by decide)⟩
    have hc : '&' ∈ rest := by simpa using hc
    exact (Text.mem_of_mem_dedent (hrest hc)).elim (by decide) htext

/-- Every selector of a block that is read for a scope goes on from the scope. -/
theorem extends_of_compileRules (htext : '&' ∉ text.toList)
    (hquery : '\'' ∉ query.toList ∨ '\n' ∉ query.toList)
    (h : compileRules text (some query) = .ok rules) :
    ∀ entry ∈ rules.entries, Extends query.toList entry.1.toList := by
  obtain ⟨reading, hreading, rfl⟩ := exists_of_compileRules h
  have hfeed : '\n' ∉ query.toList := by
    refine hquery.elim (fun hquote hfeed => ?_) id
    exact hquote (quote_mem_of_lines hfeed hreading)
  exact (inside_of_lines htext hfeed hreading).rules

end scopes

end Hypermedia.Style
