import Hypermedia.Proofs.Text.Lines
import Mathlib.Data.List.Forall2

/-! Texts that are laid out with spaces: their lines that are not blank, the margin these share, the blanks around
them, and what is left of a text whose margin is taken away. -/
namespace Hypermedia.Text

variable {s t l m : List Char} {ls : List (List Char)} {n k : Nat}

section nonblank

/-- The lines that are not blank. -/
def nonBlank (ls : List (List Char)) : List (List Char) :=
  ls.filter fun l => !allBlank l

theorem allBlank_append : allBlank (s ++ t) = (allBlank s && allBlank t) :=
  List.all_append

theorem allBlank_dropReturn : allBlank (dropReturn l) = allBlank l := by
  unfold dropReturn
  split
  · next hlast =>
    obtain ⟨init, rfl⟩ := List.getLast?_eq_some_iff.mp hlast
    have hreturn : allBlank ['\r'] = true := by decide
    rw [List.dropLast_concat, allBlank_append, hreturn, Bool.and_true]
  · rfl

theorem nonBlank_cons : nonBlank (l :: ls) = if allBlank l then nonBlank ls else l :: nonBlank ls := by
  unfold nonBlank
  rw [List.filter_cons]
  cases allBlank l <;> rfl

theorem lines_of_forall (hs : ∀ c ∈ s, c ≠ '\n') : nonBlank (lines s) = nonBlank [s] := by
  have hcut : cut (· == '\n') s = [s] := cut_of_forall_not fun c hc => by simpa using hs c hc
  cases s with
  | nil => rfl
  | cons c s => simp [lines, hcut]

/-- Lines that are joined and taken apart again are the same but for blank ones. -/
theorem nonBlank_lines_join (hls : ∀ l ∈ ls, ∀ c ∈ l, c ≠ '\n')
    (hends : ∀ l ∈ nonBlank ls, l.getLast? ≠ some '\r') : nonBlank (lines (join ['\n'] ls)) = nonBlank ls := by
  induction ls with
  | nil => rfl
  | cons first ls ih =>
    obtain ⟨hfirst, hls⟩ := List.forall_mem_cons.mp hls
    cases ls with
    | nil =>
      rw [join, List.intercalate_singleton]
      exact lines_of_forall hfirst
    | cons m ls =>
      rw [join, List.intercalate_cons_cons, List.append_assoc, List.singleton_append, lines_append_cons hfirst]
      rw [nonBlank_cons, nonBlank_cons, allBlank_dropReturn]
      rw [nonBlank_cons] at hends
      split
      · next hblank =>
        rw [if_pos hblank] at hends
        exact ih hls hends
      · next hblank =>
        rw [if_neg hblank] at hends
        obtain ⟨hend, hends⟩ := List.forall_mem_cons.mp hends
        have hsame : dropReturn first = first := if_neg hend
        rw [hsame]
        exact congrArg _ (ih hls hends)

theorem allBlank_dropMargin (hm : allBlank m = true) : allBlank (dropMargin m l) = allBlank l := by
  unfold dropMargin
  split
  · next hblank => exact hblank.symm
  · cases h : m.isPrefixOf? l with
    | none => rfl
    | some rest =>
      rw [← List.isPrefixOf?_eq_some_iff_append_eq.mp h, allBlank_append, hm]
      rfl

theorem nonBlank_map_dropMargin (hm : allBlank m = true) :
    nonBlank (ls.map (dropMargin m)) = (nonBlank ls).map (dropMargin m) := by
  unfold nonBlank
  rw [List.filter_map]
  refine congrArg _ (List.filter_congr fun l _ => ?_)
  rw [Function.comp_apply, allBlank_dropMargin hm]

end nonblank

section spaces

def spaces (n : Nat) : List Char :=
  List.replicate n ' '

theorem spaces_add (n k : Nat) : spaces (n + k) = spaces n ++ spaces k :=
  (List.replicate_append_replicate).symm

theorem allBlank_spaces (n : Nat) : allBlank (spaces n) = true :=
  List.all_eq_true.mpr fun c hc => by
    obtain rfl := List.eq_of_mem_replicate hc
    rfl

/-- The blanks before a text that starts with another character. -/
theorem takeWhile_spaces {p : Char → Bool} (hp : p ' ' = true) (hs : ∀ c ∈ s.head?, p c = false) :
    (spaces n ++ s).takeWhile p = spaces n := by
  have hspaces : ∀ c ∈ spaces n, p c = true := fun c hc => (List.eq_of_mem_replicate hc).symm ▸ hp
  rw [List.takeWhile_append_of_pos hspaces]
  cases s with
  | nil => simp
  | cons c s => simp [hs c rfl]

theorem isMarginal_of_isBlank {c : Char} (hc : isBlank c = false) : isMarginal c = false := by
  have hspace : c ≠ ' ' := by
    rintro rfl
    exact absurd hc (by decide)
  have htab : c ≠ '\t' := by
    rintro rfl
    exact absurd hc (by decide)
  simp [isMarginal, hspace, htab]

theorem lead_spaces (hs : ∀ c ∈ s.head?, isBlank c = false) : lead (spaces n ++ s) = spaces n :=
  takeWhile_spaces rfl fun c hc => isMarginal_of_isBlank (hs c hc)

theorem commonStart_spaces (n k : Nat) : commonStart (spaces n) (spaces (n + k)) = spaces n := by
  induction n with
  | zero =>
    cases spaces (0 + k) <;> rfl
  | succ n ih =>
    have hmore : spaces (n + 1 + k) = ' ' :: spaces (n + k) := by
      rw [Nat.add_right_comm]
      rfl
    rw [hmore]
    exact congrArg (' ' :: ·) ih

theorem foldl_commonStart {leads : List (List Char)} (h : ∀ l ∈ leads, ∃ k, l = spaces (n + k)) :
    leads.foldl commonStart (spaces n) = spaces n := by
  induction leads with
  | nil => rfl
  | cons l leads ih =>
    obtain ⟨⟨k, rfl⟩, hleads⟩ := List.forall_mem_cons.mp h
    rw [List.foldl_cons, commonStart_spaces]
    exact ih hleads

/-- A first line that no other is to the left of gives a text its margin. -/
theorem margin_eq_spaces {first : List Char} {rest : List (List Char)} (hls : nonBlank ls = first :: rest)
    (hfirst : lead first = spaces n) (hrest : ∀ l ∈ rest, ∃ k, lead l = spaces (n + k)) :
    margin ls = spaces n := by
  have hleads : (nonBlank ls).map lead = spaces n :: rest.map lead := by rw [hls, List.map_cons, hfirst]
  unfold nonBlank at hleads
  rw [margin, hleads]
  exact foldl_commonStart (List.forall_mem_map.mpr hrest)

theorem dropMargin_spaces (hs : allBlank s = false) : dropMargin (spaces n) (spaces (n + k) ++ s) = spaces k ++ s := by
  have hline : allBlank (spaces (n + k) ++ s) = false := by rw [allBlank_append, hs, Bool.and_false]
  have hshare : (spaces n).isPrefixOf? (spaces (n + k) ++ s) = some (spaces k ++ s) := by
    rw [List.isPrefixOf?_eq_some_iff_append_eq, spaces_add, List.append_assoc]
  rw [dropMargin, hline, hshare]
  rfl

theorem foldl_byteLength (s : List Char) (n : Nat) :
    s.foldl (fun n c => n + c.utf8Size) n = n + byteLength s := by
  induction s generalizing n with
  | nil => rfl
  | cons c s ih =>
    rw [byteLength, List.foldl_cons, List.foldl_cons, ih, ih (0 + c.utf8Size)]
    omega

theorem byteLength_append (s t : List Char) : byteLength (s ++ t) = byteLength s + byteLength t := by
  rw [byteLength, List.foldl_append, foldl_byteLength]
  rfl

theorem byteLength_cons (c : Char) (s : List Char) : byteLength (c :: s) = c.utf8Size + byteLength s := by
  rw [byteLength, List.foldl_cons, foldl_byteLength, Nat.zero_add]

theorem byteLength_spaces (n : Nat) : byteLength (spaces n) = n := by
  induction n with
  | zero => rfl
  | succ n ih =>
    rw [spaces_add, byteLength_append, ih]
    rfl

end spaces

section trim

variable {c : Char}

theorem trim_append_left (hs : allBlank s = true) : trim (s ++ t) = trim t := by
  rw [trim, trim, trimStart, trimStart, List.dropWhile_append_of_pos (List.all_eq_true.mp hs)]

theorem trimEnd_concat_blank (hc : isBlank c = true) : trimEnd (s ++ [c]) = trimEnd s := by
  rw [trimEnd, trimEnd, List.reverse_concat, List.dropWhile_cons_of_pos hc]

theorem trim_concat_blank (hc : isBlank c = true) : trim (s ++ [c]) = trim s := by
  rw [trim, trim, trimStart, trimStart, List.dropWhile_append]
  split
  · next hnil =>
    rw [List.isEmpty_iff.mp hnil, List.dropWhile_cons_of_pos hc]
    rfl
  · exact trimEnd_concat_blank hc

theorem trim_dropReturn : trim (dropReturn l) = trim l := by
  unfold dropReturn
  split
  · next hlast =>
    obtain ⟨init, rfl⟩ := List.getLast?_eq_some_iff.mp hlast
    rw [List.dropLast_concat, trim_concat_blank (by decide)]
  · rfl

theorem takeWhile_dropReturn (hl : allBlank l = false) : (dropReturn l).takeWhile isBlank = l.takeWhile isBlank := by
  unfold dropReturn
  split
  · next hlast =>
    obtain ⟨init, rfl⟩ := List.getLast?_eq_some_iff.mp hlast
    have hinit : ¬ init.takeWhile isBlank = init := by
      intro hall
      rw [allBlank_append, Bool.and_eq_false_iff] at hl
      have hinit := hl.resolve_right (by decide)
      rw [allBlank, List.all_eq_false] at hinit
      obtain ⟨d, hd, hblank⟩ := hinit
      exact hblank (List.mem_takeWhile_imp (hall ▸ hd))
    rw [List.dropLast_concat, List.takeWhile_append, if_neg]
    exact fun hlength => hinit (List.takeWhile_sublist _ |>.eq_of_length hlength)
  · rfl

end trim

section solid

/-- A text with something in it and no blanks around it. -/
def Solid (s : List Char) : Prop :=
  s ≠ [] ∧ trim s = s

theorem trimStart_of_head (h : ∀ c ∈ s.head?, isBlank c = false) : trimStart s = s := by
  cases s with
  | nil => rfl
  | cons c s => exact List.dropWhile_cons_of_neg (by simp [h c rfl])

theorem trimEnd_of_getLast (h : ∀ c ∈ s.getLast?, isBlank c = false) : trimEnd s = s := by
  rcases List.eq_nil_or_concat s with rfl | ⟨before, c, rfl⟩
  · rfl
  · rw [List.concat_eq_append] at h ⊢
    exact trimEnd_concat (h c (by simp))

theorem length_trimEnd_le : (trimEnd s).length ≤ s.length := by
  rw [trimEnd, List.length_reverse, ← @List.length_reverse _ s]
  exact length_dropWhile_le _ _

theorem length_trim_le (s : List Char) : (trim s).length ≤ s.length :=
  length_trimEnd_le.trans (length_dropWhile_le _ _)

theorem head_trimStart : ∀ c ∈ (trimStart s).head?, isBlank c = false := by
  intro c hc
  have hhead := List.head?_dropWhile_not isBlank s
  rw [trimStart] at hc
  rw [Option.mem_def.mp hc] at hhead
  exact hhead

theorem Solid.trimStart_eq (h : Solid s) : trimStart s = s := by
  refine (List.dropWhile_sublist isBlank).eq_of_length_le ?_
  calc s.length = (trim s).length := by rw [h.2]
    _ ≤ (trimStart s).length := length_trimEnd_le

theorem Solid.head (h : Solid s) : ∀ c ∈ s.head?, isBlank c = false := by
  rw [← h.trimStart_eq]
  exact head_trimStart

theorem Solid.last (h : Solid s) : ∀ c ∈ s.getLast?, isBlank c = false := by
  have hend : trimEnd s = s := by
    have htrim := h.2
    rwa [trim, h.trimStart_eq] at htrim
  have hreverse : trimStart s.reverse = s.reverse := by
    rw [← List.reverse_inj, List.reverse_reverse]
    exact hend
  rw [← List.head?_reverse, ← hreverse]
  exact head_trimStart

theorem solid_of_ends (hne : s ≠ []) (hhead : ∀ c ∈ s.head?, isBlank c = false)
    (hlast : ∀ c ∈ s.getLast?, isBlank c = false) : Solid s := by
  refine ⟨hne, ?_⟩
  rw [trim, trimStart_of_head hhead, trimEnd_of_getLast hlast]

theorem solid_of_marks {first last : Char} (hfirst : isBlank first = false) (hlast : isBlank last = false) :
    Solid (first :: s ++ [last]) := by
  refine solid_of_ends (by simp) ?_ ?_
  · intro c hc
    obtain rfl : first = c := by simpa using hc
    exact hfirst
  · intro c hc
    rw [List.getLast?_concat] at hc
    obtain rfl : last = c := by simpa using hc
    exact hlast

theorem Solid.around (hs : Solid s) (ht : Solid t) (between : List Char) : Solid (s ++ (between ++ t)) := by
  refine solid_of_ends (by simp [hs.1]) ?_ ?_
  · rw [List.head?_append_of_ne_nil _ hs.1]
    exact hs.head
  · rw [← List.append_assoc, List.getLast?_append_of_ne_nil _ ht.1]
    exact ht.last

theorem Solid.not_allBlank (h : Solid s) : allBlank s = false := by
  obtain ⟨c, rest, rfl⟩ := List.exists_cons_of_ne_nil h.1
  have hc : isBlank c = false := h.head c rfl
  simp [allBlank, hc]

theorem trim_spaces (h : Solid s) : trim (spaces n ++ s) = s :=
  (trim_append_left (allBlank_spaces n)).trans h.2

end solid

section margin

variable {rest : List (List Char)}

theorem commonStart_prefix_left (s t : List Char) : commonStart s t <+: s := by
  induction s generalizing t with
  | nil => exact List.nil_prefix
  | cons a s ih =>
    cases t with
    | nil => exact List.nil_prefix
    | cons b t =>
      rw [commonStart]
      split
      · exact List.cons_prefix_cons.mpr ⟨rfl, ih t⟩
      · exact List.nil_prefix

theorem commonStart_prefix_right (s t : List Char) : commonStart s t <+: t := by
  induction s generalizing t with
  | nil => exact List.nil_prefix
  | cons a s ih =>
    cases t with
    | nil => exact List.nil_prefix
    | cons b t =>
      rw [commonStart]
      split
      · next heq => exact List.cons_prefix_cons.mpr ⟨heq, ih t⟩
      · exact List.nil_prefix

theorem foldl_commonStart_prefix : ∀ l ∈ s :: rest, rest.foldl commonStart s <+: l := by
  induction rest generalizing s with
  | nil => simp
  | cons t rest ih =>
    have hfold := ih (s := commonStart s t)
    have hboth : rest.foldl commonStart (commonStart s t) <+: commonStart s t := hfold _ List.mem_cons_self
    rintro l (_ | ⟨_, _ | ⟨_, hl⟩⟩)
    · exact hboth.trans (commonStart_prefix_left s t)
    · exact hboth.trans (commonStart_prefix_right s t)
    · exact hfold l (List.mem_cons_of_mem _ hl)

theorem mem_leads (hl : l ∈ ls) (hblank : allBlank l = false) :
    lead l ∈ (ls.filter fun l => !allBlank l).map lead :=
  List.mem_map_of_mem (List.mem_filter.mpr ⟨hl, by simp [hblank]⟩)

/-- The margin starts every line that is not blank. -/
theorem margin_prefix (hl : l ∈ ls) (hblank : allBlank l = false) : margin ls <+: lead l := by
  have hlead := mem_leads hl hblank
  unfold margin
  split
  · exact List.nil_prefix
  · next first rest heq => exact foldl_commonStart_prefix _ (heq ▸ hlead)

theorem allBlank_lead (l : List Char) : allBlank (lead l) = true :=
  List.all_eq_true.mpr fun c hc => by
    have hmarginal : isMarginal c = true := List.mem_takeWhile_imp hc
    rcases (Bool.or_eq_true _ _).mp hmarginal with h | h <;> rw [beq_iff_eq.mp h] <;> rfl

theorem exists_dropMargin (hl : l ∈ ls) (hblank : allBlank l = false) :
    l = margin ls ++ dropMargin (margin ls) l ∧ allBlank (margin ls) = true := by
  obtain ⟨rest, hrest⟩ := margin_prefix hl hblank
  have hlead := allBlank_lead l
  rw [← hrest, allBlank_append, Bool.and_eq_true] at hlead
  have hprefix : margin ls <+: l := ⟨rest ++ l.dropWhile isMarginal, by
    rw [← List.append_assoc, hrest]
    exact List.takeWhile_append_dropWhile⟩
  obtain ⟨after, hafter⟩ := hprefix
  have hdrop : dropMargin (margin ls) l = after := by
    rw [dropMargin, hblank, List.isPrefixOf?_eq_some_iff_append_eq.mpr hafter]
    rfl
  exact ⟨by rw [hdrop, hafter], hlead.1⟩

theorem isMarginal_iff {c : Char} : isMarginal c = true ↔ c = ' ' ∨ c = '\t' := by
  simp [isMarginal]

theorem isMarginal_of_mem_lead {c : Char} (hc : c ∈ lead l) : isMarginal c = true :=
  List.mem_takeWhile_imp hc

theorem lead_append (hm : ∀ c ∈ m, isMarginal c = true) : lead (m ++ l) = m ++ lead l :=
  List.takeWhile_append_of_pos hm

/-- What two texts both start with, their common start starts with. -/
theorem prefix_commonStart (hs : m <+: s) (ht : m <+: t) : m <+: commonStart s t := by
  induction m generalizing s t with
  | nil => exact List.nil_prefix
  | cons c m ih =>
    obtain ⟨s, rfl⟩ := hs
    obtain ⟨t, rfl⟩ := ht
    rw [List.cons_append, List.cons_append, commonStart, if_pos rfl, List.cons_prefix_cons]
    exact ⟨rfl, ih (List.prefix_append m s) (List.prefix_append m t)⟩

theorem prefix_foldl_commonStart (h : ∀ l ∈ s :: rest, m <+: l) : m <+: rest.foldl commonStart s := by
  induction rest generalizing s with
  | nil => exact h s List.mem_cons_self
  | cons t rest ih =>
    obtain ⟨hs, hrest⟩ := List.forall_mem_cons.mp h
    obtain ⟨ht, hrest⟩ := List.forall_mem_cons.mp hrest
    exact ih (List.forall_mem_cons.mpr ⟨prefix_commonStart hs ht, hrest⟩)

theorem isMarginal_of_mem_margin {c : Char} (hc : c ∈ margin ls) : isMarginal c = true := by
  unfold margin at hc
  split at hc
  · cases hc
  · next first rest heq =>
    have hfirst : first ∈ (ls.filter fun l => !allBlank l).map lead := heq ▸ List.mem_cons_self
    obtain ⟨l, _, rfl⟩ := List.mem_map.mp hfirst
    have hshared : rest.foldl commonStart (lead l) <+: lead l := foldl_commonStart_prefix _ List.mem_cons_self
    exact isMarginal_of_mem_lead (hshared.subset hc)

/-- Any run of spaces and tabs that starts the lines that are not blank starts the margin. -/
theorem prefix_margin (hsome : ∃ l ∈ ls, allBlank l = false) (hm : ∀ c ∈ m, isMarginal c = true)
    (hstarts : ∀ l ∈ ls, allBlank l = false → m <+: l) : m <+: margin ls := by
  have hleads : ∀ start ∈ (ls.filter fun l => !allBlank l).map lead, m <+: start := by
    intro start hstart
    obtain ⟨l, hl, rfl⟩ := List.mem_map.mp hstart
    obtain ⟨hl, hblank⟩ := List.mem_filter.mp hl
    obtain ⟨rest, rfl⟩ := hstarts l hl (by simpa using hblank)
    rw [lead_append hm]
    exact List.prefix_append m _
  obtain ⟨l, hl, hblank⟩ := hsome
  have hlead := mem_leads hl hblank
  unfold margin
  split
  · next heq => simp [heq] at hlead
  · next first rest heq => exact prefix_foldl_commonStart (heq ▸ hleads)

end margin

section offsets

def bytes (s : List Char) : List UInt8 :=
  s.flatMap String.utf8EncodeChar

/-- The part of a text before a byte offset; none where the offset is inside a character or past the end. -/
def upToByte? : Nat → List Char → Option (List Char)
  | 0, _ => some []
  | _ + 1, [] => none
  | n + 1, c :: s => if c.utf8Size ≤ n + 1 then (upToByte? (n + 1 - c.utf8Size) s).map (c :: ·) else none

theorem upToByte?_of_prefix (h : s <+: t) : upToByte? (byteLength s) t = some s := by
  obtain ⟨rest, rfl⟩ := h
  induction s with
  | nil => cases rest <;> rfl
  | cons c s ih =>
    obtain ⟨n, hn⟩ := Nat.exists_eq_add_of_lt c.utf8Size_pos
    have hlength : byteLength (c :: s) = n + byteLength s + 1 := by
      rw [byteLength_cons]
      omega
    have hrest : n + byteLength s + 1 - c.utf8Size = byteLength s := by omega
    rw [hlength, List.cons_append, upToByte?, if_pos (by omega), hrest, ih]
    rfl

/-- The spaces and tabs before a line, cut off where its other characters begin. -/
def leadAt? (line : List Char) : Option (List Char) :=
  upToByte? (byteLength line - byteLength (line.dropWhile isMarginal)) line

/-- How many bytes two texts both start with. -/
def sharedBytes (s t : List Char) : Nat :=
  (((bytes s).zip (bytes t)).takeWhile fun pair => pair.1 == pair.2).length

def commonStartAt? (s t : List Char) : Option (List Char) :=
  upToByte? (sharedBytes s t) s

/-- The margin of the lines read so far and of one more. -/
def narrow? (current : Option (List Char)) (line : List Char) : Option (Option (List Char)) := do
  let lead ← leadAt? line
  match current with
  | none => return some lead
  | some current => return some (← commonStartAt? current lead)

/-- A text without its margin, where every cut is made at a byte offset that is computed from lengths. -/
def dedentAt? (s : List Char) : Option (List Char) := do
  let margin ← (nonBlank (lines s)).foldlM narrow? none
  return join ['\n'] ((lines s).map (dropMargin (margin.getD [])))

theorem leadAt?_eq (line : List Char) : leadAt? line = some (lead line) := by
  have hline : lead line ++ line.dropWhile isMarginal = line := List.takeWhile_append_dropWhile
  have hlength : byteLength line = byteLength (lead line) + byteLength (line.dropWhile isMarginal) := by
    rw [← byteLength_append, hline]
  have hoffset : byteLength line - byteLength (line.dropWhile isMarginal) = byteLength (lead line) := by omega
  rw [leadAt?, hoffset]
  exact upToByte?_of_prefix (List.takeWhile_prefix isMarginal)

theorem bytes_cons_of_isMarginal {c : Char} (hc : isMarginal c = true) : bytes (c :: s) = c.toUInt8 :: bytes s := by
  rcases isMarginal_iff.mp hc with rfl | rfl <;> rfl

/-- Spaces and tabs are told apart by their bytes. -/
theorem toUInt8_beq_of_isMarginal {a b : Char} (ha : isMarginal a = true) (hb : isMarginal b = true) :
    (a.toUInt8 == b.toUInt8) = decide (a = b) := by
  rcases isMarginal_iff.mp ha with rfl | rfl <;> rcases isMarginal_iff.mp hb with rfl | rfl <;> decide

/-- Between spaces and tabs, as many bytes are shared as the shared characters take. -/
theorem sharedBytes_eq (hs : ∀ c ∈ s, isMarginal c = true) (ht : ∀ c ∈ t, isMarginal c = true) :
    sharedBytes s t = byteLength (commonStart s t) := by
  induction s generalizing t with
  | nil => rfl
  | cons a s ih =>
    cases t with
    | nil =>
      rw [sharedBytes, bytes, bytes, List.flatMap_nil, List.zip_nil_right]
      rfl
    | cons b t =>
      obtain ⟨ha, hs⟩ := List.forall_mem_cons.mp hs
      obtain ⟨hb, ht⟩ := List.forall_mem_cons.mp ht
      have hrest := ih hs ht
      rw [sharedBytes] at hrest
      rw [sharedBytes, bytes_cons_of_isMarginal ha, bytes_cons_of_isMarginal hb, List.zip_cons_cons,
        List.takeWhile_cons, toUInt8_beq_of_isMarginal ha hb, commonStart]
      by_cases hab : a = b
      · have hone : a.utf8Size = 1 := by rcases isMarginal_iff.mp ha with rfl | rfl <;> rfl
        rw [decide_eq_true hab, if_pos rfl, if_pos hab, List.length_cons, hrest, byteLength_cons, hone, Nat.add_comm]
      · rw [decide_eq_false hab, if_neg Bool.false_ne_true, if_neg hab]
        rfl

theorem commonStartAt?_eq (hs : ∀ c ∈ s, isMarginal c = true) (ht : ∀ c ∈ t, isMarginal c = true) :
    commonStartAt? s t = some (commonStart s t) := by
  rw [commonStartAt?, sharedBytes_eq hs ht]
  exact upToByte?_of_prefix (commonStart_prefix_left s t)

theorem narrow?_some (hs : ∀ c ∈ s, isMarginal c = true) :
    narrow? (some s) l = some (some (commonStart s (lead l))) := by
  simp only [narrow?, leadAt?_eq, Option.bind_eq_bind, Option.bind_some,
    commonStartAt?_eq hs fun _ => isMarginal_of_mem_lead, Option.pure_def]

theorem foldlM_narrow? (hs : ∀ c ∈ s, isMarginal c = true) :
    ls.foldlM narrow? (some s) = some (some ((ls.map lead).foldl commonStart s)) := by
  induction ls generalizing s with
  | nil => rfl
  | cons l ls ih =>
    rw [List.foldlM_cons, narrow?_some hs]
    exact ih fun c hc => hs c ((commonStart_prefix_left s (lead l)).subset hc)

theorem exists_foldlM_narrow? (ls : List (List Char)) :
    ∃ found, (nonBlank ls).foldlM narrow? none = some found ∧ found.getD [] = margin ls := by
  unfold margin
  rw [← nonBlank]
  cases nonBlank ls with
  | nil => exact ⟨none, rfl, rfl⟩
  | cons first rest =>
    have hfirst : narrow? none first = some (some (lead first)) := by
      rw [narrow?, leadAt?_eq]
      rfl
    refine ⟨some ((rest.map lead).foldl commonStart (lead first)), ?_, rfl⟩
    rw [List.foldlM_cons, hfirst]
    exact foldlM_narrow? fun _ => isMarginal_of_mem_lead

/-- Every offset is the end of a character. -/
theorem dedentAt?_eq (s : List Char) : dedentAt? s = some (dedent s) := by
  obtain ⟨found, hfound, hmargin⟩ := exists_foldlM_narrow? (lines s)
  rw [dedentAt?, hfound, dedent, ← hmargin]
  rfl

end offsets

section dedent

/-- What is left of a line when the run `m` is taken from its start: nothing of a blank line, and of another line the
rest, which begins as far from the run as before. -/
def Leaves (m line piece : List Char) : Prop :=
  if allBlank line then piece = [] else line = m ++ piece ∧ lead line = m ++ lead piece

/-- Line by line the pieces are left when the run `m` is taken away, and no space or tab is left that all of them start
with. -/
structure TakesMargin (m : List Char) (ls pieces : List (List Char)) : Prop where
  marginal : ∀ c ∈ m, isMarginal c = true
  leaves : List.Forall₂ (Leaves m) ls pieces
  widest : (∃ l ∈ ls, allBlank l = false) →
    ¬ ∃ c, isMarginal c = true ∧ ∀ piece ∈ pieces, allBlank piece = false → piece.head? = some c

theorem leaves_dropMargin (hl : l ∈ ls) : Leaves (margin ls) l (dropMargin (margin ls) l) := by
  unfold Leaves
  split
  · next hblank => rw [dropMargin, if_pos hblank]
  · next hblank =>
    obtain ⟨hline, _⟩ := exists_dropMargin hl (by simpa using hblank)
    refine ⟨hline, ?_⟩
    conv => lhs; rw [hline]
    exact lead_append fun _ => isMarginal_of_mem_margin

theorem takesMargin_map_dropMargin (ls : List (List Char)) :
    TakesMargin (margin ls) ls (ls.map (dropMargin (margin ls))) where
  marginal _ := isMarginal_of_mem_margin
  leaves := by
    rw [List.forall₂_map_right_iff, List.forall₂_same]
    exact fun l => leaves_dropMargin
  widest := by
    rintro hsome ⟨c, hc, hall⟩
    -- A space or tab more than the margin would start every line, but the margin is the longest run that does.
    have hlonger : margin ls ++ [c] <+: margin ls := by
      refine prefix_margin hsome (fun d hd => ?_) fun l hl hblank => ?_
      · rcases List.mem_append.mp hd with hd | hd
        · exact isMarginal_of_mem_margin hd
        · exact List.mem_singleton.mp hd ▸ hc
      · obtain ⟨hline, hmargin⟩ := exists_dropMargin hl hblank
        have hpiece : allBlank (dropMargin (margin ls) l) = false := (allBlank_dropMargin hmargin).trans hblank
        obtain ⟨rest, hrest⟩ := List.head?_eq_some_iff.mp (hall _ (List.mem_map_of_mem hl) hpiece)
        exact ⟨rest, by rw [List.append_assoc, List.singleton_append, ← hrest, ← hline]⟩
    exact absurd hlonger.length_le (by simp)

/-- Every line of a text loses the longest run of spaces and tabs that all but the blank ones start with, and stays
where it is; each run is cut off between two characters. -/
theorem dedent_takes_common_margin (s : List Char) (hs : lines s ≠ []) :
    (∃ m, TakesMargin m (lines s) (cut (· == '\n') (dedent s))) ∧ dedentAt? s = some (dedent s) := by
  have hpieces : cut (· == '\n') (dedent s) = (lines s).map (dropMargin (margin (lines s))) := by
    refine cut_join (by simpa using hs) fun l hl c hc => ?_
    obtain ⟨line, hline, rfl⟩ := List.mem_map.mp hl
    exact not_of_mem_lines hline c (dropMargin_subset hc)
  exact ⟨⟨_, hpieces ▸ takesMargin_map_dropMargin (lines s)⟩, dedentAt?_eq s⟩

/-- Tabs and spaces, a no-break space alone in its line, and lines that end in different ways. -/
theorem dedent_takes_mixed_margin : lines "\t  x\r\n\u00a0\n\t y".toList ≠ [] ∧
    (∃ m, TakesMargin m (lines "\t  x\r\n\u00a0\n\t y".toList)
      (cut (· == '\n') (dedent "\t  x\r\n\u00a0\n\t y".toList))) ∧
      dedentAt? "\t  x\r\n\u00a0\n\t y".toList = some (dedent "\t  x\r\n\u00a0\n\t y".toList) :=
  ⟨by decide, dedent_takes_common_margin _ (by decide)⟩

example : dedent "\t  x\r\n\u00a0\n\t y".toList = " x\n\ny".toList := by decide

end dedent

end Hypermedia.Text
