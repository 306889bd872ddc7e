import Hypermedia.Action.Descriptor
import Hypermedia.Proofs.Text.Words

/-! The written forms of action lists. A text is read as a list of instructions exactly if it is a written
form of that list, and the printed instructions, put together, are one. -/
namespace Hypermedia.Action

/-- A word that an instruction may carry. -/
def IsToken (s : String) : Prop :=
  s.toList ≠ [] ∧ ∀ c ∈ s.toList, Text.isBlank c = false ∧ c ≠ ';'

namespace Instruction

/-- What follows the verb of an instruction. -/
def arguments (i : Instruction) : List String :=
  i.modifier.toList ++ [i.argument]

/-- The modifiers that verbs allow and need. -/
def Modified : Verb → Option String → Prop
  | .swap, some m => m = "in" ∨ m = "before" ∨ m = "after"
  | .insert, some m => m = "in" ∨ m = "before" ∨ m = "after"
  | .insert, none => False
  | .append, some m => m = "in"
  | .select, some _ => False
  | _, _ => True

structure WellFormed (i : Instruction) : Prop where
  tokens : ∀ token ∈ i.arguments, IsToken token
  modified : Modified i.verb i.modifier

/-- A line that spells an instruction: the words that are printed, the verb in letters of any case. -/
inductive Spells (i : Instruction) : List Char → Prop where
  | mk {before verb body} (padded : Text.Padding before)
      (named : verb.map Char.toUpper = i.verb.text.toList)
      (spaced : Text.Spaced (verb :: i.arguments.map String.toList) body) : Spells i (before ++ body)

end Instruction

open Instruction (Spells)

/-- Lines that spell instructions, one after another, with blank lines among them. -/
inductive Segments : List Instruction → List (List Char) → Prop where
  | nil : Segments [] []
  | blank {is line lines} (padded : Text.Padding line) (rest : Segments is lines) :
      Segments is (line :: lines)
  | step {i is line lines} (spelled : Spells i line) (rest : Segments is lines) :
      Segments (i :: is) (line :: lines)

/-- Pieces with a semicolon or a line feed between any two of them. -/
inductive Separated : List (List Char) → List Char → Prop where
  | last {piece} : Separated [piece] piece
  | more {piece c pieces rest} (separator : c = ';' ∨ c = '\n') (next : Separated pieces rest) :
      Separated (piece :: pieces) (piece ++ c :: rest)

def Writes (is : List Instruction) (s : List Char) : Prop :=
  ∃ lines, Segments is lines ∧ Separated lines s

/-- The printed instructions with a separator between any two of them. -/
def print (separator : Char) (is : List Instruction) : String :=
  String.ofList (Text.join [separator] (is.map (·.text.toList)))

section separators

variable {c : Char} {s : List Char} {lines : List (List Char)} {is : List Instruction}
  {i : Instruction}

theorem isSeparator_iff : isSeparator c = true ↔ c = ';' ∨ c = '\n' := by
  simp [isSeparator]

theorem not_isSeparator_iff : isSeparator c = false ↔ c ≠ ';' ∧ c ≠ '\n' := by
  simp [isSeparator]

theorem separated_cut (s : List Char) : Separated (Text.cut isSeparator s) s := by
  induction s with
  | nil => exact .last
  | cons c s ih =>
    rw [Text.cut]
    split
    · next hc =>
      change Separated ([] :: _) ([] ++ c :: s)
      exact .more (isSeparator_iff.mp hc) ih
    · generalize Text.cut isSeparator s = pieces at ih
      cases ih with
      | last => exact .last
      | @more piece d pieces rest separator next =>
        change Separated ((c :: piece) :: pieces) ((c :: piece) ++ d :: rest)
        exact .more separator next

theorem cut_of_separated (h : Separated lines s)
    (hlines : ∀ line ∈ lines, ∀ c ∈ line, isSeparator c = false) : Text.cut isSeparator s = lines := by
  induction h with
  | last => exact Text.cut_of_forall_not (hlines _ List.mem_cons_self)
  | more separator _ ih =>
    obtain ⟨hpiece, hrest⟩ := List.forall_mem_cons.mp hlines
    rw [Text.cut_append_cons (isSeparator_iff.mpr separator), Text.cut_of_forall_not hpiece, ih hrest]
    rfl

end separators

section verbs

variable {token : List Char} {v : Verb}

theorem Verb.ofToken?_eq_some_iff :
    Verb.ofToken? token = some v ↔ token.map Char.toUpper = v.text.toList := by
  constructor
  · intro h
    have hfound := List.find?_some h
    exact (beq_iff_eq.mp hfound).symm
  · intro h
    unfold Verb.ofToken?
    rw [h]
    cases v <;> decide

theorem plain_of_lower {c : Char} (h : 'a'.val ≤ c.val ∧ c.val ≤ 'z'.val) :
    Text.isBlank c = false ∧ isSeparator c = false := by
  have hlow : 97 ≤ c.toNat := h.1
  have hhigh : c.toNat ≤ 122 := h.2
  constructor
  · simp only [Text.isBlank, Bool.or_eq_false_iff, Bool.and_eq_false_iff, decide_eq_false_iff_not,
      beq_eq_false_iff_ne]
    omega
  · refine not_isSeparator_iff.mpr ⟨?_, ?_⟩ <;> rintro rfl <;> exact absurd hlow (by decide)

/-- No letter of a verb is a blank or a separator, whatever its case. -/
theorem plain_of_named (h : token.map Char.toUpper = v.text.toList) :
    token ≠ [] ∧ ∀ c ∈ token, Text.isBlank c = false ∧ isSeparator c = false := by
  have hne : v.text.toList ≠ [] := by cases v <;> decide
  have hall : v.text.toList.all (fun c => !Text.isBlank c && !isSeparator c) = true := by
    cases v <;> decide
  refine ⟨fun hnil => hne (by rw [← h, hnil]; rfl), fun c hc => ?_⟩
  have hupper : Text.isBlank c.toUpper = false ∧ isSeparator c.toUpper = false := by
    simpa using List.all_eq_true.mp hall c.toUpper (h ▸ List.mem_map_of_mem hc)
  unfold Char.toUpper at hupper
  split at hupper
  · next hlower => exact plain_of_lower hlower
  · exact hupper

end verbs

section reading

variable {s : List Char} {i : Instruction} {verb : Verb} {arguments : List String}

open Instruction (Modified)

theorem modified_none_iff : Modified verb none ↔ verb.requiresModifier = false := by
  cases verb <;> simp [Modified, Verb.requiresModifier]

theorem modified_some_iff {m : String} :
    Modified verb (some m) ↔ 2 ≤ verb.maxArguments ∧ verb.admits m = true := by
  cases verb <;> simp [Modified, Verb.maxArguments, Verb.admits, Verb.legalModifiers]

theorem instruction_one_iff {a : String} :
    instruction verb [a] = .ok i ↔ verb.requiresModifier = false ∧ i = { verb, argument := a } := by
  have hmax : 1 ≤ verb.maxArguments := by cases verb <;> decide
  have hfew : ¬ verb.maxArguments < [a].length := Nat.not_lt_of_le hmax
  unfold instruction
  rw [if_neg hfew]
  dsimp only
  split
  · next hrequired => simp [hrequired]
  · next hfree => simp [Bool.eq_false_iff.mpr hfree, eq_comm]

theorem instruction_two_iff {m a : String} :
    instruction verb [m, a] = .ok i ↔ (2 ≤ verb.maxArguments ∧ verb.admits m = true) ∧
      i = { verb, argument := a, modifier := some m } := by
  unfold instruction
  split
  · next hmany =>
    have hfew : ¬ 2 ≤ verb.maxArguments := Nat.not_le_of_lt hmany
    simp [hfew]
  · next hmany =>
    have hfew : 2 ≤ verb.maxArguments := Nat.le_of_not_lt hmany
    dsimp only
    split
    · next hadmits => simp [hfew, hadmits, eq_comm]
    · next hnot => simp [hnot]

/-- What is read from the words after a verb. -/
theorem instruction_eq_ok_iff :
    instruction verb arguments = .ok i ↔
      verb = i.verb ∧ arguments = i.arguments ∧ Modified i.verb i.modifier := by
  obtain ⟨iverb, argument, modifier⟩ := i
  match arguments with
  | [] => cases modifier <;> simp [instruction, Instruction.arguments]
  | [a] =>
    rw [instruction_one_iff, ← modified_none_iff]
    cases modifier <;> simp only [Instruction.arguments] <;> grind
  | [m, a] =>
    rw [instruction_two_iff, ← modified_some_iff]
    cases modifier <;> simp only [Instruction.arguments] <;> grind
  | m :: a :: b :: rest =>
    have hmax : verb.maxArguments ≤ 2 := by cases verb <;> decide
    unfold instruction
    rw [if_pos (Nat.lt_of_le_of_lt hmax (by simp))]
    cases modifier <;> simp [Instruction.arguments]

theorem readInstruction_eq_ok_iff_words :
    readInstruction s = .ok i ↔ ∃ token, Text.words s = token :: i.arguments.map String.toList ∧
      token.map Char.toUpper = i.verb.text.toList ∧ Modified i.verb i.modifier := by
  unfold readInstruction
  split
  · next hwords => simp [hwords]
  · next token arguments hwords =>
    have hlists : arguments.map String.ofList = i.arguments ↔
        arguments = i.arguments.map String.toList := by
      constructor
      · intro h
        simp [← h, Function.comp_def]
      · rintro rfl
        simp [Function.comp_def]
    split
    · next hnone =>
      constructor
      · nofun
      · rintro ⟨_, hcons, hnamed, -⟩
        obtain ⟨rfl, -⟩ := List.cons_eq_cons.mp (hwords.symm.trans hcons)
        rw [Verb.ofToken?_eq_some_iff.mpr hnamed] at hnone
        cases hnone
    · next verb hverb =>
      rw [instruction_eq_ok_iff, hlists]
      rw [Verb.ofToken?_eq_some_iff] at hverb
      constructor
      · rintro ⟨rfl, harguments, hmodified⟩
        exact ⟨token, harguments ▸ hwords, hverb, hmodified⟩
      · rintro ⟨_, hcons, hnamed, hmodified⟩
        obtain ⟨rfl, harguments⟩ := List.cons_eq_cons.mp (hwords.symm.trans hcons)
        refine ⟨?_, harguments, hmodified⟩
        rw [← Verb.ofToken?_eq_some_iff] at hverb hnamed
        exact Option.some.inj (hverb.symm.trans hnamed)

/-- The words of a line that spells an instruction. -/
theorem Instruction.WellFormed.words_eq (hi : i.WellFormed) {body : List Char} {token : List Char}
    (hnamed : token.map Char.toUpper = i.verb.text.toList)
    (h : Text.Spaced (token :: i.arguments.map String.toList) body) :
    Text.words body = token :: i.arguments.map String.toList := by
  refine Text.words_of_spaced h (List.forall_mem_cons.mpr ⟨?_, fun w hw => ?_⟩)
  · obtain ⟨hne, hplain⟩ := plain_of_named hnamed
    exact ⟨hne, fun c hc => (hplain c hc).1⟩
  · obtain ⟨argument, hargument, rfl⟩ := List.mem_map.mp hw
    obtain ⟨hne, hplain⟩ := hi.tokens argument hargument
    exact ⟨hne, fun c hc => (hplain c hc).1⟩

/-- A line without separators is read as an instruction exactly if it spells it. -/
theorem readInstruction_eq_ok_iff (hs : ∀ c ∈ s, isSeparator c = false) :
    readInstruction s = .ok i ↔ i.WellFormed ∧ Spells i s := by
  rw [readInstruction_eq_ok_iff_words]
  constructor
  · rintro ⟨token, hwords, hnamed, hmodified⟩
    obtain ⟨before, body, rfl, hpadded, hspaced, -⟩ :=
      Text.exists_spaced (fun c hc => (not_isSeparator_iff.mp (hs c hc)).2) hwords
    refine ⟨⟨fun argument hargument => ?_, hmodified⟩, .mk hpadded hnamed hspaced⟩
    have hmem : argument.toList ∈ Text.words (before ++ body) := by
      rw [hwords]
      exact List.mem_cons_of_mem _ (List.mem_map_of_mem hargument)
    obtain ⟨hne, hplain⟩ := Text.mem_words hmem
    exact ⟨hne, fun c hc =>
      ⟨hplain c hc, (not_isSeparator_iff.mp (hs c (Text.subset_of_mem_words hmem hc))).1⟩⟩
  · rintro ⟨hi, @⟨before, token, body, hpadded, hnamed, hspaced⟩⟩
    refine ⟨token, ?_, hnamed, hi.modified⟩
    rw [Text.words_append_of_forall fun c hc => (hpadded c hc).1, hi.words_eq hnamed hspaced]

end reading

section lists

variable {s : List Char} {lines : List (List Char)} {is : List Instruction} {i : Instruction}

theorem readInstruction_trim : readInstruction (Text.trim s) = readInstruction s := by
  rw [readInstruction, Text.words_trim, readInstruction]

theorem plain_of_padding (h : Text.Padding s) : ∀ c ∈ s, isSeparator c = false := by
  intro c hc
  refine not_isSeparator_iff.mpr ⟨?_, (h c hc).2⟩
  rintro rfl
  exact absurd (h _ hc).1 (by decide)

theorem plain_of_spaced {ws : List (List Char)} (h : Text.Spaced ws s)
    (hws : ∀ w ∈ ws, ∀ c ∈ w, isSeparator c = false) : ∀ c ∈ s, isSeparator c = false := by
  induction h with
  | last padded =>
    exact List.forall_mem_append.mpr ⟨hws _ List.mem_cons_self, plain_of_padding padded⟩
  | more padded _ _ ih =>
    obtain ⟨hword, hrest⟩ := List.forall_mem_cons.mp hws
    exact List.forall_mem_append.mpr
      ⟨List.forall_mem_append.mpr ⟨hword, plain_of_padding padded⟩, ih hrest⟩

theorem plain_of_spells (hi : i.WellFormed) (h : Spells i s) : ∀ c ∈ s, isSeparator c = false := by
  obtain ⟨hpadded, hnamed, hspaced⟩ := h
  refine List.forall_mem_append.mpr ⟨plain_of_padding hpadded, plain_of_spaced hspaced ?_⟩
  refine List.forall_mem_cons.mpr ⟨fun c hc => ((plain_of_named hnamed).2 c hc).2, fun w hw c hc => ?_⟩
  obtain ⟨argument, hargument, rfl⟩ := List.mem_map.mp hw
  obtain ⟨hblank, hsemicolon⟩ := (hi.tokens argument hargument).2 c hc
  refine not_isSeparator_iff.mpr ⟨hsemicolon, ?_⟩
  rintro rfl
  exact absurd hblank (by decide)

/-- Neither blank lines nor lines that spell instructions hold a separator. -/
theorem Segments.plain (h : Segments is lines) (his : ∀ i ∈ is, i.WellFormed) :
    ∀ line ∈ lines, ∀ c ∈ line, isSeparator c = false := by
  induction h with
  | nil => simp
  | blank padded _ ih => exact List.forall_mem_cons.mpr ⟨plain_of_padding padded, ih his⟩
  | step spelled _ ih =>
    obtain ⟨hi, his⟩ := List.forall_mem_cons.mp his
    exact List.forall_mem_cons.mpr ⟨plain_of_spells hi spelled, ih his⟩

theorem mapM_cons_eq_ok_iff {α β ε : Type} {f : α → Except ε β} {x : α} {xs : List α} {ys : List β} :
    (x :: xs).mapM f = .ok ys ↔ ∃ y ys', f x = .ok y ∧ xs.mapM f = .ok ys' ∧ ys = y :: ys' := by
  rw [List.mapM_cons]
  cases hx : f x with
  | error e => simp [bind, Except.bind]
  | ok y =>
    cases hxs : xs.mapM f with
    | error e => simp [bind, Except.bind]
    | ok ys' => simp [bind, Except.bind, pure, Except.pure, eq_comm]

theorem segments_blank_iff (hs : ∀ c ∈ s, Text.isBlank c = true) (hline : ∀ c ∈ s, isSeparator c = false) :
    (∀ i ∈ is, i.WellFormed) ∧ Segments is (s :: lines) ↔
      (∀ i ∈ is, i.WellFormed) ∧ Segments is lines := by
  refine and_congr_right fun his => ⟨fun h => ?_, .blank fun c hc =>
    ⟨hs c hc, (not_isSeparator_iff.mp (hline c hc)).2⟩⟩
  cases h with
  | blank _ rest => exact rest
  | step spelled _ =>
    obtain ⟨hi, -⟩ := List.forall_mem_cons.mp his
    have hread := (readInstruction_eq_ok_iff hline).mpr ⟨hi, spelled⟩
    obtain ⟨token, hwords, -⟩ := readInstruction_eq_ok_iff_words.mp hread
    rw [Text.words_of_forall hs] at hwords
    cases hwords

theorem segments_step_iff (hs : ¬ ∀ c ∈ s, Text.isBlank c = true) :
    Segments is (s :: lines) ↔ ∃ i js, Spells i s ∧ Segments js lines ∧ is = i :: js := by
  constructor
  · intro h
    cases h with
    | blank padded _ => exact absurd (fun c hc => (padded c hc).1) hs
    | step spelled rest => exact ⟨_, _, spelled, rest, rfl⟩
  · rintro ⟨i, js, hspelled, hrest, rfl⟩
    exact .step hspelled hrest

/-- Lines are read as instructions, blank ones left out, exactly if they spell them. -/
theorem mapM_readInstruction_eq_ok_iff (hlines : ∀ line ∈ lines, ∀ c ∈ line, isSeparator c = false) :
    ((lines.map Text.trim).filter (fun line => !line.isEmpty)).mapM readInstruction = .ok is ↔
      (∀ i ∈ is, i.WellFormed) ∧ Segments is lines := by
  induction lines generalizing is with
  | nil =>
    constructor
    · rintro ⟨⟩
      exact ⟨by simp, .nil⟩
    · rintro ⟨-, ⟨⟩⟩
      rfl
  | cons line lines ih =>
    obtain ⟨hline, hlines⟩ := List.forall_mem_cons.mp hlines
    rw [List.map_cons]
    by_cases hblank : ∀ c ∈ line, Text.isBlank c = true
    · rw [List.filter_cons_of_neg (by simp [Text.trim_eq_nil_iff.mpr hblank]), ih hlines,
        segments_blank_iff hblank hline]
    · have hne : Text.trim line ≠ [] := fun h => hblank (Text.trim_eq_nil_iff.mp h)
      rw [List.filter_cons_of_pos (by simpa using hne), mapM_cons_eq_ok_iff, segments_step_iff hblank]
      simp only [readInstruction_trim, readInstruction_eq_ok_iff hline, ih hlines]
      constructor
      · rintro ⟨i, js, ⟨hi, hspelled⟩, ⟨hjs, hrest⟩, rfl⟩
        exact ⟨List.forall_mem_cons.mpr ⟨hi, hjs⟩, i, js, hspelled, hrest, rfl⟩
      · rintro ⟨his, i, js, hspelled, hrest, rfl⟩
        obtain ⟨hi, hjs⟩ := List.forall_mem_cons.mp his
        exact ⟨i, js, ⟨hi, hspelled⟩, ⟨hjs, hrest⟩, rfl⟩

theorem compile_eq_ok_iff {t : String} :
    compile t = .ok is ↔ (∀ i ∈ is, i.WellFormed) ∧ Writes is t.toList := by
  unfold compile segments
  have hplain : ∀ line ∈ Text.cut isSeparator t.toList, ∀ c ∈ line, isSeparator c = false :=
    fun _ => Text.not_of_mem_cut
  rw [mapM_readInstruction_eq_ok_iff hplain]
  refine and_congr_right fun his => ⟨fun h => ⟨_, h, separated_cut _⟩, ?_⟩
  rintro ⟨lines, hlines, hseparated⟩
  rwa [cut_of_separated hseparated (hlines.plain his)]

end lists

section print

variable {i : Instruction} {is : List Instruction} {separator : Char}

theorem padding_space : Text.Padding [' '] := by
  intro c hc
  rw [List.mem_singleton.mp hc]
  decide

/-- An instruction is spelled as it is printed. -/
theorem spells_text (i : Instruction) : Spells i i.text.toList := by
  have hnamed : i.verb.text.toList.map Char.toUpper = i.verb.text.toList := by
    cases i.verb <;> decide
  have hlast : Text.Spaced [i.argument.toList] (i.argument.toList ++ []) := .last (by simp [Text.Padding])
  have hgap : [' '] ≠ [] := List.cons_ne_nil _ _
  cases hm : i.modifier with
  | none =>
    have htext : i.text.toList = [] ++ (i.verb.text.toList ++ [' '] ++ (i.argument.toList ++ [])) := by
      simp [Instruction.text, hm]
    rw [htext]
    refine .mk (by simp [Text.Padding]) hnamed ?_
    rw [Instruction.arguments, hm]
    exact .more padding_space hgap hlast
  | some m =>
    have htext : i.text.toList = [] ++ (i.verb.text.toList ++ [' '] ++
        (m.toList ++ [' '] ++ (i.argument.toList ++ []))) := by
      simp [Instruction.text, hm]
    rw [htext]
    refine .mk (by simp [Text.Padding]) hnamed ?_
    rw [Instruction.arguments, hm]
    exact .more padding_space hgap (.more padding_space hgap hlast)

theorem segments_texts (is : List Instruction) : Segments is (is.map (·.text.toList)) := by
  induction is with
  | nil => exact .nil
  | cons i is ih => exact .step (spells_text i) ih

theorem separated_join (hc : separator = ';' ∨ separator = '\n') (piece : List Char)
    (pieces : List (List Char)) :
    Separated (piece :: pieces) (Text.join [separator] (piece :: pieces)) := by
  induction pieces generalizing piece with
  | nil =>
    rw [Text.join, List.intercalate_singleton]
    exact .last
  | cons next pieces ih =>
    rw [Text.join, List.intercalate_cons_cons, List.append_assoc]
    exact .more hc (ih next)

/-- What is printed is a written form. -/
theorem writes_print (hc : separator = ';' ∨ separator = '\n') (is : List Instruction) :
    Writes is (print separator is).toList := by
  rw [print, String.toList_ofList]
  cases is with
  | nil => exact ⟨[[]], .blank (by simp [Text.Padding]) .nil, .last⟩
  | cons i is => exact ⟨_, segments_texts (i :: is), separated_join hc _ _⟩

end print

/-- A text is read as a list of instructions exactly if they are well-formed and the text writes them: each
spelled on a line of its own as it is printed, but for the case of the verb and further blanks, the lines
parted by semicolons or line feeds, with blank ones among them. The printed list is such a text, and so what
is read, printed and read again is the same. -/
theorem compile_writes (t : String) (is : List Instruction) :
    (compile t = .ok is ↔ (∀ i ∈ is, i.WellFormed) ∧ Writes is t.toList) ∧
    ∀ separator, separator = ';' ∨ separator = '\n' →
      Writes is (print separator is).toList ∧
      (compile t = .ok is → compile (print separator is) = .ok is) := by
  refine ⟨compile_eq_ok_iff, fun separator hc => ⟨writes_print hc is, fun h => ?_⟩⟩
  have hformed := (compile_eq_ok_iff.mp h).1
  exact compile_eq_ok_iff.mpr ⟨hformed, writes_print hc is⟩

theorem compile_writes_mixed :
    compile " gEt\t#f /a ;;\n swap in #y" =
        .ok [⟨.get, "/a", some "#f"⟩, ⟨.swap, "#y", some "in"⟩] ∧
      compile (print '\n' [⟨.get, "/a", some "#f"⟩, ⟨.swap, "#y", some "in"⟩]) =
        .ok [⟨.get, "/a", some "#f"⟩, ⟨.swap, "#y", some "in"⟩] := by
  have hread : compile " gEt\t#f /a ;;\n swap in #y" =
      .ok [⟨.get, "/a", some "#f"⟩, ⟨.swap, "#y", some "in"⟩] := by decide
  exact ⟨hread, ((compile_writes _ _).2 '\n' (.inr rfl)).2 hread⟩

end Hypermedia.Action
