import Hypermedia.Decimal.Format
import Hypermedia.Decimal.Read
import Hypermedia.Proofs.Lists
import Hypermedia.Proofs.Tree.Matches
import Mathlib.Data.Nat.Digits.Defs

/-! The grammar of selectors: which texts are read, and how compounds are written so that they are read back. -/
namespace Hypermedia

namespace Decimal

variable {n : Nat} {c : Char}

theorem isDigit_of_mem_digitsOf (hc : c ∈ digitsOf n) : c.isDigit = true :=
  Nat.isDigit_of_mem_toDigits (by decide) (by decide) hc

theorem valueOf_digitsOf (n : Nat) : valueOf (digitsOf n) = n :=
  Nat.ofDigitChars_ten_toDigits

theorem natural?_digitsOf (n : Nat) : natural? (digitsOf n) = some n := by
  have hne : digitsOf n ≠ [] := Nat.toDigits_ne_nil
  have hall : (digitsOf n).all Char.isDigit = true := List.all_eq_true.mpr fun _ => isDigit_of_mem_digitsOf
  simp [natural?, hne, hall, valueOf_digitsOf]

theorem index?_digitsOf (h : n < 2 ^ 64) : index? (digitsOf n) = some n := by
  unfold index?
  split
  · next rest heq => exact absurd (isDigit_of_mem_digitsOf (heq ▸ List.mem_cons_self)) (by decide)
  · dsimp only
    rw [natural?_digitsOf]
    exact if_pos h

end Decimal

namespace Compound

variable {c : Compound} {s run : List Char} {m : Char} {marked : List (Char × List Char)}

section pieces

theorem pieces_marked (hm : isMarker m = true) : pieces (m :: s) = ([], (m, (pieces s).1) :: (pieces s).2) := by
  simp [pieces, hm]

theorem pieces_unmarked (hm : isMarker m = false) : pieces (m :: s) = (m :: (pieces s).1, (pieces s).2) := by
  simp [pieces, hm]

theorem pieces_of_forall_not (h : ∀ x ∈ s, isMarker x = false) : pieces s = (s, []) := by
  induction s with
  | nil => rfl
  | cons x s ih =>
    obtain ⟨hx, hs⟩ := List.forall_mem_cons.mp h
    rw [pieces_unmarked hx, ih hs]

theorem fst_pieces (s : List Char) : (pieces s).1 = s.takeWhile (!isMarker ·) := by
  induction s with
  | nil => rfl
  | cons x s ih =>
    cases hx : isMarker x with
    | true => simp [pieces_marked hx, hx]
    | false => simp [pieces_unmarked hx, hx, ih]

/-- A piece is a mark in the text with what follows it up to the next one. -/
theorem mem_pieces_iff : (m, run) ∈ (pieces s).2 ↔
    ∃ before after, s = before ++ m :: after ∧ isMarker m = true ∧ run = after.takeWhile (!isMarker ·) := by
  induction s with
  | nil => simp [pieces]
  | cons x s ih =>
    have hsplit : (∃ before after, x :: s = before ++ m :: after ∧ isMarker m = true ∧
        run = after.takeWhile (!isMarker ·)) ↔
        (x = m ∧ isMarker m = true ∧ run = (pieces s).1) ∨ (m, run) ∈ (pieces s).2 := by
      rw [ih, fst_pieces]
      constructor
      · rintro ⟨before, after, heq, hm, hrun⟩
        cases before with
        | nil =>
          obtain ⟨rfl, rfl⟩ := List.cons_eq_cons.mp heq
          exact .inl ⟨rfl, hm, hrun⟩
        | cons y before =>
          obtain ⟨rfl, rfl⟩ := List.cons_eq_cons.mp heq
          exact .inr ⟨before, after, rfl, hm, hrun⟩
      · rintro (⟨rfl, hm, hrun⟩ | ⟨before, after, rfl, hm, hrun⟩)
        · exact ⟨[], s, rfl, hm, hrun⟩
        · exact ⟨x :: before, after, rfl, hm, hrun⟩
    rw [hsplit]
    cases hx : isMarker x with
    | true =>
      have hhead : m = x ∧ run = (pieces s).1 ↔ x = m ∧ isMarker m = true ∧ run = (pieces s).1 := by
        constructor
        · rintro ⟨rfl, hrun⟩
          exact ⟨rfl, hx, hrun⟩
        · rintro ⟨rfl, -, hrun⟩
          exact ⟨rfl, hrun⟩
      rw [pieces_marked hx, List.mem_cons, Prod.mk.injEq, hhead]
    | false =>
      rw [pieces_unmarked hx]
      refine (or_iff_right ?_).symm
      rintro ⟨rfl, hm, -⟩
      exact absurd (hx.symm.trans hm) Bool.false_ne_true

end pieces

section acceptance

/-- Every mark is followed by a name, and `@` by a number. -/
def Formed (part : List Char) : Prop :=
  ∀ before mark after, part = before ++ mark :: after → isMarker mark = true →
    after.takeWhile (!isMarker ·) ≠ [] ∧
      (mark = '@' → ∃ n, Decimal.index? (after.takeWhile (!isMarker ·)) = some n)

theorem addPiece_isSome_iff (hm : isMarker m = true) : (addPiece c (m, run)).isSome = true ↔
    run ≠ [] ∧ (m = '@' → ∃ n, Decimal.index? run = some n) := by
  cases run with
  | nil => simp [addPiece]
  | cons x run =>
    have hmarks : m = '#' ∨ m = '.' ∨ m = '/' ∨ m = '@' := by
      simpa [isMarker, or_assoc] using hm
    rcases hmarks with rfl | rfl | rfl | rfl
    · simp [addPiece]
    · simp [addPiece]
    · simp [addPiece]
    · simp [addPiece, Option.isSome_iff_exists]

theorem foldlM_addPiece_isSome_iff (hm : ∀ piece ∈ marked, isMarker piece.1 = true) :
    (marked.foldlM addPiece c).isSome = true ↔
      ∀ piece ∈ marked, piece.2 ≠ [] ∧ (piece.1 = '@' → ∃ n, Decimal.index? piece.2 = some n) := by
  induction marked generalizing c with
  | nil => simp
  | cons piece marked ih =>
    obtain ⟨hpiece, hm⟩ := List.forall_mem_cons.mp hm
    rw [List.foldlM_cons, List.forall_mem_cons, ← addPiece_isSome_iff (c := c) hpiece]
    cases haddPiece : addPiece c piece with
    | none => simp
    | some next => simpa using ih (c := next) hm

theorem parse?_isSome_iff : (parse? s).isSome = true ↔ Formed s := by
  have hm : ∀ piece ∈ (pieces s).2, isMarker piece.1 = true := fun piece hpiece => by
    obtain ⟨_, _, _, hm, _⟩ := mem_pieces_iff.mp hpiece
    exact hm
  rw [parse?, foldlM_addPiece_isSome_iff hm]
  constructor
  · intro h before mark after heq hmark
    exact h (mark, _) (mem_pieces_iff.mpr ⟨before, after, heq, hmark, rfl⟩)
  · rintro h ⟨mark, run⟩ hpiece
    obtain ⟨before, after, heq, hmark, rfl⟩ := mem_pieces_iff.mp hpiece
    exact h before mark after heq hmark

end acceptance

section writing

/-- A text that can stand for a name in a compound. -/
def IsName (name : String) : Prop :=
  name.toList ≠ [] ∧ ∀ x ∈ name.toList, Text.isBlank x = false ∧ isMarker x = false

instance (name : String) : Decidable (IsName name) :=
  decidable_of_iff (name.toList ≠ [] ∧ name.toList.all (fun x => !Text.isBlank x && !isMarker x) = true)
    (by simp [IsName])

/-- The marked pieces of a compound: its eid, its groups in their order, its state and its index. -/
def marks (c : Compound) : List (Char × List Char) :=
  (c.eid.toList.map fun eid => ('#', eid.toList)) ++ (c.groups.map fun group => ('.', group.toList)) ++
    (c.state.toList.map fun state => ('/', state.toList)) ++
      c.identity.toList.map fun n => ('@', Decimal.digitsOf n)

/-- What stands for the kind where a compound is written. -/
def writtenKind (kind : Option String) : List Char :=
  (kind.map String.toList).getD ['*']

/-- A compound as text, with `*` for any kind. -/
def written (c : Compound) : List Char :=
  writtenKind c.kind ++ c.marks.flatMap fun piece => piece.1 :: piece.2

/-- What can be written of widgets: names for all that is named, and an index of 64 bits. -/
structure Writable (c : Compound) : Prop where
  kind : ∀ kind ∈ c.kind, IsName kind ∧ kind ≠ "*"
  eid : ∀ eid ∈ c.eid, IsName eid
  groups : ∀ group ∈ c.groups, IsName group
  state : ∀ state ∈ c.state, IsName state
  identity : ∀ n ∈ c.identity, n < 2 ^ 64

/-- Marks with runs that hold no mark fall apart where they were put together. -/
theorem pieces_flatMap (h : ∀ piece ∈ marked, isMarker piece.1 = true ∧ ∀ x ∈ piece.2, isMarker x = false) :
    pieces (marked.flatMap fun piece => piece.1 :: piece.2) = ([], marked) := by
  induction marked with
  | nil => rfl
  | cons piece marked ih =>
    obtain ⟨⟨hm, hrun⟩, hrest⟩ := List.forall_mem_cons.mp h
    have hrest := ih hrest
    rw [List.flatMap_cons, List.cons_append, pieces_marked hm, pieces_append (by rw [hrest]), hrest,
      pieces_of_forall_not hrun]
    rfl

theorem plain_of_isDigit (hm : m.isDigit = true) : Text.isBlank m = false ∧ isMarker m = false := by
  obtain ⟨hlow, hhigh⟩ : 48 ≤ m.toNat ∧ m.toNat ≤ 57 := Char.isDigit_iff_toNat.mp hm
  constructor
  · simp only [Text.isBlank, Bool.or_eq_false_iff, Bool.and_eq_false_iff, decide_eq_false_iff_not, beq_eq_false_iff_ne]
    omega
  · rw [isMarker]
    have hne {x : Char} (hx : ¬ (48 ≤ x.toNat ∧ x.toNat ≤ 57)) : (m == x) = false :=
      beq_false_of_ne fun heq => hx (heq ▸ ⟨hlow, hhigh⟩)
    rw [hne (by decide), hne (by decide), hne (by decide), hne (by decide)]
    rfl

theorem Writable.marks (h : c.Writable) : ∀ piece ∈ c.marks,
    isMarker piece.1 = true ∧ Text.isBlank piece.1 = false ∧
      ∀ x ∈ piece.2, Text.isBlank x = false ∧ isMarker x = false := by
  simp only [Compound.marks, List.mem_append, List.mem_map, Option.mem_toList]
  rintro _ (((⟨eid, heid, rfl⟩ | ⟨group, hgroup, rfl⟩) | ⟨state, hstate, rfl⟩) | ⟨n, -, rfl⟩)
  · exact ⟨rfl, rfl, (h.eid eid heid).2⟩
  · exact ⟨rfl, rfl, (h.groups group hgroup).2⟩
  · exact ⟨rfl, rfl, (h.state state hstate).2⟩
  · exact ⟨rfl, rfl, fun x hx => plain_of_isDigit (Decimal.isDigit_of_mem_digitsOf hx)⟩

theorem addPiece_name {name : String} (h : IsName name) :
    addPiece c ('#', name.toList) = some { c with eid := some name } ∧
    addPiece c ('.', name.toList) = some { c with groups := c.groups ++ [name] } ∧
    addPiece c ('/', name.toList) = some { c with state := some name } := by
  obtain ⟨x, rest, heq⟩ := List.exists_cons_of_ne_nil h.1
  have hname : String.ofList (x :: rest) = name := heq ▸ String.ofList_toList
  rw [heq]
  simp only [addPiece, hname, true_and]

theorem addPiece_index {n : Nat} (h : n < 2 ^ 64) :
    addPiece c ('@', Decimal.digitsOf n) = some { c with identity := some n } := by
  have hne : Decimal.digitsOf n ≠ [] := Nat.toDigits_ne_nil
  obtain ⟨x, rest, heq⟩ := List.exists_cons_of_ne_nil hne
  have hread := Decimal.index?_digitsOf h
  rw [heq] at hread ⊢
  simp [addPiece, hread]

theorem foldlM_groups {groups : List String} (h : ∀ group ∈ groups, IsName group) :
    (groups.map fun group => ('.', group.toList)).foldlM addPiece c =
      some { c with groups := c.groups ++ groups } := by
  induction groups generalizing c with
  | nil => simp
  | cons group groups ih =>
    obtain ⟨hgroup, hgroups⟩ := List.forall_mem_cons.mp h
    rw [List.map_cons, List.foldlM_cons, (addPiece_name hgroup).2.1, Option.bind_eq_bind, Option.bind_some, ih hgroups]
    simp

theorem Writable.foldlM_marks (h : c.Writable) : c.marks.foldlM addPiece { kind := c.kind } = some c := by
  obtain ⟨kind, eid, groups, state, identity⟩ := c
  have heid : (eid.toList.map fun eid => ('#', eid.toList)).foldlM addPiece { kind } = some { kind, eid } := by
    cases eid with
    | none => rfl
    | some eid => simp [(addPiece_name (h.eid eid rfl)).1]
  have hstate : (state.toList.map fun state => ('/', state.toList)).foldlM addPiece { kind, eid, groups } =
      some { kind, eid, groups, state } := by
    cases state with
    | none => rfl
    | some state => simp [(addPiece_name (h.state state rfl)).2.2]
  have hidentity : (identity.toList.map fun n => ('@', Decimal.digitsOf n)).foldlM addPiece
      { kind, eid, groups, state } = some { kind, eid, groups, state, identity } := by
    cases identity with
    | none => rfl
    | some n => simp [addPiece_index (h.identity n rfl)]
  simp [Compound.marks, List.foldlM_append, heid, foldlM_groups h.groups, hstate, hidentity]

/-- The text of a kind is a word without marks, which is read as this kind. -/
theorem Writable.writtenKind (h : c.Writable) : writtenKind c.kind ≠ [] ∧
    (∀ x ∈ writtenKind c.kind, Text.isBlank x = false ∧ isMarker x = false) ∧
      (if writtenKind c.kind = [] ∨ writtenKind c.kind = ['*'] then none
        else some (String.ofList (writtenKind c.kind))) = c.kind := by
  cases hc : c.kind with
  | none => exact ⟨List.cons_ne_nil _ _, List.forall_mem_singleton.mpr ⟨rfl, rfl⟩, rfl⟩
  | some kind =>
    obtain ⟨⟨hne, hplain⟩, hstar⟩ := h.kind kind hc
    have hstar : kind.toList ≠ ['*'] := fun heq => hstar (String.toList_injective heq)
    refine ⟨hne, hplain, ?_⟩
    rw [Compound.writtenKind, Option.map_some, Option.getD_some, if_neg (not_or.mpr ⟨hne, hstar⟩), String.ofList_toList]

/-- A compound that is written is read back. -/
theorem parse?_written (h : c.Writable) : parse? c.written = some c := by
  have hmarks : pieces (c.marks.flatMap fun piece => piece.1 :: piece.2) = ([], c.marks) :=
    pieces_flatMap fun piece hpiece => ⟨(h.marks piece hpiece).1, fun x hx => ((h.marks piece hpiece).2.2 x hx).2⟩
  obtain ⟨-, hplain, hread⟩ := h.writtenKind
  rw [parse?, written, pieces_append (by rw [hmarks]), hmarks, pieces_of_forall_not fun x hx => (hplain x hx).2]
  dsimp only
  rw [hread]
  exact h.foldlM_marks

theorem Writable.written_word (h : c.Writable) :
    c.written ≠ [] ∧ ∀ x ∈ c.written, Text.isBlank x = false := by
  obtain ⟨hne, hplain, -⟩ := h.writtenKind
  refine ⟨List.append_ne_nil_of_left_ne_nil hne _, fun x hx => ?_⟩
  rcases List.mem_append.mp hx with hx | hx
  · exact (hplain x hx).1
  · obtain ⟨piece, hpiece, hx⟩ := List.mem_flatMap.mp hx
    obtain ⟨-, hmark, hrun⟩ := h.marks piece hpiece
    rcases List.mem_cons.mp hx with rfl | hx
    · exact hmark
    · exact (hrun x hx).1

end writing

end Compound

namespace Selector

variable {text : String} {cs : List Compound} {s : List Char}

theorem parse_of_mapM (h : (Text.words text.toList).mapM Compound.parse? = some cs) (hne : cs ≠ []) :
    ∃ s, parse text = .ok s ∧ s.parts = cs := by
  refine ⟨{ source := String.ofList (Text.trim text.toList), above := cs.dropLast, subject := cs.getLast hne }, ?_,
    List.dropLast_append_getLast hne⟩
  unfold parse
  rw [h]
  dsimp only
  rw [List.getLast?_eq_some_getLast hne]

theorem exists_parse_iff : (∃ s, parse text = .ok s) ↔
    Text.words text.toList ≠ [] ∧ ∀ part ∈ Text.words text.toList, Compound.Formed part := by
  simp only [← Compound.parse?_isSome_iff, ← mapM_isSome_iff]
  constructor
  · rintro ⟨s, hs⟩
    have hparts := mapM_of_parse hs
    refine ⟨fun hnil => ?_, by rw [hparts]; rfl⟩
    rw [hnil] at hparts
    exact absurd (Option.some.inj hparts).symm (List.append_ne_nil_of_right_ne_nil _ (List.cons_ne_nil _ _))
  · rintro ⟨hne, hsome⟩
    obtain ⟨cs, hcs⟩ := Option.isSome_iff_exists.mp hsome
    obtain ⟨s, hs, -⟩ := parse_of_mapM hcs (ne_nil_of_mapM hcs hne)
    exact ⟨s, hs⟩

/-- Compounds written one after another, with blanks between any two of them. -/
inductive Writes : List Compound → List Char → Prop where
  | last (c : Compound) : Writes [c] c.written
  | more (c : Compound) {gap rest : List Char} {cs : List Compound} (blank : ∀ x ∈ gap, Text.isBlank x = true)
      (gapped : gap ≠ []) (next : Writes cs rest) : Writes (c :: cs) (c.written ++ gap ++ rest)

theorem words_of_writes (h : Writes cs s) (hcs : ∀ c ∈ cs, c.Writable) :
    Text.words s = cs.map Compound.written := by
  induction h with
  | last c =>
    obtain ⟨hne, hword⟩ := (hcs c List.mem_cons_self).written_word
    exact Text.words_of_forall_not hne hword
  | more c blank gapped _ ih =>
    obtain ⟨hc, hcs⟩ := List.forall_mem_cons.mp hcs
    obtain ⟨hne, hword⟩ := hc.written_word
    rw [Text.words_append_gap hne hword blank gapped, ih hcs, List.map_cons]

theorem mapM_written (hcs : ∀ c ∈ cs, c.Writable) : (cs.map Compound.written).mapM Compound.parse? = some cs := by
  induction cs with
  | nil => rfl
  | cons c cs ih =>
    obtain ⟨hc, hcs⟩ := List.forall_mem_cons.mp hcs
    simp [Compound.parse?_written hc, ih hcs]

theorem Writes.ne_nil (h : Writes cs s) : cs ≠ [] := by
  cases h <;> exact List.cons_ne_nil _ _

theorem exists_parse_of_writes (h : Writes cs text.toList) (hcs : ∀ c ∈ cs, c.Writable) :
    ∃ s, parse text = .ok s ∧ s.parts = cs := by
  have hread : (Text.words text.toList).mapM Compound.parse? = some cs := by
    rw [words_of_writes h hcs, mapM_written hcs]
  exact parse_of_mapM hread h.ne_nil

theorem foldl_specificity (parts : List Compound) (sum : Specificity) :
    parts.foldl (fun sum part => sum.add part.specificity) sum =
      { names := sum.names + (parts.map (·.specificity.names)).sum
        classes := sum.classes + (parts.map (·.specificity.classes)).sum
        kinds := sum.kinds + (parts.map (·.specificity.kinds)).sum } := by
  induction parts generalizing sum with
  | nil => rfl
  | cons part parts ih =>
    rw [List.foldl_cons, ih]
    simp [Specificity.add, Nat.add_assoc]

/-- A text is read as a selector exactly if there is a word in it and in each word every mark is followed by a name,
and `@` by a number. And compounds that are written in a row are read back, with the sum of their specificities. -/
theorem parse_reads :
    (∀ text : String, (∃ s, parse text = .ok s) ↔
      Text.words text.toList ≠ [] ∧ ∀ part ∈ Text.words text.toList, Compound.Formed part) ∧
    ∀ (cs : List Compound) (text : String), Writes cs text.toList → (∀ c ∈ cs, c.Writable) →
      ∃ s, parse text = .ok s ∧ s.parts = cs ∧ s.specificity =
        { names := (cs.map (·.specificity.names)).sum
          classes := (cs.map (·.specificity.classes)).sum
          kinds := (cs.map (·.specificity.kinds)).sum } := by
  refine ⟨fun text => exists_parse_iff, fun cs text hwrites hcs => ?_⟩
  obtain ⟨s, hs, rfl⟩ := exists_parse_of_writes hwrites hcs
  refine ⟨s, hs, rfl, ?_⟩
  rw [specificity, foldl_specificity]
  simp

/-- A tower by its index, and below it whatever has an eid, two groups and a state. -/
theorem parse_reads_hovered : ∃ s, parse "Tower@3 \t*#save.primary.wide/hover" = .ok s ∧ s.parts =
    [{ kind := some "Tower", identity := some 3 },
      { eid := some "save", groups := ["primary", "wide"], state := some "hover" }] ∧
    s.specificity = { names := 2, classes := 3, kinds := 1 } := by
  let tower : Compound := { kind := some "Tower", identity := some 3 }
  let save : Compound := { eid := some "save", groups := ["primary", "wide"], state := some "hover" }
  have hwrites : Writes [tower, save] "Tower@3 \t*#save.primary.wide/hover".toList :=
    .more tower (List.all_eq_true.mp (rfl : [' ', '\t'].all Text.isBlank = true)) (List.cons_ne_nil _ _) (.last save)
  have htower : tower.Writable := ⟨by decide, by decide, by decide, by decide, by decide⟩
  have hsave : save.Writable := ⟨by decide, by decide, by decide, by decide, by decide⟩
  have hwritable : ∀ c ∈ [tower, save], c.Writable := by simp [htower, hsave]
  exact parse_reads.2 [tower, save] _ hwrites hwritable

end Selector

end Hypermedia
