import Hypermedia.Proofs.Text.Margins
import Hypermedia.Proofs.Widget.Grammar
import Hypermedia.Style.Value
import Mathlib.Data.List.Forall2

/-! Written forms of style values, and which of them are read back. -/
namespace Hypermedia

namespace Json

variable {i : Int} {c : Char}

theorem of_mem_integer (h : c ∈ integer i) : c = '-' ∨ c.isDigit = true := by
  unfold integer Decimal.signed at h
  split at h
  · rcases List.mem_cons.mp h with rfl | h
    · exact .inl rfl
    · exact .inr (Decimal.isDigit_of_mem_digitsOf h)
  · exact .inr (Decimal.isDigit_of_mem_digitsOf h)

theorem integer_ne_nil (i : Int) : integer i ≠ [] := by
  unfold integer Decimal.signed
  split
  · exact List.cons_ne_nil _ _
  · exact Nat.toDigits_ne_nil

/-- An integer of 64 bits is read back from its decimal form. -/
theorem int64?_integer (hlow : -2 ^ 63 ≤ i) (hhigh : i < 2 ^ 63) : Decimal.int64? (integer i) = some i := by
  have hsign : Decimal.takeSign (integer i) = (decide (i < 0), Decimal.digitsOf i.natAbs) := by
    unfold integer Decimal.signed
    split
    · next hneg => simp_all [Decimal.takeSign]
    · next hpos =>
      have hdigits := fun c => @Decimal.isDigit_of_mem_digitsOf i.natAbs c
      unfold Decimal.takeSign
      split
      · next heq => exact absurd (hdigits _ (heq ▸ List.mem_cons_self)) (by decide)
      · next heq => exact absurd (hdigits _ (heq ▸ List.mem_cons_self)) (by decide)
      · simp_all
  have hvalue : (if decide (i < 0) = true then -(i.natAbs : Int) else i.natAbs) = i := by
    split
    · next h =>
      have hneg := of_decide_eq_true h
      omega
    · next h =>
      have hpos : ¬ i < 0 := fun hneg => h (decide_eq_true hneg)
      omega
  unfold Decimal.int64?
  simp only [hsign, Decimal.natural?_digitsOf, Option.bind_some, hvalue]
  exact if_pos ⟨hlow, hhigh⟩

end Json

namespace Style.Value

open Text (Solid)

/-- The notation of rule blocks: a text stands in quotes of a kind it does not hold, and the items of a list in
brackets with a comma and a space between them. -/
inductive Written : Value → List Char → Prop where
  | null : Written null "null".toList
  | yes : Written (bool true) "true".toList
  | no : Written (bool false) "false".toList
  | int {i : Int} (hlow : -2 ^ 63 ≤ i) (hhigh : i < 2 ^ 63) : Written (int i) (Json.integer i)
  | str {s : String} {quote : Char} (hquote : quote = '"' ∨ quote = '\'') (hfree : quote ∉ s.toList) :
      Written (str s) (quote :: s.toList ++ [quote])
  | list {items : List Value} {texts : List (List Char)} (all : List.Forall₂ Written items texts) :
      Written (list items) ('[' :: Text.join [',', ' '] texts ++ [']'])

/-- No item of the value shows a comma. -/
def Whole : Value → Prop
  | list items => ∀ item ∈ items, ',' ∉ item.text
  | _ => True

variable {v item : Value} {items : List Value} {raw inner s t : List Char} {texts : List (List Char)} {m n : Nat}

section items

theorem itemsOf_append (s t : List Char) : itemsOf (s ++ ',' :: t) = itemsOf s ++ itemsOf t := by
  have hcut : Text.cut (· == ',') (s ++ ',' :: t) = Text.cut (· == ',') s ++ Text.cut (· == ',') t :=
    Text.cut_append_cons rfl
  rw [itemsOf, hcut, List.map_append, List.filter_append]
  rfl

theorem itemsOf_blank (s : List Char) : itemsOf (' ' :: s) = itemsOf s := by
  obtain ⟨piece, pieces, hcut⟩ := List.exists_cons_of_ne_nil (Text.cut_ne_nil (· == ',') s)
  have hblank : Text.cut (· == ',') (' ' :: s) = (' ' :: piece) :: pieces := by simp [Text.cut, hcut]
  have htrim : Text.trim (' ' :: piece) = Text.trim piece := @Text.trim_append_left [' '] piece rfl
  rw [itemsOf, itemsOf, hblank, hcut, List.map_cons, List.map_cons, htrim]

theorem itemsOf_join (texts : List (List Char)) : itemsOf (Text.join [',', ' '] texts) = texts.flatMap itemsOf := by
  induction texts with
  | nil => rfl
  | cons t texts ih =>
    cases texts with
    | nil => simp [Text.join]
    | cons u texts =>
      have hjoin : Text.join [',', ' '] (t :: u :: texts) = t ++ ',' :: ' ' :: Text.join [',', ' '] (u :: texts) := by
        simp [Text.join]
      rw [hjoin, itemsOf_append, itemsOf_blank, ih, ← List.flatMap_cons]

theorem itemsOf_solid (hs : Solid s) (hcomma : ',' ∉ s) : itemsOf s = [s] := by
  have hcut : Text.cut (· == ',') s = [s] :=
    Text.cut_of_forall_not fun c hc => beq_eq_false_iff_ne.mpr fun heq => hcomma (heq ▸ hc)
  simp [itemsOf, hcut, hs.1, hs.2]

theorem itemsOf_ne_nil {c : Char} (hmem : c ∈ s) (hcomma : c ≠ ',') (hblank : Text.isBlank c = false) :
    itemsOf s ≠ [] := by
  obtain ⟨piece, hpiece, hin⟩ := Text.exists_mem_cut (p := (· == ',')) hmem (beq_eq_false_iff_ne.mpr hcomma)
  have hne : Text.trim piece ≠ [] := fun hnil => by
    have hall := Text.trim_eq_nil_iff.mp hnil c hin
    simp [hblank] at hall
  refine List.ne_nil_of_mem (a := Text.trim piece) ?_
  exact List.mem_filter.mpr ⟨List.mem_map_of_mem hpiece, by simp [hne]⟩

/-- A text that stands between two marks falls apart at a comma. -/
theorem two_le_length_itemsOf {first last : Char} (hfirst : first ≠ ',' ∧ Text.isBlank first = false)
    (hlast : last ≠ ',' ∧ Text.isBlank last = false) (hcomma : ',' ∈ s) :
    2 ≤ (itemsOf (first :: s ++ [last])).length := by
  obtain ⟨before, after, rfl⟩ := List.append_of_mem hcomma
  have hcut : first :: (before ++ ',' :: after) ++ [last] = (first :: before) ++ ',' :: (after ++ [last]) := by simp
  have hbefore := List.length_pos_of_ne_nil (@itemsOf_ne_nil (first :: before) first (by simp) hfirst.1 hfirst.2)
  have hafter := List.length_pos_of_ne_nil (@itemsOf_ne_nil (after ++ [last]) last (by simp) hlast.1 hlast.2)
  rw [hcut, itemsOf_append, List.length_append]
  omega

theorem length_le_of_mem_itemsOf (h : t ∈ itemsOf s) : t.length ≤ s.length := by
  obtain ⟨piece, hpiece, rfl⟩ := List.mem_map.mp (List.mem_filter.mp h).1
  exact (Text.length_trim_le piece).trans (Text.length_le_of_mem_cut hpiece)

end items

section parse

theorem unbracket?_brackets (inner : List Char) : unbracket? ('[' :: inner ++ [']']) = some inner := by
  simp [unbracket?]

theorem length_of_unbracket? (h : unbracket? raw = some inner) : inner.length < raw.length := by
  unfold unbracket? at h
  split at h
  · split at h
    · cases h
      simp only [List.length_dropLast, List.length_cons]
      omega
    · cases h
  · cases h

/-- A bound on the depth that the length of the text keeps does not matter. -/
theorem parseWithin_eq_of_le (hm : raw.length ≤ m) (hn : raw.length ≤ n) : parseWithin m raw = parseWithin n raw := by
  induction m generalizing n raw with
  | zero =>
    obtain rfl : raw = [] := List.length_eq_zero_iff.mp (Nat.le_zero.mp hm)
    cases n <;> rfl
  | succ m ih =>
    cases n with
    | zero =>
      obtain rfl : raw = [] := List.length_eq_zero_iff.mp (Nat.le_zero.mp hn)
      rfl
    | succ n =>
      rw [parseWithin, parseWithin]
      cases hinner : unbracket? (Text.trim raw) with
      | none => rfl
      | some inner =>
        have hshort := (length_of_unbracket? hinner).trans_le (Text.length_trim_le raw)
        refine congrArg list (List.map_congr_left fun t ht => ?_)
        -- the brackets make an item shorter than the text, so what is left of either bound still holds it
        have ht := length_le_of_mem_itemsOf ht
        exact ih (by omega) (by omega)

/-- What stands in brackets is the list of what its items say. -/
theorem parse_brackets (inner : List Char) : parse (String.ofList ('[' :: inner ++ [']'])) =
    list ((itemsOf inner).map fun t => parse (String.ofList t)) := by
  have hsolid : Solid ('[' :: inner ++ [']']) := Text.solid_of_marks (by decide) (by decide)
  have hlength : (String.ofList ('[' :: inner ++ [']'])).length = inner.length + 1 + 1 := by
    rw [String.length_ofList, List.length_append, List.length_cons]
    rfl
  rw [parse, hlength, parseWithin, String.toList_ofList, hsolid.2, unbracket?_brackets]
  refine congrArg list (List.map_congr_left fun t ht => ?_)
  have ht := length_le_of_mem_itemsOf ht
  rw [parse, String.toList_ofList]
  exact parseWithin_eq_of_le (by omega) (by simp)

theorem parse_scalar (hs : Solid s) (h : ∀ c ∈ s.head?, c ≠ '[') : parse (String.ofList s) = scalar s := by
  obtain ⟨c, rest, rfl⟩ := List.exists_cons_of_ne_nil hs.1
  have hc : c ≠ '[' := h c rfl
  have hnone : unbracket? (c :: rest) = none := by
    unfold unbracket?
    split
    · simp_all
    · rfl
  have hlength : (String.ofList (c :: rest)).length = rest.length + 1 := String.length_ofList
  rw [parse, hlength, parseWithin, String.toList_ofList, hs.2, hnone]

end parse

section scalar

/-- A text that is no keyword. -/
structure Plain (raw : List Char) : Prop where
  null : ¬ (raw = [] ∨ raw = ['~'] ∨ raw = "null".toList)
  yes : raw ≠ "true".toList
  no : raw ≠ "false".toList

theorem plain_of_head {c : Char} (hc : c ∉ ['~', 'n', 't', 'f']) (rest : List Char) : Plain (c :: rest) := by
  simp only [List.mem_cons, List.not_mem_nil, or_false, not_or] at hc
  obtain ⟨htilde, hn, ht, hf⟩ := hc
  constructor
  · rintro (h | h | h)
    · cases h
    · exact htilde (List.cons_eq_cons.mp h).1
    · exact hn (List.cons_eq_cons.mp h).1
  · exact fun h => ht (List.cons_eq_cons.mp h).1
  · exact fun h => hf (List.cons_eq_cons.mp h).1

theorem Plain.scalar_of_unquote (h : Plain raw) (hs : unquote? raw = some s) : scalar raw = str (String.ofList s) := by
  rw [scalar, if_neg h.null, if_neg h.yes, if_neg h.no, hs]

theorem Plain.scalar_of_int64 {i : Int} (h : Plain raw) (hquote : unquote? raw = none)
    (hi : Decimal.int64? raw = some i) : scalar raw = int i := by
  rw [scalar, if_neg h.null, if_neg h.yes, if_neg h.no, hquote, hi]

theorem scalar_integer {i : Int} (hlow : -2 ^ 63 ≤ i) (hhigh : i < 2 ^ 63) : scalar (Json.integer i) = int i := by
  obtain ⟨c, rest, hcons⟩ := List.exists_cons_of_ne_nil (Json.integer_ne_nil i)
  have hc : c = '-' ∨ c.isDigit = true := Json.of_mem_integer (hcons ▸ List.mem_cons_self)
  have hother : ∀ d, d ≠ '-' → d.isDigit = false → c ≠ d := by
    rintro d hd hdigit rfl
    exact hc.elim hd (Bool.eq_false_iff.mp hdigit)
  have hplain : Plain (c :: rest) := by
    refine plain_of_head (fun hmem => ?_) rest
    simp only [List.mem_cons, List.not_mem_nil, or_false] at hmem
    rcases hmem with h | h | h | h <;> exact hother _ (by decide) (by decide) h
  have hquote : unquote? (c :: rest) = none := if_neg fun h =>
    h.1.elim (hother '"' (by decide) (by decide)) (hother '\'' (by decide) (by decide))
  rw [hcons]
  exact hplain.scalar_of_int64 hquote (hcons ▸ Json.int64?_integer hlow hhigh)

theorem scalar_quoted {quote : Char} (hquote : quote = '"' ∨ quote = '\'') (s : List Char) :
    scalar (quote :: s ++ [quote]) = str (String.ofList s) := by
  have hplain : Plain (quote :: s ++ [quote]) := by
    rcases hquote with rfl | rfl <;> exact plain_of_head (by decide) _
  have hunquote : unquote? (quote :: s ++ [quote]) = some s := by
    have hlast : (s ++ [quote]).getLast? = some quote := List.getLast?_concat
    rw [List.cons_append, unquote?, if_pos ⟨hquote, hlast⟩, List.dropLast_concat]
  exact hplain.scalar_of_unquote hunquote

end scalar

section written

theorem textItems_eq_join (items : List Value) : textItems items = Text.join [',', ' '] (items.map text) := by
  induction items with
  | nil => rfl
  | cons item items ih =>
    cases items with
    | nil => simp [textItems, Text.join]
    | cons next items =>
      rw [textItems, ih]
      · simp [Text.join]
      · exact List.cons_ne_nil _ _

theorem comma_mem_join : ',' ∈ Text.join [',', ' '] texts ↔ 2 ≤ texts.length ∨ ∃ t ∈ texts, ',' ∈ t := by
  induction texts with
  | nil => simp [Text.join]
  | cons t texts ih =>
    cases texts with
    | nil => simp [Text.join]
    | cons u texts => simp [Text.join]

theorem comma_mem_brackets : ',' ∈ '[' :: Text.join [',', ' '] texts ++ [']'] ↔
    2 ≤ texts.length ∨ ∃ t ∈ texts, ',' ∈ t := by
  rw [← comma_mem_join]
  simp

theorem comma_mem_text_list : ',' ∈ (list items).text ↔ 2 ≤ items.length ∨ ∃ item ∈ items, ',' ∈ item.text := by
  rw [text, textItems_eq_join, comma_mem_brackets]
  simp

theorem whole_of_comma_not_mem (h : ',' ∉ v.text) : v.Whole := by
  cases v with
  | list items => exact fun item hitem hcomma => h (comma_mem_text_list.mpr (.inr ⟨item, hitem, hcomma⟩))
  | _ => trivial

/-- Items that show commas where their written forms do. -/
theorem exists_comma_iff (h : List.Forall₂ (fun v s => ',' ∈ s ↔ ',' ∈ v.text) items texts) :
    (∃ t ∈ texts, ',' ∈ t) ↔ ∃ item ∈ items, ',' ∈ item.text := by
  induction h with
  | nil => simp
  | cons hfirst _ ih => simp [hfirst, ih]

/-- The written form of a value holds a comma where the value shows one. -/
theorem Written.comma_mem_iff (h : Written v s) : ',' ∈ s ↔ ',' ∈ v.text := by
  refine @Written.rec (fun v s _ => ',' ∈ s ↔ ',' ∈ v.text)
    (fun items texts _ => List.Forall₂ (fun v s => ',' ∈ s ↔ ',' ∈ v.text) items texts)
    ?null ?yes ?no ?int ?str ?list ?nil ?cons v s h
  case null => exact Iff.rfl
  case yes => exact Iff.rfl
  case no => exact Iff.rfl
  case int => exact fun _ _ => Iff.rfl
  case str =>
    intro s quote hquote _
    rcases hquote with rfl | rfl <;> simp [text]
  case list =>
    intro items texts _ hall
    rw [comma_mem_brackets, comma_mem_text_list, exists_comma_iff hall, hall.length_eq]
  case nil => exact .nil
  case cons => exact fun _ _ hfirst hrest => .cons hfirst hrest

theorem Written.solid (h : Written v s) : Solid s := by
  cases h with
  | null => exact ⟨by decide, by decide⟩
  | yes => exact ⟨by decide, by decide⟩
  | no => exact ⟨by decide, by decide⟩
  | @int i =>
    have hblank : ∀ c ∈ Json.integer i, Text.isBlank c = false := fun c hc =>
      (Json.of_mem_integer hc).elim (fun hminus => hminus ▸ rfl) fun hdigit => (Compound.plain_of_isDigit hdigit).1
    exact Text.solid_of_ends (Json.integer_ne_nil _) (fun c hc => hblank c (List.mem_of_mem_head? hc))
      fun c hc => hblank c (List.mem_of_mem_getLast? hc)
  | str hquote => rcases hquote with rfl | rfl <;> exact Text.solid_of_marks (by decide) (by decide)
  | list => exact Text.solid_of_marks (by decide) (by decide)

/-- A written form that holds a comma counts as more than one item. -/
theorem Written.two_le_length_itemsOf (h : Written v s) (hcomma : ',' ∈ s) : 2 ≤ (itemsOf s).length := by
  cases h with
  | null => exact absurd hcomma (by decide)
  | yes => exact absurd hcomma (by decide)
  | no => exact absurd hcomma (by decide)
  | int => exact (Json.of_mem_integer hcomma).elim (absurd · (by decide)) (absurd · (by decide))
  | @str s _ hquote =>
    have hmid : ',' ∈ s.toList := by rcases hquote with rfl | rfl <;> simpa using hcomma
    rcases hquote with rfl | rfl <;>
      exact Value.two_le_length_itemsOf ⟨by decide, by decide⟩ ⟨by decide, by decide⟩ hmid
  | list =>
    refine Value.two_le_length_itemsOf ⟨by decide, by decide⟩ ⟨by decide, by decide⟩ ?_
    simpa using hcomma

theorem Written.length_itemsOf_pos (h : Written v s) : 0 < (itemsOf s).length := by
  by_cases hcomma : ',' ∈ s
  · exact Nat.zero_lt_of_lt (h.two_le_length_itemsOf hcomma)
  · rw [itemsOf_solid h.solid hcomma]
    exact Nat.zero_lt_one

theorem length_le_flatMap_itemsOf (h : List.Forall₂ Written items texts) :
    texts.length ≤ (texts.flatMap itemsOf).length := by
  induction h with
  | nil => exact Nat.zero_le _
  | cons hfirst _ ih =>
    have hone := hfirst.length_itemsOf_pos
    rw [List.flatMap_cons, List.length_append, List.length_cons]
    omega

/-- A list that is cut into as many items as were written holds no comma in any of them. -/
theorem comma_not_mem_of_length (h : List.Forall₂ Written items texts)
    (hlength : (texts.flatMap itemsOf).length = texts.length) : ∀ t ∈ texts, ',' ∉ t := by
  induction h with
  | nil => simp
  | cons hfirst hrest ih =>
    have hone := hfirst.length_itemsOf_pos
    have hmany := length_le_flatMap_itemsOf hrest
    rw [List.flatMap_cons, List.length_append, List.length_cons] at hlength
    refine List.forall_mem_cons.mpr ⟨fun hcomma => ?_, ih (by omega)⟩
    have htwo := hfirst.two_le_length_itemsOf hcomma
    omega

theorem flatMap_itemsOf_of_comma_not_mem (h : List.Forall₂ Written items texts) (hcomma : ∀ t ∈ texts, ',' ∉ t) :
    texts.flatMap itemsOf = texts := by
  induction h with
  | nil => rfl
  | cons hfirst _ ih =>
    obtain ⟨hown, hrest⟩ := List.forall_mem_cons.mp hcomma
    rw [List.flatMap_cons, itemsOf_solid hfirst.solid hown, ih hrest]
    rfl

theorem map_parse_of_comma_not_mem
    (h : List.Forall₂ (fun v s => parse (String.ofList s) = v ↔ v.Whole) items texts)
    (hcomma : ∀ item ∈ items, ',' ∉ item.text) : texts.map (fun t => parse (String.ofList t)) = items := by
  induction h with
  | nil => rfl
  | cons hfirst _ ih =>
    obtain ⟨hown, hrest⟩ := List.forall_mem_cons.mp hcomma
    rw [List.map_cons, hfirst.mpr (whole_of_comma_not_mem hown), ih hrest]

/-- A list is read back where no item shows a comma, if that is so of the items. -/
theorem parse_list_iff (all : List.Forall₂ Written items texts)
    (hitems : List.Forall₂ (fun v s => parse (String.ofList s) = v ↔ v.Whole) items texts) :
    parse (String.ofList ('[' :: Text.join [',', ' '] texts ++ [']'])) = list items ↔ (list items).Whole := by
  have hshown : (∀ t ∈ texts, ',' ∉ t) ↔ ∀ item ∈ items, ',' ∉ item.text := by
    have hexists := exists_comma_iff (all.imp fun _ _ h => h.comma_mem_iff)
    simpa using not_congr hexists
  rw [parse_brackets, itemsOf_join]
  constructor
  · intro hparse
    -- a comma in an item makes more items of it, and a list of another length is another list
    have hlength := congrArg List.length (list.inj hparse)
    rw [List.length_map, all.length_eq] at hlength
    exact hshown.mp (comma_not_mem_of_length all hlength)
  · intro hwhole
    rw [flatMap_itemsOf_of_comma_not_mem all (hshown.mpr hwhole), map_parse_of_comma_not_mem hitems hwhole]

end written

/-- A written value is read back exactly when no item of it, if it is a list, shows a comma: the items of a list are
cut at every comma, also where one stands in quotes or in inner brackets. -/
theorem parse_written_iff (h : Written v s) : parse (String.ofList s) = v ↔ v.Whole := by
  refine @Written.rec (fun v s _ => parse (String.ofList s) = v ↔ v.Whole)
    (fun items texts _ => List.Forall₂ (fun v s => parse (String.ofList s) = v ↔ v.Whole) items texts)
    ?null ?yes ?no ?int ?str ?list ?nil ?cons v s h
  case null => exact iff_of_true rfl trivial
  case yes => exact iff_of_true rfl trivial
  case no => exact iff_of_true rfl trivial
  case int =>
    intro i hlow hhigh
    refine iff_of_true ?_ trivial
    rw [parse_scalar (Written.int hlow hhigh).solid ?_, scalar_integer hlow hhigh]
    rintro c hc rfl
    exact (Json.of_mem_integer (List.mem_of_mem_head? hc)).elim (by decide) (by decide)
  case str =>
    intro s quote hquote hfree
    refine iff_of_true ?_ trivial
    rw [parse_scalar (Written.str hquote hfree).solid ?_, scalar_quoted hquote, String.ofList_toList]
    rcases hquote with rfl | rfl <;> simp
  case list => exact fun all hitems => parse_list_iff all hitems
  case nil => exact .nil
  case cons => exact fun _ _ hfirst hrest => .cons hfirst hrest

theorem written_nested : Written (list [list [int (-7)], str "it's", null]) "[[-7], \"it's\", null]".toList := by
  have hnumber : Written (int (-7)) "-7".toList := .int (by decide) (by decide)
  have hlist : Written (list [int (-7)]) "[-7]".toList := .list (.cons hnumber .nil)
  have htext : Written (str "it's") "\"it's\"".toList := .str (.inl rfl) (by decide)
  exact .list (.cons hlist (.cons htext (.cons .null .nil)))

theorem parse_written_nested : Written (list [list [int (-7)], str "it's", null]) "[[-7], \"it's\", null]".toList ∧
    parse "[[-7], \"it's\", null]" = list [list [int (-7)], str "it's", null] := by
  have hwhole : (list [list [int (-7)], str "it's", null]).Whole := by
    intro item hitem
    simp only [List.mem_cons, List.not_mem_nil, or_false] at hitem
    rcases hitem with rfl | rfl | rfl <;> decide
  have hparse := (parse_written_iff written_nested).mpr hwhole
  exact ⟨written_nested, by simpa using hparse⟩

/-- A quoted text falls apart at its comma, and so does an inner list. -/
theorem written_not_read_back :
    (Written (list [str "a, b"]) "['a, b']".toList ∧ parse "['a, b']" = list [str "'a", str "b'"]) ∧
    Written (list [list [int 1, int 2], int 3]) "[[1, 2], 3]".toList ∧
      parse "[[1, 2], 3]" = list [str "[1", str "2]", int 3] ∧
    ¬ ∀ v s, Written v s → parse (String.ofList s) = v := by
  have hquoted : Written (list [str "a, b"]) "['a, b']".toList :=
    .list (.cons (.str (.inr rfl) (by decide)) .nil)
  have hnumber : ∀ n : Nat, n < 4 → Written (int n) (Json.integer n) := fun n hn => .int (by omega) (by omega)
  have hnested : Written (list [list [int 1, int 2], int 3]) "[[1, 2], 3]".toList :=
    .list (.cons (.list (.cons (hnumber 1 (by decide)) (.cons (hnumber 2 (by decide)) .nil)))
      (.cons (hnumber 3 (by decide)) .nil))
  have hcut : parse "['a, b']" = list [str "'a", str "b'"] := rfl
  refine ⟨⟨hquoted, hcut⟩, hnested, rfl, fun hall => ?_⟩
  have hback := hall _ _ hquoted
  rw [String.ofList_toList, hcut] at hback
  exact absurd (congrArg List.length (list.inj hback)) (by decide)

end Style.Value

end Hypermedia
