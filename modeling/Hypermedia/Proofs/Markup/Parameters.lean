import Hypermedia.Markup.Component
import Hypermedia.Text.Placeholder
import Mathlib

/-! Parameters: what becomes of a text when the parameters of a component are filled in, and which texts keep the
placeholders that are not for the component. -/
namespace Hypermedia

namespace Text

/-- The longest identifier at the head of a text; empty where there is none. -/
def identifier : List Char → List Char
  | [] => []
  | c :: rest => if isWordStart c then c :: rest.takeWhile isWordChar else []

def IsIdentifier : List Char → Prop
  | [] => False
  | c :: rest => isWordStart c = true ∧ ∀ d ∈ rest, isWordChar d = true

instance : DecidablePred IsIdentifier
  | [] => isFalse id
  | _ :: rest => @instDecidableAnd _ _ inferInstance (List.decidableBAll _ rest)

theorem identifier_prefix (s : List Char) : identifier s <+: s := by
  cases s with
  | nil => exact List.nil_prefix
  | cons c rest =>
    rw [identifier]
    split
    · exact List.cons_prefix_cons.mpr ⟨rfl, List.takeWhile_prefix _⟩
    · exact List.nil_prefix

/-- The identifiers at the head of a text are those at the head of its longest one. -/
theorem IsIdentifier.prefix_identifier {name s : List Char} (h : IsIdentifier name) (hs : name <+: s) :
    name <+: identifier s := by
  obtain ⟨after, rfl⟩ := hs
  cases name with
  | nil => exact h.elim
  | cons c rest =>
    obtain ⟨hc, hrest⟩ := h
    rw [List.cons_append, identifier, if_pos hc, List.takeWhile_append_of_pos hrest]
    exact List.cons_prefix_cons.mpr ⟨rfl, List.prefix_append _ _⟩

theorem dollar_not_mem_of_isIdentifier {name : List Char} (h : IsIdentifier name) : '$' ∉ name := by
  cases name with
  | nil => exact List.not_mem_nil
  | cons c rest =>
    rw [List.mem_cons, not_or]
    constructor
    · rintro rfl
      exact absurd h.1 (by decide)
    · intro hmem
      exact absurd (h.2 '$' hmem) (by decide)

end Text

namespace Node

mutual

/-- An element with its attribute values, texts and tails, and those of all below it, changed. -/
def mapTexts (f : String → String) : Node → Node
  | .mk tag attributes text children tail =>
    .mk tag (attributes.map fun entry => (entry.1, f entry.2)) (text.map f) (mapTextsAll f children) (tail.map f)

def mapTextsAll (f : String → String) : List Node → List Node
  | [] => []
  | n :: rest => mapTexts f n :: mapTextsAll f rest

end

/-- The attribute values, the text and the tail of an element. -/
def ownTexts (n : Node) : List String :=
  n.attributes.map Prod.snd ++ n.text.toList ++ n.tail.toList

/-- The attribute values, texts and tails of an element and all below it. -/
def texts (n : Node) : List String :=
  n.elements.flatMap ownTexts

end Node

namespace Component

/-- What comes of a text when, from left to right, dollar signs and the names that are taken at them give way to
values. `Takes` tells which name is taken at the head of what follows a dollar sign; values are not looked at again. -/
inductive Replaces (value : List Char → Option (List Char)) (Takes : List Char → List Char → Prop) :
    List Char → List Char → Prop where
  | nil : Replaces value Takes [] []
  | plain {c s out} (hc : c ≠ '$') (rest : Replaces value Takes s out) : Replaces value Takes (c :: s) (c :: out)
  | name {name v s out} (taken : Takes (name ++ s) name) (known : value name = some v)
      (rest : Replaces value Takes s out) : Replaces value Takes ('$' :: (name ++ s)) (v ++ out)
  | lone {s out} (free : ∀ name, ¬ Takes s name) (rest : Replaces value Takes s out) :
      Replaces value Takes ('$' :: s) ('$' :: out)

variable (c : Component) (call : Node)

def IsDeclared (name : List Char) : Prop :=
  String.ofList name ∈ c.params.map Prod.fst

/-- The value of a parameter at a call: its attribute there, or its default. The last declaration of a name counts. -/
def value? (name : List Char) : Option (List Char) :=
  (c.params.reverse.lookup (String.ofList name)).map fun default =>
    ((call.attribute? (String.ofList name)).getD default).toList

/-- A declared name that a text begins with, where it begins with no longer one. -/
def LongestName (s name : List Char) : Prop :=
  c.IsDeclared name ∧ name <+: s ∧ ∀ other, c.IsDeclared other → other <+: s → other.length ≤ name.length

/-- A declared name that is all of the identifier that a text begins with. -/
def WholeName (s name : List Char) : Prop :=
  c.IsDeclared name ∧ Text.identifier s = name

/-- A text with a placeholder that is not declared, but begins with a name that is. -/
def Captures (s : List Char) : Prop :=
  ∃ before after, s = before ++ '$' :: after ∧ ¬ c.IsDeclared (Text.identifier after) ∧
    ∃ name, c.IsDeclared name ∧ name <+: Text.identifier after

/-- A call for which the template became `filled`: its children in the slot, its other attributes on the root. -/
def dress (filled : Node) : Node :=
  (((fillSlot? call.children filled).getD filled).setAttributes (c.forwarded call)).withTail call.tail

variable {c call}

section longest

variable {names : List (List Char × List Char)} {s name v rest : List Char}

theorem isPrefixOf?_eq_none_iff : name.isPrefixOf? s = none ↔ ¬ name <+: s := by
  rw [Option.eq_none_iff_forall_ne_some]
  simp only [ne_eq, List.isPrefixOf?_eq_some_iff_append_eq]
  exact not_exists.symm

/-- Where no name is found, the text begins with none. -/
theorem not_prefix_of_longest? (h : longest? names s = none) : ∀ other ∈ names.map Prod.fst, ¬ other <+: s := by
  induction names with
  | nil => exact List.forall_mem_nil _
  | cons entry names ih =>
    rw [longest?] at h
    split at h
    · split at h <;> cases h
    · cases h
    · next hnone => exact List.forall_mem_cons.mpr ⟨isPrefixOf?_eq_none_iff.mp hnone, ih h⟩

theorem lookup_reverse_cons_of_some (h : names.reverse.lookup name = some v) (entry : List Char × List Char) :
    (entry :: names).reverse.lookup name = some v := by
  rw [List.reverse_cons, List.lookup_append, h, Option.some_or]

theorem lookup_reverse_cons_self (h : name ∉ names.map Prod.fst) (value : List Char) :
    ((name, value) :: names).reverse.lookup name = some value := by
  have hnone : names.reverse.lookup name = none := by
    rw [List.lookup_eq_none_iff]
    intro entry hentry
    rw [bne_iff_ne]
    rintro rfl
    exact h (List.mem_map_of_mem (List.mem_reverse.mp hentry))
  rw [List.reverse_cons, List.lookup_append, hnone, Option.none_or]
  simp

/-- What is found is the last value of the longest name that the text begins with. -/
theorem exists_longest (h : longest? names s = some (v, rest)) :
    ∃ name, s = name ++ rest ∧ names.reverse.lookup name = some v ∧
      ∀ other ∈ names.map Prod.fst, other <+: s → other.length ≤ name.length := by
  induction names generalizing v rest with
  | nil => cases h
  | cons entry names ih =>
    obtain ⟨key, value⟩ := entry
    rw [longest?] at h
    split at h
    · next after other otherRest hkey hother =>
      have hs := List.isPrefixOf?_eq_some_iff_append_eq.mp hkey
      obtain ⟨name, hname, hvalue, hlongest⟩ := ih hother
      have hlength : key.length + after.length = name.length + otherRest.length := by
        simpa using congrArg List.length (hs.trans hname)
      split at h
      · next hlt =>
        cases h
        have hfree : key ∉ names.map Prod.fst := fun hmem =>
          absurd (hlongest key hmem ⟨_, hs⟩) (by omega)
        refine ⟨key, hs.symm, lookup_reverse_cons_self hfree _,
          List.forall_mem_cons.mpr ⟨fun _ => Nat.le_refl _, fun other hmem hprefix => ?_⟩⟩
        have := hlongest other hmem hprefix
        omega
      · next hle =>
        cases h
        refine ⟨name, hname, lookup_reverse_cons_of_some hvalue _,
          List.forall_mem_cons.mpr ⟨fun _ => ?_, hlongest⟩⟩
        dsimp only
        omega
    · next after hkey hnone =>
      cases h
      have hs := List.isPrefixOf?_eq_some_iff_append_eq.mp hkey
      have hshort := not_prefix_of_longest? hnone
      have hfree : key ∉ names.map Prod.fst := fun hmem => hshort key hmem ⟨_, hs⟩
      refine ⟨key, hs.symm, lookup_reverse_cons_self hfree _,
        List.forall_mem_cons.mpr ⟨fun _ => Nat.le_refl _, fun other hmem hprefix => ?_⟩⟩
      exact absurd hprefix (hshort other hmem)
    · next hkey =>
      obtain ⟨name, hname, hvalue, hlongest⟩ := ih h
      refine ⟨name, hname, lookup_reverse_cons_of_some hvalue _,
        List.forall_mem_cons.mpr ⟨fun hprefix => ?_, hlongest⟩⟩
      exact absurd hprefix (isPrefixOf?_eq_none_iff.mp hkey)

end longest

section values

variable {s name v rest out : List Char}

theorem isDeclared_iff_mem_values : c.IsDeclared name ↔ name ∈ (c.values call).map Prod.fst := by
  have hkeys : (c.values call).map Prod.fst = (c.params.map Prod.fst).map String.toList := by
    simp [values]
  rw [hkeys]
  constructor
  · exact fun h => List.mem_map.mpr ⟨_, h, String.toList_ofList⟩
  · intro h
    obtain ⟨key, hkey, rfl⟩ := List.mem_map.mp h
    rwa [IsDeclared, String.ofList_toList]

theorem isDeclared_iff : c.IsDeclared name ↔ (c.value? call name).isSome = true := by
  rw [value?, Option.isSome_map, List.lookup_isSome_iff]
  constructor
  · intro h
    obtain ⟨entry, hentry, hname⟩ := List.mem_map.mp h
    exact ⟨entry, List.mem_reverse.mpr hentry, beq_iff_eq.mpr hname.symm⟩
  · rintro ⟨entry, hentry, hname⟩
    exact List.mem_map.mpr ⟨entry, List.mem_reverse.mp hentry, (beq_iff_eq.mp hname).symm⟩

theorem lookup_values : (c.values call).reverse.lookup name = c.value? call name := by
  unfold values value?
  rw [← List.map_reverse]
  induction c.params.reverse with
  | nil => rfl
  | cons entry entries ih =>
    obtain ⟨key, default⟩ := entry
    rw [List.map_cons, List.lookup_cons, List.lookup_cons, ih]
    have hsame : (name == key.toList) = (String.ofList name == key) := by
      rw [Bool.eq_iff_iff, beq_iff_eq, beq_iff_eq]
      exact ⟨fun h => by rw [h, String.ofList_toList], fun h => by rw [← h, String.toList_ofList]⟩
    rw [hsame]
    cases hkey : String.ofList name == key with
    | true => rw [beq_iff_eq.mp hkey]; rfl
    | false => rfl

/-- One pass over a text takes the longest declared name at every dollar sign. -/
theorem replaces_substitute (s : List Char) :
    Replaces (c.value? call) c.LongestName s (substitute (c.values call) s) := by
  fun_induction substitute (c.values call) s with
  | case1 => exact .nil
  | case2 rest v after hfound _ ih =>
    obtain ⟨name, rfl, hvalue, hlongest⟩ := exists_longest hfound
    rw [lookup_values] at hvalue
    have hdeclared : c.IsDeclared name := isDeclared_iff.mpr (Option.isSome_of_eq_some hvalue)
    refine .name ⟨hdeclared, List.prefix_append _ _, fun other hother => ?_⟩ hvalue ih
    exact hlongest other (isDeclared_iff_mem_values.mp hother)
  | case3 rest hnone ih =>
    refine .lone (fun name htaken => ?_) ih
    exact not_prefix_of_longest? hnone name (isDeclared_iff_mem_values.mp htaken.1) htaken.2.1
  | case4 d rest hd ih => exact .plain hd ih

end values

section replaces

variable {value : List Char → Option (List Char)} {Takes : List Char → List Char → Prop}
  {s name other out more : List Char}

theorem Replaces.at_plain {d : Char} (hd : d ≠ '$') (h : Replaces value Takes (d :: s) out) :
    ∃ tail, Replaces value Takes s tail ∧ out = d :: tail := by
  cases h with
  | plain _ rest => exact ⟨_, rest, rfl⟩
  | name => exact absurd rfl hd
  | lone => exact absurd rfl hd

/-- At a dollar sign a name is taken, or there is none to take. -/
theorem Replaces.at_dollar (h : Replaces value Takes ('$' :: s) out) :
    (∃ name rest v tail, s = name ++ rest ∧ Takes s name ∧ value name = some v ∧ Replaces value Takes rest tail ∧
        out = v ++ tail) ∨
      (∀ name, ¬ Takes s name) ∧ ∃ tail, Replaces value Takes s tail ∧ out = '$' :: tail := by
  cases h with
  | plain hc => exact absurd rfl hc
  | name taken known rest => exact .inl ⟨_, _, _, _, rfl, taken, known, rest, rfl⟩
  | lone free rest => exact .inr ⟨free, _, rest, rfl⟩

theorem replaces_self (hs : '$' ∉ s) : Replaces value Takes s s := by
  induction s with
  | nil => exact .nil
  | cons d s ih =>
    rw [List.mem_cons, not_or] at hs
    exact .plain (Ne.symm hs.1) (ih hs.2)

/-- Where at most one name can be taken, at most one text comes of a text. -/
theorem Replaces.unique (hTakes : ∀ s a b, Takes s a → Takes s b → a = b) (h : Replaces value Takes s out)
    (k : Replaces value Takes s more) : out = more := by
  induction h generalizing more with
  | nil =>
    cases k
    rfl
  | plain hc _ ih =>
    obtain ⟨tail, hrest, rfl⟩ := k.at_plain hc
    rw [ih hrest]
  | name taken known _ ih =>
    rcases k.at_dollar with ⟨name, rest, v, tail, hs, htaken, hv, hrest, rfl⟩ | ⟨hfree, -⟩
    · obtain rfl := hTakes _ _ _ taken htaken
      obtain rfl := List.append_cancel_left hs
      rw [ih hrest, Option.some.inj (known.symm.trans hv)]
    · exact absurd taken (hfree _)
  | lone free _ ih =>
    rcases k.at_dollar with ⟨name, rest, v, tail, hs, htaken, -⟩ | ⟨-, tail, hrest, rfl⟩
    · exact absurd htaken (free name)
    · rw [ih hrest]

theorem LongestName.unique (h : c.LongestName s name) (k : c.LongestName s other) : name = other := by
  have hle := k.2.2 name h.1 h.2.1
  have hge := h.2.2 other k.1 k.2.1
  exact (List.prefix_of_prefix_length_le h.2.1 k.2.1 hle).eq_of_length (Nat.le_antisymm hle hge)

theorem exists_longestName (h : c.IsDeclared name) (hs : name <+: s) : ∃ name, c.LongestName s name := by
  cases hfound : longest? (c.values (.ofTag "")) s with
  | none => exact absurd hs (not_prefix_of_longest? hfound name (isDeclared_iff_mem_values.mp h))
  | some found =>
    obtain ⟨name, rfl, hvalue, hlongest⟩ := exists_longest hfound
    rw [lookup_values] at hvalue
    refine ⟨name, isDeclared_iff.mpr (Option.isSome_of_eq_some hvalue), List.prefix_append _ _, fun other hother => ?_⟩
    exact hlongest other (isDeclared_iff_mem_values.mp hother)

end replaces

section captures

variable {s t name out more : List Char}

theorem Captures.append (h : c.Captures s) (t : List Char) : c.Captures (t ++ s) := by
  obtain ⟨before, after, rfl, hcaptured⟩ := h
  exact ⟨t ++ before, after, (List.append_assoc _ _ _).symm, hcaptured⟩

/-- What captures in a text stands behind a part without dollar signs. -/
theorem Captures.of_append (ht : '$' ∉ t) (h : c.Captures (t ++ s)) : c.Captures s := by
  obtain ⟨before, after, heq, hcaptured⟩ := h
  rcases List.append_eq_append_iff.mp heq with ⟨skipped, rfl, rfl⟩ | ⟨skipped, rfl, hs⟩
  · exact ⟨skipped, after, rfl, hcaptured⟩
  · cases skipped with
    | nil => exact ⟨[], after, hs.symm, hcaptured⟩
    | cons d skipped =>
      obtain ⟨rfl, -⟩ := List.cons.inj hs
      exact absurd (List.mem_append_right _ List.mem_cons_self) ht

theorem captures_cons_iff {d : Char} : c.Captures (d :: s) ↔
    (d = '$' ∧ ¬ c.IsDeclared (Text.identifier s) ∧ ∃ entry ∈ c.params, entry.1.toList <+: Text.identifier s) ∨
      c.Captures s := by
  constructor
  · rintro ⟨before, after, heq, hfree, name, hdeclared, hname⟩
    cases before with
    | nil =>
      obtain ⟨rfl, rfl⟩ := List.cons.inj heq
      obtain ⟨entry, hentry, hkey⟩ := List.mem_map.mp hdeclared
      refine .inl ⟨rfl, hfree, entry, hentry, ?_⟩
      rwa [hkey, String.toList_ofList]
    | cons _ before =>
      obtain rfl := (List.cons.inj heq).2
      exact .inr ⟨before, after, rfl, hfree, name, hdeclared, hname⟩
  · rintro (⟨rfl, hfree, entry, hentry, hname⟩ | h)
    · refine ⟨[], s, rfl, hfree, entry.1.toList, ?_, hname⟩
      rw [IsDeclared, String.ofList_toList]
      exact List.mem_map_of_mem hentry
    · exact h.append [d]

instance : DecidablePred c.IsDeclared := fun name =>
  inferInstanceAs (Decidable (String.ofList name ∈ c.params.map Prod.fst))

instance decidableCaptures : (s : List Char) → Decidable (c.Captures s)
  | [] => isFalse fun ⟨before, after, heq, _⟩ => by simp at heq
  | _ :: s =>
    have := decidableCaptures s
    decidable_of_iff' _ captures_cons_iff

variable (hnames : ∀ entry ∈ c.params, Text.IsIdentifier entry.1.toList)

include hnames

theorem isIdentifier_of_isDeclared (h : c.IsDeclared name) : Text.IsIdentifier name := by
  obtain ⟨entry, hentry, hname⟩ := List.mem_map.mp h
  have hid := hnames entry hentry
  rwa [hname, String.toList_ofList] at hid

/-- Where identifiers are declared, the whole identifier at the head of a text is the longest name there. -/
theorem WholeName.longest (h : c.WholeName s name) : c.LongestName s name := by
  obtain ⟨hdeclared, rfl⟩ := h
  refine ⟨hdeclared, Text.identifier_prefix s, fun other hother hs => ?_⟩
  exact ((isIdentifier_of_isDeclared hnames hother).prefix_identifier hs).length_le

theorem captures_dollar_iff : c.Captures ('$' :: s) ↔
    (¬ c.IsDeclared (Text.identifier s) ∧ ∃ name, c.LongestName s name) ∨ c.Captures s := by
  rw [captures_cons_iff]
  refine or_congr ⟨fun ⟨_, hfree, entry, hentry, hname⟩ => ⟨hfree, ?_⟩, fun ⟨hfree, name, hname⟩ => ?_⟩ .rfl
  · have hdeclared : c.IsDeclared entry.1.toList := by
      rw [IsDeclared, String.ofList_toList]
      exact List.mem_map_of_mem hentry
    exact exists_longestName hdeclared (hname.trans (Text.identifier_prefix s))
  · obtain ⟨entry, hentry, hkey⟩ := List.mem_map.mp hname.1
    refine ⟨rfl, hfree, entry, hentry, ?_⟩
    rw [hkey, String.toList_ofList]
    exact (isIdentifier_of_isDeclared hnames hname.1).prefix_identifier hname.2.1

/-- Where nothing is captured, the names that are taken are whole identifiers. -/
theorem Replaces.whole (h : Replaces (c.value? call) c.LongestName s out) (hs : ¬ c.Captures s) :
    Replaces (c.value? call) c.WholeName s out := by
  induction h with
  | nil => exact .nil
  | plain hc _ ih => exact .plain hc (ih fun h => hs (h.append [_]))
  | @name name v s out taken known _ ih =>
    have hdollar := mt (captures_dollar_iff hnames).mpr hs
    have hwhole : c.IsDeclared (Text.identifier (name ++ s)) := by
      by_contra hfree
      exact hdollar (.inl ⟨hfree, name, taken⟩)
    have hsame : Text.identifier (name ++ s) = name := (WholeName.longest hnames ⟨hwhole, rfl⟩).unique taken
    refine .name ⟨taken.1, hsame⟩ known (ih fun h => hdollar (.inr (h.append name)))
  | lone free _ ih =>
    refine .lone (fun name htaken => free name (htaken.longest hnames)) (ih fun h => hs (h.append ['$']))

/-- Where values are told from placeholders and the names that are taken are whole identifiers, nothing is captured. -/
theorem Replaces.not_captures (hvalue : ∀ name v, c.value? call name = some v → v = ['-'])
    (h : Replaces (c.value? call) c.WholeName s out) (k : Replaces (c.value? call) c.LongestName s out) :
    ¬ c.Captures s := by
  induction h with
  | nil =>
    rintro ⟨before, after, heq, -⟩
    simp at heq
  | plain hc _ ih =>
    obtain ⟨tail, hrest, hout⟩ := k.at_plain hc
    obtain rfl := (List.cons.inj hout).2
    exact fun hcaptured => ih hrest (hcaptured.of_append (t := [_]) (mt List.mem_singleton.mp hc.symm))
  | @name name v s out taken known _ ih =>
    rcases k.at_dollar with ⟨other, rest, w, tail, hs, htaken, hw, hrest, hout⟩ | ⟨hfree, -⟩
    · obtain rfl := (taken.longest hnames).unique htaken
      obtain rfl := List.append_cancel_left hs
      obtain rfl := Option.some.inj (known.symm.trans hw)
      obtain rfl := List.append_cancel_left hout
      have hdollar := Text.dollar_not_mem_of_isIdentifier (isIdentifier_of_isDeclared hnames taken.1)
      rw [captures_dollar_iff hnames, taken.2]
      rintro (⟨hfree, -⟩ | hcaptured)
      · exact hfree taken.1
      · exact ih hrest (hcaptured.of_append hdollar)
    · exact absurd (taken.longest hnames) (hfree name)
  | lone free _ ih =>
    rcases k.at_dollar with ⟨other, rest, w, tail, hs, htaken, hw, hrest, hout⟩ | ⟨hfree, tail, hrest, hout⟩
    · obtain rfl := hvalue other w hw
      exact absurd hout (by simp)
    · obtain rfl := (List.cons.inj hout).2
      rw [captures_dollar_iff hnames]
      rintro (⟨-, name, hname⟩ | hcaptured)
      · exact hfree name hname
      · exact ih hrest hcaptured

end captures

section template

variable {names : List (List Char × List Char)}

mutual

theorem fillIn_eq_mapTexts (n : Node) : fillIn names n = n.mapTexts (substituteText names) := by
  cases n with
  | mk tag attributes text children tail => rw [fillIn, Node.mapTexts, fillInAll_eq_mapTextsAll children]

theorem fillInAll_eq_mapTextsAll (ns : List Node) :
    fillInAll names ns = Node.mapTextsAll (substituteText names) ns := by
  cases ns with
  | nil => rfl
  | cons n ns => rw [fillInAll, Node.mapTextsAll, fillIn_eq_mapTexts n, fillInAll_eq_mapTextsAll ns]

end

theorem expand_eq_dress (call : Node) :
    c.expand call = c.dress call (c.template.mapTexts (substituteText (c.values call))) := by
  rw [← fillIn_eq_mapTexts]
  rfl

/-- A call that gives every parameter one value. -/
def uniformCall (c : Component) (value : String) : Node :=
  .mk c.name (c.params.map fun entry => (entry.1, value)) none [] none

theorem attribute?_uniformCall {name : String} (value : String) (h : name ∈ c.params.map Prod.fst) :
    (c.uniformCall value).attribute? name = some value := by
  obtain ⟨entry, hentry, rfl⟩ := List.mem_map.mp h
  have hmem : (entry.1, value) ∈ (c.uniformCall value).attributes := List.mem_map_of_mem hentry
  obtain ⟨found, hfound⟩ := Option.isSome_iff_exists.mp (List.lookup_isSome_iff.mpr ⟨_, hmem, BEq.rfl⟩)
  obtain ⟨before, after, heq, -⟩ := List.lookup_eq_some_iff.mp hfound
  have hgiven : (entry.1, found) ∈ (c.uniformCall value).attributes := heq ▸ List.mem_append_right _ List.mem_cons_self
  obtain ⟨_, -, hvalue⟩ := List.mem_map.mp hgiven
  exact hfound.trans (congrArg some (Prod.mk.inj hvalue).2.symm)

theorem value?_uniformCall {value : String} {name v : List Char} (h : c.value? (c.uniformCall value) name = some v) :
    v = value.toList := by
  have hdeclared : c.IsDeclared name := isDeclared_iff.mpr (Option.isSome_of_eq_some h)
  obtain ⟨default, -, hv⟩ := Option.map_eq_some_iff.mp h
  rw [← hv, attribute?_uniformCall value hdeclared]
  rfl

end template

/-- A call fills in the template and dresses it; of the placeholders in the template it replaces those that are declared
and leaves all others exactly if no declared name begins one that is not declared. -/
theorem expand_replaces_whole_names_iff (c : Component)
    (hnames : ∀ entry ∈ c.params, Text.IsIdentifier entry.1.toList) :
    (∀ call, c.expand call = c.dress call (c.template.mapTexts (substituteText (c.values call)))) ∧
      ((∀ call, ∀ s ∈ c.template.texts,
          Replaces (c.value? call) c.WholeName s.toList (substituteText (c.values call) s).toList) ↔
        ∀ s ∈ c.template.texts, ¬ c.Captures s.toList) := by
  refine ⟨expand_eq_dress, fun h s hs => ?_, fun h call s hs => ?_⟩
  · have hwhole := h (c.uniformCall "-") s hs
    have hlongest : Replaces (c.value? (c.uniformCall "-")) c.LongestName s.toList _ :=
      replaces_substitute s.toList
    rw [substituteText, String.toList_ofList] at hwhole
    exact Replaces.not_captures hnames (fun _ _ => value?_uniformCall) hwhole hlongest
  · rw [substituteText, String.toList_ofList]
    exact (replaces_substitute s.toList).whole hnames (h s hs)

/-- A component with a parameter whose name begins that of another. -/
def item : Component where
  name := "item"
  params := [("c", "x"), ("count", "$c")]
  template := .mk "text" [("value", "$count")] (some "$c/$count of $total") [] none

theorem expand_replaces_whole_names_item : (∀ entry ∈ item.params, Text.IsIdentifier entry.1.toList) ∧
    (∀ call, item.expand call = item.dress call (item.template.mapTexts (substituteText (item.values call)))) ∧
    ∀ call, ∀ s ∈ item.template.texts,
      Replaces (item.value? call) item.WholeName s.toList (substituteText (item.values call) s).toList := by
  have hnames : ∀ entry ∈ item.params, Text.IsIdentifier entry.1.toList := by decide
  obtain ⟨hexpand, hwhole⟩ := expand_replaces_whole_names_iff item hnames
  exact ⟨hnames, hexpand, hwhole.mpr (by decide)⟩

/-- A component without the longer name, with a placeholder for it. -/
def row : Component where
  name := "row"
  params := [("c", "x")]
  template := .mk "text" [] (some "$count") [] none

theorem shorter_name_captures : (∀ entry ∈ row.params, Text.IsIdentifier entry.1.toList) ∧
    ¬ row.IsDeclared (Text.identifier "count".toList) ∧
    row.expand (.ofTag "row") = .mk "text" [] (some "xount") [] none ∧
    Replaces (row.value? (.ofTag "row")) row.WholeName "$count".toList "$count".toList ∧
    ¬ Replaces (row.value? (.ofTag "row")) row.WholeName "$count".toList "xount".toList := by
  have hfree : ∀ name, ¬ row.WholeName "count".toList name := by
    rintro name ⟨hdeclared, rfl⟩
    exact absurd hdeclared (by decide)
  have hkept : Replaces (row.value? (.ofTag "row")) row.WholeName "$count".toList "$count".toList :=
    .lone hfree (replaces_self (by decide))
  refine ⟨by decide, by decide, by cbv, hkept, fun h => ?_⟩
  have hsame := hkept.unique (fun _ _ _ ha hb => ha.2.symm.trans hb.2) h
  exact absurd hsame (by decide)

end Component

end Hypermedia
