import Hypermedia.Markup.Reader
import Mathlib.Data.List.Nodup

/-! Elements: what holds at each element of a tree, and that no element that is read has two attributes
of one name. -/
namespace Hypermedia

namespace Node

theorem induction {motive : Node → Prop}
    (mk : ∀ tag attributes text children tail, (∀ c ∈ children, motive c) →
      motive (.mk tag attributes text children tail)) (n : Node) : motive n :=
  @Node.rec motive (fun ns => ∀ n ∈ ns, motive n)
    (fun tag attributes text children tail ih => mk tag attributes text children tail ih)
    (fun _ hn => nomatch hn)
    (fun _ _ hn hrest => List.forall_mem_cons.mpr ⟨hn, hrest⟩) n

/-- `p` holds of the tag and attributes of an element and of all elements below it. -/
inductive Each (p : String → List (String × String) → Prop) : Node → Prop where
  | mk {tag attributes text children tail} (here : p tag attributes)
      (below : ∀ c ∈ children, Each p c) : Each p (.mk tag attributes text children tail)

namespace Each

variable {p : String → List (String × String) → Prop} {n : Node}

theorem iff_root_and_children :
    n.Each p ↔ p n.tag n.attributes ∧ ∀ c ∈ n.children, c.Each p := by
  constructor
  · rintro ⟨here, below⟩
    exact ⟨here, below⟩
  · cases n with
    | mk tag attributes text children tail => exact fun h => .mk h.1 h.2

theorem of_mem_children (h : n.Each p) {c : Node} (hc : c ∈ n.children) : c.Each p := by
  cases h with
  | mk _ below => exact below c hc

theorem withChildren (h : n.Each p) {children : List Node} (hc : ∀ c ∈ children, c.Each p) :
    (n.withChildren children).Each p := by
  cases h with
  | mk here _ => exact .mk here hc

theorem withText (h : n.Each p) (text : Option String) : (n.withText text).Each p := by
  cases h with
  | mk here below => exact .mk here below

theorem withTail (h : n.Each p) (tail : Option String) : (n.withTail tail).Each p := by
  cases h with
  | mk here below => exact .mk here below

end Each

section attributes

variable {n : Node} {name other value : String} {attributes : List (String × String)}

/-- No two attributes have the same name. -/
def Distinct (_ : String) (attributes : List (String × String)) : Prop :=
  (attributes.map Prod.fst).Nodup

private theorem lookup_cons_of_ne {key : String} (h : other ≠ key) :
    ((key, value) :: attributes).lookup other = attributes.lookup other := by
  have hb : (other == key) = false := by simpa using h
  simp only [List.lookup_cons, hb]

theorem lookup_putAttribute_of_ne (h : other ≠ name) :
    (putAttribute name value attributes).lookup other = attributes.lookup other := by
  induction attributes with
  | nil => exact lookup_cons_of_ne h
  | cons entry rest ih =>
    obtain ⟨key, old⟩ := entry
    rw [putAttribute]
    by_cases hk : key = name
    · subst hk
      rw [if_pos rfl, lookup_cons_of_ne h, lookup_cons_of_ne h]
    · rw [if_neg hk, List.lookup_cons, List.lookup_cons, ih]

theorem attribute?_setAttributes (hn : n.attribute? name = none)
    (ha : attributes.lookup name = none) : (n.setAttributes attributes).attribute? name = none := by
  unfold setAttributes
  induction attributes generalizing n with
  | nil => exact hn
  | cons entry rest ih =>
    obtain ⟨key, value⟩ := entry
    have hne : name ≠ key := by
      rintro rfl
      simp at ha
    rw [lookup_cons_of_ne hne] at ha
    refine ih ?_ ha
    exact (lookup_putAttribute_of_ne hne).trans hn

@[simp] theorem tag_setAttributes : (n.setAttributes attributes).tag = n.tag := by
  unfold setAttributes
  induction attributes generalizing n with
  | nil => rfl
  | cons entry rest ih => exact ih

@[simp] theorem children_setAttributes : (n.setAttributes attributes).children = n.children := by
  unfold setAttributes
  induction attributes generalizing n with
  | nil => rfl
  | cons entry rest ih => exact ih

theorem withChildren_setAttributes {children : List Node} :
    (n.setAttributes attributes).withChildren children =
      (n.withChildren children).setAttributes attributes := by
  unfold setAttributes
  induction attributes generalizing n with
  | nil => rfl
  | cons entry rest ih => exact ih

theorem lookup_eq_none_of_not_mem (h : name ∉ attributes.map Prod.fst) :
    attributes.lookup name = none := by
  rw [List.lookup_eq_none_iff]
  intro entry hentry
  rw [bne_iff_ne]
  rintro rfl
  exact h (List.mem_map_of_mem hentry)

/-- Where names are distinct, an attribute that is dropped is gone. -/
theorem lookup_dropAttribute (h : (attributes.map Prod.fst).Nodup) :
    (dropAttribute name attributes).lookup name = none := by
  unfold dropAttribute
  induction attributes with
  | nil => rfl
  | cons entry rest ih =>
    rw [List.map_cons, List.nodup_cons] at h
    by_cases he : entry.1 = name
    · rw [List.eraseP_cons_of_pos (by simp [he])]
      exact lookup_eq_none_of_not_mem (he ▸ h.1)
    · rw [List.eraseP_cons_of_neg (by simp [he]), lookup_cons_of_ne (Ne.symm he)]
      exact ih h.2

end attributes

end Node

namespace Markup

open Node (Each Distinct)

variable {n : Node} {text : String}

/-- An event that begins an element gives it attributes of distinct names. -/
def Event.Proper : Event → Prop
  | .start tag attributes | .single tag attributes => Distinct tag attributes
  | .stop | .chars _ | .aside => True

section scan

variable {taken : List String} {s : List Char} {attributes : List (String × String)}

theorem names_attributes? (h : attributes? taken s = some attributes) :
    (attributes.map Prod.fst).Nodup ∧ ∀ name ∈ taken, name ∉ attributes.map Prod.fst := by
  fun_induction attributes? taken s generalizing attributes with
  | case1 =>
    cases h
    exact ⟨List.nodup_nil, fun _ _ => List.not_mem_nil⟩
  | case3 =>
    rename_i hfree _ _ _ _ _ _ _ _ ih
    obtain ⟨text, -, hrest⟩ := Option.bind_eq_some_iff.mp h
    obtain ⟨more, hmore, rfl⟩ := Option.map_eq_some_iff.mp hrest
    obtain ⟨hnodup, htaken⟩ := ih hmore
    rw [List.forall_mem_cons] at htaken
    refine ⟨List.nodup_cons.mpr ⟨htaken.1, hnodup⟩, fun other ho => ?_⟩
    rw [List.map_cons, List.mem_cons, not_or]
    refine ⟨?_, htaken.2 other ho⟩
    rintro rfl
    exact hfree (by simpa using ho)
  | _ => cases h

theorem proper_tagEvent? {body : List Char} {e : Event} (h : tagEvent? body = some e) : e.Proper := by
  unfold tagEvent? at h
  split at h
  · obtain ⟨attributes, ha, rfl⟩ := Option.map_eq_some_iff.mp h
    exact (names_attributes? ha).1
  · obtain ⟨attributes, ha, rfl⟩ := Option.map_eq_some_iff.mp h
    exact (names_attributes? ha).1

theorem proper_bangEvent? {body : List Char} {e : Event} (h : bangEvent? body = some e) :
    e.Proper := by
  unfold bangEvent? at h
  split_ifs at h <;> cases h <;> trivial

theorem proper_instructionEvent? {body : List Char} {e : Event} (h : instructionEvent? body = some e) :
    e.Proper := by
  unfold instructionEvent? at h
  split_ifs at h
  cases h
  trivial

theorem proper_scan (opened : List String) (s : List Char) : ∀ e ∈ (scan opened s).1, e.Proper := by
  fun_induction scan opened s with
  | case6 opened decl stop _ body after _ _ e he es fault hes ih =>
    rw [hes] at ih
    exact List.forall_mem_cons.mpr ⟨proper_bangEvent? he, ih⟩
  | case9 opened instruction body after _ _ e he es fault hes ih =>
    rw [hes] at ih
    exact List.forall_mem_cons.mpr ⟨proper_instructionEvent? he, ih⟩
  | case11 more body after outer es fault hes _ _ _ _ ih =>
    rw [hes] at ih
    exact List.forall_mem_cons.mpr ⟨trivial, ih⟩
  | case15 opened d more _ _ body after _ _ _ e he es fault hes ih =>
    rw [hes] at ih
    exact List.forall_mem_cons.mpr ⟨proper_tagEvent? he, ih⟩
  | case17 opened c rest _ text _ _ es fault hes ih =>
    rw [hes] at ih
    exact List.forall_mem_cons.mpr ⟨trivial, ih⟩
  | _ => exact List.forall_mem_nil _

end scan

section reading

variable {r after : Reading} {root : Node}

theorem each_addText {p : String → List (String × String) → Prop} (h : n.Each p) :
    (addText n text).Each p := by
  unfold addText
  split
  next last hlast =>
    refine h.withChildren fun c hc => ?_
    rcases List.mem_append.mp hc with hc | hc
    · exact h.of_mem_children (List.dropLast_subset _ hc)
    · rw [List.mem_singleton.mp hc]
      exact (h.of_mem_children (List.mem_of_getLast? hlast)).withTail _
  next => exact h.withText _

/-- Every element read so far has attributes of distinct names. -/
structure Reading.Proper (r : Reading) : Prop where
  opened : ∀ n ∈ r.opened, n.Each Distinct
  root : ∀ n, r.root = some n → n.Each Distinct

theorem Reading.Proper.close (hr : r.Proper) (hn : n.Each Distinct) (h : r.close n = .ok after) :
    after.Proper := by
  unfold Reading.close at h
  split at h
  next parent outer hopened =>
    cases h
    have ho := hr.opened
    rw [hopened, List.forall_mem_cons] at ho
    refine ⟨List.forall_mem_cons.mpr ⟨ho.1.withChildren ?_, ho.2⟩, hr.root⟩
    exact fun c hc => (List.mem_append.mp hc).elim (ho.1.of_mem_children)
      fun hc => List.mem_singleton.mp hc ▸ hn
  next =>
    cases h
    exact ⟨hr.opened, fun _ h => Option.some.inj h ▸ hn⟩
  next => cases h

theorem Reading.Proper.step {e : Event} (hr : r.Proper) (he : e.Proper) (h : r.step e = .ok after) :
    after.Proper := by
  cases e with
  | start tag attributes =>
    cases h
    exact ⟨List.forall_mem_cons.mpr ⟨.mk he (List.forall_mem_nil _), hr.opened⟩, hr.root⟩
  | single tag attributes => exact hr.close (.mk he (List.forall_mem_nil _)) h
  | stop =>
    simp only [Reading.step] at h
    split at h
    next n outer hopened =>
      have ho := hr.opened
      rw [hopened, List.forall_mem_cons] at ho
      exact Reading.Proper.close (r := { r with opened := outer }) ⟨ho.2, hr.root⟩ ho.1 h
    next => cases h
  | chars text =>
    simp only [Reading.step] at h
    split at h
    next n outer hopened =>
      cases h
      have ho := hr.opened
      rw [hopened, List.forall_mem_cons] at ho
      exact ⟨List.forall_mem_cons.mpr ⟨each_addText ho.1, ho.2⟩, hr.root⟩
    next =>
      cases h
      exact hr
  | aside =>
    cases h
    exact hr

theorem Reading.Proper.foldlM {events : List Event} (hr : r.Proper) (he : ∀ e ∈ events, e.Proper)
    (h : events.foldlM Reading.step r = .ok after) : after.Proper := by
  induction events generalizing r with
  | nil =>
    cases h
    exact hr
  | cons e events ih =>
    rw [List.forall_mem_cons] at he
    rw [List.foldlM_cons] at h
    cases hs : r.step e with
    | error fault =>
      rw [hs] at h
      cases h
    | ok next =>
      rw [hs] at h
      exact ih (hr.step he.1 hs) he.2 h

/-- No element of a document that is read has two attributes of one name. -/
theorem distinct_of_parse (h : parse text = .ok root) : root.Each Distinct := by
  unfold parse at h
  simp only at h
  split at h
  next => cases h
  next r hr =>
    have hproper := Reading.Proper.foldlM (r := {}) ⟨List.forall_mem_nil _, fun _ h => nomatch h⟩
      (proper_scan [] _) hr
    split_ifs at h
    unfold Reading.result at h
    split at h
    next => cases h
    next root' _ hroot =>
      cases h
      exact hproper.root _ hroot
    next => cases h

end reading

end Markup

end Hypermedia
