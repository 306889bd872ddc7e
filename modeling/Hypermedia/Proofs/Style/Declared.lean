import Hypermedia.Proofs.Lists
import Hypermedia.Style.Block
import Mathlib.Data.List.Basic
import Mathlib.Data.String.Basic

/-! What property lines, read one after another, leave in a rule map. -/
namespace Hypermedia

namespace Dict

variable {α : Type} {d : Dict α} {name key : String} {value : α}

def Sorted (d : Dict α) : Prop :=
  d.names.Pairwise (· < ·)

theorem sorted_empty : (empty : Dict α).Sorted :=
  List.Pairwise.nil

theorem lookup_ne_none_iff {entries : List (String × α)} :
    entries.lookup key ≠ none ↔ key ∈ entries.map (·.1) := by
  induction entries with
  | nil => simp
  | cons entry rest ih =>
    rw [lookup_cons_eq, List.map_cons, List.mem_cons, ← ih]
    split <;> simp_all

theorem lookup_insertInto (name key : String) (value : α) (entries : List (String × α)) :
    (insertInto name value entries).lookup key = if key = name then some value else entries.lookup key := by
  induction entries with
  | nil => rw [insertInto, lookup_cons_eq]
  | cons entry rest ih =>
    obtain ⟨first, old⟩ := entry
    rw [insertInto]
    split
    · rw [lookup_cons_eq]
    split
    · next heq =>
      rw [lookup_cons_eq, lookup_cons_eq, ← heq]
      split <;> rfl
    · next hne =>
      rw [lookup_cons_eq, lookup_cons_eq, ih]
      by_cases hkey : key = first
      · have hother : ¬ key = name := fun h => hne (h.symm.trans hkey)
        rw [if_pos hkey, if_neg hother, if_pos hkey]
      · rw [if_neg hkey, if_neg hkey]

theorem get?_insert : (d.insert name value).get? key = if key = name then some value else d.get? key :=
  lookup_insertInto name key value d.entries

theorem mem_names_insertInto (entries : List (String × α)) :
    key ∈ (insertInto name value entries).map (·.1) ↔ key = name ∨ key ∈ entries.map (·.1) := by
  rw [← lookup_ne_none_iff, ← lookup_ne_none_iff, lookup_insertInto]
  by_cases hkey : key = name <;> simp [hkey]

theorem pairwise_insertInto {entries : List (String × α)} (h : (entries.map (·.1)).Pairwise (· < ·)) :
    ((insertInto name value entries).map (·.1)).Pairwise (· < ·) := by
  induction entries with
  | nil => exact List.pairwise_singleton _ _
  | cons entry rest ih =>
    obtain ⟨first, old⟩ := entry
    obtain ⟨hfirst, hrest⟩ := List.pairwise_cons.mp h
    rw [insertInto]
    split
    · next hlt =>
      refine List.pairwise_cons.mpr ⟨List.forall_mem_cons.mpr ⟨hlt, fun k hk => ?_⟩, h⟩
      exact lt_trans hlt (hfirst k hk)
    split
    · next heq => exact List.pairwise_cons.mpr ⟨heq ▸ hfirst, hrest⟩
    · next hlt hne =>
      refine List.pairwise_cons.mpr ⟨fun k hk => ?_, ih hrest⟩
      rcases (mem_names_insertInto rest).mp hk with rfl | hk
      · exact lt_of_le_of_ne (not_lt.mp hlt) (Ne.symm hne)
      · exact hfirst k hk

theorem Sorted.insert (h : d.Sorted) : (d.insert name value).Sorted :=
  pairwise_insertInto h

end Dict

namespace Style

/-- A property line: its selector joined with those around it, the name, and the value as written. -/
structure Declaration where
  selector : String
  name : String
  value : String

/-- What the last of the lines that give a selector a property says of it. -/
def lastValue (ds : List Declaration) (selector name : String) : Option Value :=
  (ds.filter fun d => d.selector = selector ∧ d.name = name).getLast?.map fun d => Value.parse d.value

/-- A rule map with what the lines say: the selectors in the order of their first lines, and under each of them the
last values of its properties. -/
structure RuleMap.Holds (m : RuleMap) (ds : List Declaration) : Prop where
  selectors : m.entries.map (·.1) = (ds.map (·.selector)).eraseDups
  values : ∀ selector properties, m.get? selector = some properties →
    properties.Sorted ∧ ∀ name, properties.get? name = lastValue ds selector name

def RuleMap.declare (m : RuleMap) (d : Declaration) : RuleMap :=
  m.setProperty d.selector d.name (Value.parse d.value)

variable {m : RuleMap} {ds : List Declaration} {d : Declaration} {selector name s : String} {properties : Properties}

theorem lastValue_concat : lastValue (ds ++ [d]) selector name =
    if d.selector = selector ∧ d.name = name then some (Value.parse d.value) else lastValue ds selector name := by
  unfold lastValue
  rw [List.filter_append]
  by_cases hd : d.selector = selector ∧ d.name = name
  · simp [hd]
  · simp [hd]

theorem lastValue_of_not_mem (h : selector ∉ ds.map (·.selector)) (name : String) :
    lastValue ds selector name = none := by
  have hnone : (ds.filter fun d => d.selector = selector ∧ d.name = name) = [] := by
    refine List.filter_eq_nil_iff.mpr fun d hd hmatch => h ?_
    exact List.mem_map.mpr ⟨d, hd, (of_decide_eq_true hmatch).1⟩
  rw [lastValue, hnone]
  rfl

theorem RuleMap.get?_eq_none_iff : m.get? selector = none ↔ selector ∉ m.entries.map (·.1) := by
  rw [← Dict.lookup_ne_none_iff, not_not]
  rfl

theorem any_selector : m.entries.any (·.1 == selector) = true ↔ selector ∈ m.entries.map (·.1) := by
  simp

theorem RuleMap.selectors_insert : (m.insert selector properties).entries.map (·.1) =
    if selector ∈ m.entries.map (·.1) then m.entries.map (·.1) else m.entries.map (·.1) ++ [selector] := by
  unfold RuleMap.insert
  simp only [any_selector]
  split
  · rw [List.map_map]
    refine List.map_congr_left fun entry _ => ?_
    rw [Function.comp_apply]
    split <;> rfl
  · rw [List.map_append]
    rfl

theorem lookup_replace (entries : List (String × Properties)) :
    (entries.map fun entry => if entry.1 == selector then (entry.1, properties) else entry).lookup s =
      if s = selector then (entries.lookup s).map fun _ => properties else entries.lookup s := by
  induction entries with
  | nil => simp
  | cons entry rest ih =>
    rw [List.map_cons, lookup_cons_eq, ih, lookup_cons_eq]
    by_cases hentry : entry.1 = selector
    · by_cases hs : s = selector
      · simp [hentry, hs]
      · simp [hentry, hs]
    · by_cases hs : s = selector
      · have hne : ¬ selector = entry.1 := fun h => hentry h.symm
        simp [hentry, hs, hne]
      · simp [hentry, hs]

/-- Under a selector stand the properties put there last, and the others keep theirs. -/
theorem RuleMap.get?_insert : (m.insert selector properties).get? s =
    if s = selector then some properties else m.get? s := by
  unfold RuleMap.insert RuleMap.get?
  simp only [any_selector]
  split
  · next hmem =>
    rw [lookup_replace]
    by_cases hs : s = selector
    · have hs' : m.entries.lookup s ≠ none := Dict.lookup_ne_none_iff.mpr (hs ▸ hmem)
      obtain ⟨old, hold⟩ := Option.ne_none_iff_exists'.mp hs'
      simp [hs, hs ▸ hold]
    · simp [hs]
  · next hmem =>
    have hnone : m.entries.lookup selector = none := by
      by_contra h
      exact hmem (Dict.lookup_ne_none_iff.mp h)
    rw [List.lookup_append, lookup_cons_eq]
    by_cases hs : s = selector
    · simp [hs, hnone]
    · simp [hs]

theorem RuleMap.holds_empty : ({} : RuleMap).Holds [] :=
  ⟨rfl, fun _ _ h => by cases h⟩

theorem RuleMap.Holds.declare (h : m.Holds ds) (d : Declaration) : (m.declare d).Holds (ds ++ [d]) := by
  have hmem (s : String) : s ∈ m.entries.map (·.1) ↔ s ∈ ds.map (·.selector) := by
    rw [h.selectors, List.mem_eraseDups]
  have hold : ((m.get? d.selector).getD Dict.empty).Sorted ∧
      ∀ name, ((m.get? d.selector).getD Dict.empty).get? name = lastValue ds d.selector name := by
    cases hd : m.get? d.selector with
    | some properties => exact h.values _ _ hd
    | none =>
      have hnew := mt (hmem _).mpr (RuleMap.get?_eq_none_iff.mp hd)
      exact ⟨Dict.sorted_empty, fun name => (lastValue_of_not_mem hnew name).symm⟩
  refine ⟨?_, fun selector properties hp => ?_⟩
  · rw [RuleMap.declare, RuleMap.setProperty, RuleMap.selectors_insert, List.map_append, List.map_singleton,
      eraseDups_concat, ← h.selectors]
    simp only [hmem]
  · rw [RuleMap.declare, RuleMap.setProperty, RuleMap.get?_insert] at hp
    split at hp
    · next heq =>
      cases hp
      refine ⟨hold.1.insert, fun name => ?_⟩
      rw [Dict.get?_insert, lastValue_concat, hold.2, heq]
      simp [eq_comm]
    · next hne =>
      obtain ⟨hsorted, hlast⟩ := h.values _ _ hp
      refine ⟨hsorted, fun name => ?_⟩
      rw [lastValue_concat, if_neg fun h => hne h.1.symm, hlast]

theorem RuleMap.holds_foldl (h : m.Holds ds) (more : List Declaration) :
    (more.foldl RuleMap.declare m).Holds (ds ++ more) := by
  induction more generalizing m ds with
  | nil => simpa using h
  | cons d more ih => simpa using ih (h.declare d)

end Style

end Hypermedia
