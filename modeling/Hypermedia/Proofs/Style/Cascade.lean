import Hypermedia.Proofs.Style.Declared
import Hypermedia.Style.RuleBook
import Mathlib.Data.Prod.Lex

/-! The cascade: which of the rules in force gives a widget the value of a property. -/
namespace Hypermedia

theorem Dict.get?_insertAll {α : Type} {d : Dict α} {name : String} {entries : List (String × α)}
    (h : (entries.map (·.1)).Pairwise (· < ·)) :
    (d.insertAll entries).get? name = (entries.lookup name).or (d.get? name) := by
  induction entries generalizing d with
  | nil => rfl
  | cons entry rest ih =>
    obtain ⟨hfirst, hrest⟩ := List.pairwise_cons.mp h
    have hstep : d.insertAll (entry :: rest) = (d.insert entry.1 entry.2).insertAll rest := rfl
    rw [hstep, ih hrest, Dict.get?_insert, lookup_cons_eq]
    split
    · next heq =>
      have hnone : rest.lookup name = none := by
        by_contra hsome
        exact absurd (hfirst name (Dict.lookup_ne_none_iff.mp hsome)) (heq ▸ lt_irrefl _)
      rw [hnone]
      rfl
    · rfl

namespace Style

/-- What decides between two rules: the priority, then the specificity, then which was applied later. -/
def Rule.rank (r : Rule) : Int ×ₗ Nat ×ₗ Nat ×ₗ Nat ×ₗ Nat :=
  let s := r.selector.specificity
  toLex (r.priority, toLex (s.names, toLex (s.classes, toLex (s.kinds, r.order))))

/-- A rule bears on the resting style of a widget that its selector matches, if no part asks for a state. -/
def Rule.Bears (r : Rule) (t : Tree) (id : WidgetId) : Prop :=
  (∀ part ∈ r.selector.parts, part.state = none) ∧ r.selector.matches t id = true

namespace RuleBook

variable {b : RuleBook} {t : Tree} {id : WidgetId} {q r : Rule} {rules : List Rule} {name : String} {v : Value}

section ranks

theorem rank_le_iff : q.rank ≤ r.rank ↔ q.priority < r.priority ∨ q.priority = r.priority ∧
    (q.selector.specificity.names < r.selector.specificity.names ∨
      q.selector.specificity.names = r.selector.specificity.names ∧
    (q.selector.specificity.classes < r.selector.specificity.classes ∨
      q.selector.specificity.classes = r.selector.specificity.classes ∧
    (q.selector.specificity.kinds < r.selector.specificity.kinds ∨
      q.selector.specificity.kinds = r.selector.specificity.kinds ∧ q.order ≤ r.order))) := by
  simp only [Rule.rank, Prod.Lex.toLex_le_toLex]

theorem yields_iff : Rule.yields q r = true ↔ q.rank ≤ r.rank := by
  rw [rank_le_iff, Rule.yields]
  split_ifs <;> simp only [decide_eq_true_eq] <;> omega

theorem order_eq_of_rank_eq (h : q.rank = r.rank) : q.order = r.order := by
  have hle := rank_le_iff.mp h.le
  have hge := rank_le_iff.mp h.ge
  omega

theorem bears_iff : (!r.selector.hasState && r.selector.matches t id) = true ↔ r.Bears t id := by
  simp [Rule.Bears, Selector.hasState]

/-- The rules that bear on a widget, each with a lower rank than those after it. -/
theorem pairwise_bearing (h : b.rules.Pairwise fun q r => q.order < r.order) :
    (b.bearing t id).Pairwise fun q r => q.rank < r.rank := by
  have hsorted : (b.bearing t id).Pairwise fun q r => q.rank ≤ r.rank := by
    refine (List.pairwise_mergeSort ?_ ?_ _).imp fun hyields => yields_iff.mp hyields
    · intro p q r hpq hqr
      exact yields_iff.mpr ((yields_iff.mp hpq).trans (yields_iff.mp hqr))
    · intro q r
      rw [Bool.or_eq_true, yields_iff, yields_iff]
      exact le_total _ _
  have hdistinct : (b.bearing t id).Pairwise fun q r => q.rank ≠ r.rank := by
    refine (List.mergeSort_perm _ _).symm.pairwise ?_ fun hne heq => hne heq.symm
    exact (h.filter _).imp fun hlt heq => hlt.ne (order_eq_of_rank_eq heq)
  exact hsorted.imp₂ (fun _ _ hle hne => lt_of_le_of_ne hle hne) hdistinct

theorem mem_bearing_iff : r ∈ b.bearing t id ↔ r ∈ b.rules ∧ r.Bears t id := by
  rw [bearing, List.mem_mergeSort, List.mem_filter, bears_iff]

/-- A rule that does not bear on a widget does nothing for its style. -/
theorem compute_concat {c : RuleBook} (hc : c.rules = b.rules ++ [r]) (hr : ¬ r.Bears t id) :
    c.compute t id = b.compute t id := by
  have hnone : ([r].filter fun rule => !rule.selector.hasState && rule.selector.matches t id) = [] :=
    List.filter_eq_nil_iff.mpr (List.forall_mem_singleton.mpr fun hbears => hr (bears_iff.mp hbears))
  rw [compute, compute, bearing, bearing, hc, List.filter_append, hnone, List.append_nil]

end ranks

section values

/-- Rules laid over one another leave a property with the value from the last of them that gives it one. -/
theorem get?_foldl_insertAll (h : ∀ r ∈ rules, r.properties.Sorted) (d : Properties) :
    (rules.foldl (fun style rule => style.insertAll rule.properties.entries) d).get? name =
      (rules.reverse.findSome? (·.properties.get? name)).or (d.get? name) := by
  induction rules generalizing d with
  | nil => rfl
  | cons r rules ih =>
    obtain ⟨hr, hrules⟩ := List.forall_mem_cons.mp h
    rw [List.foldl_cons, ih hrules, Dict.get?_insertAll hr, ← Option.or_assoc, List.reverse_cons,
      List.findSome?_append, List.findSome?_singleton]
    rfl

/-- The rule decides the property: of all that bear on the widget and give the property a value, it has the greatest
rank. -/
structure Decides (rules : List Rule) (t : Tree) (id : WidgetId) (name : String) (r : Rule) : Prop where
  mem : r ∈ rules
  bears : r.Bears t id
  gives : r.properties.get? name ≠ none
  greatest : ∀ q ∈ rules, q.Bears t id → q.properties.get? name ≠ none → q ≠ r → q.rank < r.rank

/-- No two rules decide one property. -/
theorem Decides.eq (hq : Decides rules t id name q) (hr : Decides rules t id name r) : q = r := by
  by_contra hne
  have hqr : q.rank < r.rank := hr.greatest q hq.mem hq.bears hq.gives hne
  have hrq : r.rank < q.rank := hq.greatest r hr.mem hr.bears hr.gives (Ne.symm hne)
  exact lt_asymm hqr hrq

/-- Rules with sorted properties, each applied after those before it. -/
structure Ordered (rules : List Rule) : Prop where
  order : rules.Pairwise fun q r => q.order < r.order
  sorted : ∀ r ∈ rules, r.properties.Sorted

theorem get?_compute (h : Ordered b.rules) : (b.compute t id).get? name =
    (b.bearing t id).reverse.findSome? (·.properties.get? name) := by
  have hsorted : ∀ r ∈ b.bearing t id, r.properties.Sorted := fun r hr => h.sorted r (mem_bearing_iff.mp hr).1
  rw [compute, get?_foldl_insertAll hsorted]
  exact Option.or_none

theorem compute_eq_some_iff (h : Ordered b.rules) : (b.compute t id).get? name = some v ↔
    ∃ r, Decides b.rules t id name r ∧ r.properties.get? name = some v := by
  have : Std.Asymm fun q r : Rule => q.rank < r.rank := ⟨fun _ _ hqr hrq => lt_asymm hqr hrq⟩
  rw [get?_compute h, findSome?_reverse_eq_some_iff (pairwise_bearing h.order)]
  simp only [mem_bearing_iff, and_imp]
  constructor
  · rintro ⟨r, ⟨hmem, hbears⟩, hv, hgreatest⟩
    exact ⟨r, ⟨hmem, hbears, by simp [hv], hgreatest⟩, hv⟩
  · rintro ⟨r, hr, hv⟩
    exact ⟨r, ⟨hr.mem, hr.bears⟩, hv, hr.greatest⟩

theorem compute_eq_none_iff (h : Ordered b.rules) : (b.compute t id).get? name = none ↔
    ∀ r ∈ b.rules, r.Bears t id → r.properties.get? name = none := by
  rw [get?_compute h, List.findSome?_eq_none_iff]
  simp only [List.mem_reverse, mem_bearing_iff, and_imp]

end values

section runs

/-- What can be done to the rules in force; the names of properties are in their order, each once. -/
inductive Operation where
  | apply (selector : String) (properties : Properties) (sorted : properties.Sorted) (priority : Int)
  | applyMap (m : RuleMap) (sorted : ∀ entry ∈ m.entries, entry.2.Sorted) (priority : Int)
  | clear

/-- The rules after an operation, also where it fails. -/
def after (b : RuleBook) : Operation → RuleBook
  | .apply selector properties _ priority =>
    match b.apply selector properties priority with
    | .ok applied => applied
    | .error _ => b
  | .applyMap m _ priority => (b.applyMap m priority).2
  | .clear => b.clear

def afterAll (ops : List Operation) : RuleBook :=
  ops.foldl after {}

/-- Adds a rule to those that were applied before, if its selector can be read. -/
def noted (log : List Rule) (selector : String) (properties : Properties) (priority : Int) : List Rule :=
  match Selector.parse selector with
  | .ok selector => log ++ [{ selector, properties, priority, order := log.length }]
  | .error _ => log

/-- The rules of a map that are applied: those before the first selector that cannot be read. -/
def readable (m : RuleMap) : List (String × Properties) :=
  m.entries.takeWhile fun entry => (Selector.parse entry.1).isOk

def notedAfter (log : List Rule) : Operation → List Rule
  | .apply selector properties _ priority => noted log selector properties priority
  | .applyMap m _ priority => (readable m).foldl (fun log entry => noted log entry.1 entry.2 priority) log
  | .clear => []

/-- The rules that were applied since all were last cleared, each with its place among them as its order. -/
def applied (ops : List Operation) : List Rule :=
  ops.foldl notedAfter []

/-- A rule as it stands in a book that numbers on from `n`. -/
def shifted (n : Nat) (r : Rule) : Rule :=
  { r with order := n + r.order }

/-- The book holds the rules of the log, numbered on from some place. -/
structure Keeps (b : RuleBook) (n : Nat) (log : List Rule) : Prop where
  rules : b.rules = log.map (shifted n)
  nextOrder : b.nextOrder = n + log.length
  order : log.map (·.order) = List.range log.length
  sorted : ∀ r ∈ log, r.properties.Sorted

variable {n : Nat} {log : List Rule} {selector : String} {properties : Properties} {priority : Int}
  {entries : List (String × Properties)}

theorem apply_of_parse {s : Selector} (h : Selector.parse selector = .ok s) : b.apply selector properties priority =
    .ok { rules := b.rules ++ [{ selector := s, properties, priority, order := b.nextOrder }]
          nextOrder := b.nextOrder + 1 } := by
  rw [apply, h]
  rfl

theorem apply_of_parse_error {e : SelectionError} (h : Selector.parse selector = .error e) :
    b.apply selector properties priority = .error e := by
  rw [apply, h]
  rfl

theorem Keeps.of_apply {c : RuleBook} (h : b.Keeps n log) (hsorted : properties.Sorted)
    (hc : b.apply selector properties priority = .ok c) : c.Keeps n (noted log selector properties priority) := by
  cases hs : Selector.parse selector with
  | error e =>
    rw [apply_of_parse_error hs] at hc
    cases hc
  | ok s =>
    rw [apply_of_parse hs] at hc
    cases hc
    rw [noted, hs]
    refine ⟨?_, ?_, ?_, fun r hr => ?_⟩
    · rw [h.rules, h.nextOrder, List.map_append]
      rfl
    · rw [h.nextOrder, List.length_append, Nat.add_assoc]
      rfl
    · rw [List.map_append, h.order, List.length_append, List.length_singleton, List.range_succ]
      rfl
    · rcases List.mem_append.mp hr with hr | hr
      · exact h.sorted r hr
      · rw [List.mem_singleton.mp hr]
        exact hsorted

theorem Keeps.applyEntries (h : b.Keeps n log) (hsorted : ∀ entry ∈ entries, entry.2.Sorted) :
    (b.applyEntries priority entries).2.Keeps n
      ((entries.takeWhile fun entry => (Selector.parse entry.1).isOk).foldl
        (fun log entry => noted log entry.1 entry.2 priority) log) := by
  induction entries generalizing b log with
  | nil => exact h
  | cons entry entries ih =>
    obtain ⟨selector, properties⟩ := entry
    obtain ⟨hentry, hentries⟩ := List.forall_mem_cons.mp hsorted
    cases hs : Selector.parse selector with
    | error e =>
      rw [RuleBook.applyEntries, apply_of_parse_error hs, List.takeWhile_cons, hs]
      exact h
    | ok s =>
      have happly : b.apply selector properties priority = .ok _ := apply_of_parse hs
      rw [RuleBook.applyEntries, happly, List.takeWhile_cons, hs]
      exact ih (h.of_apply hentry happly) hentries

theorem Keeps.after {op : Operation} (h : b.Keeps n log) : ∃ m, (b.after op).Keeps m (notedAfter log op) := by
  cases op with
  | apply selector properties sorted priority =>
    refine ⟨n, ?_⟩
    cases hs : Selector.parse selector with
    | error e =>
      rw [RuleBook.after, apply_of_parse_error hs, notedAfter, noted, hs]
      exact h
    | ok s =>
      have happly : b.apply selector properties priority = .ok _ := apply_of_parse hs
      rw [RuleBook.after, happly]
      exact h.of_apply sorted happly
  | applyMap m sorted priority => exact ⟨n, h.applyEntries sorted⟩
  | clear => exact ⟨b.nextOrder, rfl, rfl, rfl, nofun⟩

theorem exists_keeps (ops : List Operation) : ∃ n, (afterAll ops).Keeps n (applied ops) := by
  induction ops using List.reverseRecOn with
  | nil => exact ⟨0, rfl, rfl, rfl, nofun⟩
  | append_singleton ops op ih =>
    obtain ⟨n, h⟩ := ih
    rw [afterAll, applied, List.foldl_append, List.foldl_append]
    exact h.after

theorem Keeps.ordered (h : b.Keeps n log) : Ordered log where
  order := by
    rw [← List.pairwise_map, h.order]
    exact List.pairwise_lt_range
  sorted := h.sorted

theorem rank_shifted : (shifted n q).rank < (shifted n r).rank ↔ q.rank < r.rank := by
  rw [← not_le, ← not_le, rank_le_iff, rank_le_iff]
  simp [shifted]

theorem Ordered.shifted (h : Ordered log) (n : Nat) : Ordered (log.map (shifted n)) where
  order := List.pairwise_map.mpr (h.order.imp fun hqr => Nat.add_lt_add_left hqr n)
  sorted := List.forall_mem_map.mpr h.sorted

theorem shifted_inj : shifted n q = shifted n r ↔ q = r := by
  refine ⟨fun h => ?_, congrArg _⟩
  obtain ⟨⟩ := q
  obtain ⟨⟩ := r
  simpa [shifted] using h

theorem decides_shifted : Decides (log.map (shifted n)) t id name (shifted n r) ↔ Decides log t id name r := by
  have hmem {q : Rule} : shifted n q ∈ log.map (shifted n) ↔ q ∈ log := by
    simp only [List.mem_map, shifted_inj, exists_eq_right]
  constructor
  · rintro ⟨hr, hbears, hgives, hgreatest⟩
    refine ⟨hmem.mp hr, hbears, hgives, fun q hq hq' hgives' hne => ?_⟩
    exact rank_shifted.mp (hgreatest (shifted n q) (hmem.mpr hq) hq' hgives' fun heq => hne (shifted_inj.mp heq))
  · rintro ⟨hr, hbears, hgives, hgreatest⟩
    refine ⟨hmem.mpr hr, hbears, hgives, List.forall_mem_map.mpr fun q hq hq' hgives' hne => ?_⟩
    exact rank_shifted.mpr (hgreatest q hq hq' hgives' fun heq => hne (congrArg _ heq))

/-- A property of a widget has the value that the one rule of the greatest rank gives it, among the applied rules that
bear on the widget and give the property a value; it has none if there is no such rule. -/
theorem compute_cascades (ops : List Operation) (t : Tree) (id : WidgetId) (name : String) :
    (∀ v, ((afterAll ops).compute t id).get? name = some v ↔
      ∃! r, Decides (applied ops) t id name r ∧ r.properties.get? name = some v) ∧
    (((afterAll ops).compute t id).get? name = none ↔
      ∀ r ∈ applied ops, r.Bears t id → r.properties.get? name = none) := by
  obtain ⟨n, h⟩ := exists_keeps ops
  have hordered : Ordered (afterAll ops).rules := h.rules ▸ h.ordered.shifted n
  constructor
  · intro v
    rw [compute_eq_some_iff hordered, h.rules]
    constructor
    · rintro ⟨_, hdecides, hv⟩
      obtain ⟨r, -, rfl⟩ := List.mem_map.mp hdecides.mem
      have hr : Decides (applied ops) t id name r := decides_shifted.mp hdecides
      exact ⟨r, ⟨hr, hv⟩, fun q hq => hq.1.eq hr⟩
    · rintro ⟨r, ⟨hdecides, hv⟩, -⟩
      exact ⟨shifted n r, decides_shifted.mpr hdecides, hv⟩
  · rw [compute_eq_none_iff hordered, h.rules]
    exact List.forall_mem_map

end runs

end RuleBook

end Style

end Hypermedia
