import Hypermedia.Script.Interpreter
import Hypermedia.Script.Library.Initial
import Mathlib.Data.List.Basic

/-! Data of scripts that is confined to some widgets: whatever widgets it names are among them. -/
namespace Hypermedia.Script

/-- The value that a function was made with, if it was made with one. -/
def FunctionValue.kept? : FunctionValue → Option Value
  | .native (.close (some (_, v))) => some v
  | _ => none

/-- What it means for data of a type to name no widgets but those of `P`. -/
class Confinable (α : Type) where
  Confined : (WidgetId → Prop) → α → Prop

export Confinable (Confined)

section data

variable {α β ε : Type}

/-- Data of a type that is not listed below names no widgets. -/
instance (priority := low) : Confinable α :=
  ⟨fun _ _ => True⟩

instance [Confinable α] : Confinable (List α) :=
  ⟨fun P l => ∀ a ∈ l, Confined P a⟩

instance : Confinable Bytes :=
  ⟨fun _ _ => True⟩

instance [Confinable α] : Confinable (Array α) :=
  ⟨fun P l => ∀ a ∈ l, Confined P a⟩

instance [Confinable α] : Confinable (Option α) :=
  ⟨fun P o => ∀ a ∈ o, Confined P a⟩

instance [Confinable α] [Confinable β] : Confinable (α × β) :=
  ⟨fun P p => Confined P p.1 ∧ Confined P p.2⟩

instance [Confinable ε] [Confinable α] : Confinable (Except ε α) :=
  ⟨fun P r => (∀ e, r = .error e → Confined P e) ∧ ∀ a, r = .ok a → Confined P a⟩

instance : Confinable WidgetId :=
  ⟨fun P id => P id⟩

instance : Confinable Object :=
  ⟨fun P o => ∀ id, o = .widget id → P id⟩

instance : Confinable Value :=
  ⟨fun P v => ∀ id, v.widget? = some id → P id⟩

instance : Confinable Table :=
  ⟨fun P t => Confined P t.items ∧ Confined P t.entries⟩

instance : Confinable FunctionValue :=
  ⟨fun P f => Confined P f.kept?⟩

instance : Confinable Scope :=
  ⟨fun P s => Confined P s.bindings ∧ Confined P s.listeners⟩

instance : Confinable Scopes :=
  ⟨fun P f => Confined P f.all ∧ Confined P f.builtins.entries⟩

instance : Confinable Change :=
  ⟨fun P c => Confined P c.old ∧ Confined P c.new⟩

instance : Confinable Flow :=
  ⟨fun P flow => Confined P flow.values⟩

instance : Confinable Field :=
  ⟨fun P f => (∀ id, f = .widget id → P id) ∧ ∀ ids, f = .widgets ids → Confined P ids⟩

instance : Confinable Widget.Blueprint :=
  ⟨fun P b => Confined P b.children⟩

/-- The values that scripts can reach, but for those of the running one. -/
structure World.IsConfined (P : WidgetId → Prop) (w : World) : Prop where
  cells : Confined P w.cells
  tables : Confined P w.tables
  functions : Confined P w.functions
  scopes : Confined P w.scopes

instance : Confinable World :=
  ⟨World.IsConfined⟩

end data

variable {P Q : WidgetId → Prop} {α β ε : Type} [Confinable α] [Confinable β] [Confinable ε]

section values

variable {v : Value} {l m : List α} {arr : Array α}

/-- A value that is no handle of a widget names none. -/
theorem confined_of_widget? (h : v.widget? = none) : Confined P v := fun _ hid => by
  cases h.symm.trans hid

theorem Value.confined_mono (hPQ : ∀ id, P id → Q id) (h : Confined P v) : Confined Q v :=
  fun id hid => hPQ id (h id hid)

theorem confined_nil : Confined P Value.nil := nofun

theorem confined_some {a : α} (ha : Confined P a) : Confined P (some a) := fun _ hb =>
  Option.some.inj hb ▸ ha

theorem confined_cons {a : α} (ha : Confined P a) (h : Confined P l) : Confined P (a :: l) :=
  List.forall_mem_cons.mpr ⟨ha, h⟩

theorem confined_empty : Confined P ([] : List α) :=
  List.forall_mem_nil _

theorem confined_singleton {a : α} (ha : Confined P a) : Confined P [a] :=
  confined_cons ha confined_empty

theorem confined_append (h : Confined P l) (hm : Confined P m) : Confined P (l ++ m) :=
  List.forall_mem_append.mpr ⟨h, hm⟩

theorem confined_of_subset (h : Confined P l) (hm : m ⊆ l) : Confined P m :=
  fun a ha => h a (hm ha)

theorem confined_getD {d : α} (h : Confined P l) (hd : Confined P d) (i : Nat) :
    Confined P (l.getD i d) := by
  rw [List.getD_eq_getElem?_getD]
  cases hi : l[i]? with
  | none => exact hd
  | some a => exact h a (List.mem_of_getElem? hi)

theorem confined_headD (h : Confined P l) {d : α} (hd : Confined P d) : Confined P (l.headD d) := by
  cases l with
  | nil => exact hd
  | cons a l => exact h a List.mem_cons_self

theorem confined_of_lookup {entries : List (String × α)} {name : String} {a : α} (h : Confined P entries)
    (ha : entries.lookup name = some a) : Confined P a := by
  obtain ⟨before, after, heq, -⟩ := List.lookup_eq_some_iff.mp ha
  exact (h (name, a) (by simp [heq])).2

theorem Array.confined_empty : Confined P (#[] : Array α) := fun _ ha => by
  cases Array.not_mem_empty _ ha

theorem Array.confined_getD {d : α} (h : Confined P arr) (hd : Confined P d) (i : Nat) :
    Confined P (arr.getD i d) := by
  unfold Array.getD
  split
  · exact h _ (Array.getElem_mem _)
  · exact hd

theorem Array.confined_push {a : α} (h : Confined P arr) (ha : Confined P a) : Confined P (arr.push a) :=
  fun b hb => (Array.mem_push.mp hb).elim (h b) fun heq => heq ▸ ha

theorem Array.confined_set {a : α} (h : Confined P arr) (ha : Confined P a) (i : Nat) :
    Confined P (arr.setIfInBounds i a) :=
  fun b hb => (Array.mem_or_eq_of_mem_setIfInBounds hb).elim (h b) fun heq => heq ▸ ha

theorem Array.confined_append {brr : Array α} (h : Confined P arr) (hb : Confined P brr) :
    Confined P (arr ++ brr) :=
  fun a ha => (Array.mem_append.mp ha).elim (h a) (hb a)

theorem Array.confined_filter (h : Confined P arr) (p : α → Bool) : Confined P (arr.filter p) :=
  fun a ha => h a (Array.mem_of_mem_filter ha)

theorem Array.confined_extract (h : Confined P arr) (i j : Nat) : Confined P (arr.extract i j) := by
  intro a ha
  obtain ⟨k, hk, rfl⟩ := Array.mem_extract_iff_getElem.mp ha
  exact h _ (Array.getElem_mem _)

theorem Array.confined_replicate {a : α} (ha : Confined P a) (n : Nat) :
    Confined P (Array.replicate n a) :=
  fun _ hb => (Array.mem_replicate.mp hb).2 ▸ ha

theorem Array.confined_modify {f : α → α} (h : Confined P arr) (hf : ∀ a, Confined P a → Confined P (f a))
    (i : Nat) : Confined P (arr.modify i f) := by
  intro a ha
  obtain ⟨j, hj, rfl⟩ := Array.mem_iff_getElem.mp ha
  rw [Array.getElem_modify]
  split
  · exact hf _ (h _ (Array.getElem_mem _))
  · exact h _ (Array.getElem_mem _)

end values

section tables

namespace Table

variable {t : Table} {key value : Value}

theorem confined_normalize (h : Confined P key) : Confined P (normalize key) := by
  unfold normalize
  split
  · split <;> exact nofun
  · exact h

theorem confined_get (h : Confined P t) (key : Value) : Confined P (t.get key) := by
  unfold get
  dsimp only
  split
  · exact Array.confined_getD h.1 confined_nil _
  · split
    · exact (Array.confined_getD h.2 ⟨confined_nil, confined_nil⟩ _).2
    · exact confined_nil

theorem confined_field (h : Confined P t) (name : String) : Confined P (t.field name) :=
  confined_get h _

theorem confined_rehash (h : Confined P t) (key : Value) : Confined P (t.rehash key) := by
  have hlive : Confined P (t.entries.filter fun e => !e.2.isNil) := Array.confined_filter h.2 _
  unfold rehash
  dsimp only
  generalize bestSize _ 64 1 0 = size
  refine ⟨?_, Array.confined_append (fun e he => ?_) (Array.confined_filter hlive _)⟩
  · refine Array.foldl_induction (fun _ items => Confined P items) ?_ fun i items hitems => ?_
    · exact Array.confined_append (Array.confined_extract h.1 _ _) (Array.confined_replicate confined_nil _)
    split
    · split
      · exact Array.confined_set hitems (hlive _ (Array.getElem_mem _)).2 _
      · exact hitems
    · exact hitems
  · obtain ⟨i, -, hi⟩ := List.mem_filterMap.mp (List.mem_toArray.mp he)
    split at hi
    · cases hi
    · cases hi
      exact ⟨nofun, Array.confined_getD h.1 confined_nil i⟩

theorem confined_set (h : Confined P t) (hkey : Confined P key) (hvalue : Confined P value) :
    Confined P (t.set key value) := by
  have hentry : Confined P (normalize key, value) := ⟨confined_normalize hkey, hvalue⟩
  have hagain := confined_rehash h (normalize key)
  unfold set
  dsimp only
  split
  · exact ⟨Array.confined_set h.1 hvalue _, h.2⟩
  split
  · exact ⟨h.1, Array.confined_set h.2 hentry _⟩
  split
  · exact h
  split
  · exact ⟨h.1, Array.confined_push h.2 hentry⟩
  split
  · exact ⟨Array.confined_set hagain.1 hvalue _, hagain.2⟩
  · exact ⟨hagain.1, Array.confined_push hagain.2 hentry⟩

theorem confined_setField (h : Confined P t) (name : String) (hvalue : Confined P value) :
    Confined P (t.setField name value) :=
  confined_set h nofun hvalue

theorem confined_setFields {fields : List (String × Value)} (h : Confined P t) (hfields : Confined P fields) :
    Confined P (fields.foldl (fun t e => t.setField e.1 e.2) t) := by
  induction fields generalizing t with
  | nil => exact h
  | cons e rest ih =>
    obtain ⟨he, hrest⟩ := List.forall_mem_cons.mp hfields
    exact ih (confined_setField h e.1 he.2) hrest

theorem confined_firstFrom (h : Confined P t) (n i : Nat) : Confined P (t.firstFrom n i) := by
  induction n generalizing i with
  | zero => exact nofun
  | succ n ih =>
    unfold firstFrom
    dsimp only
    split
    · split
      · exact ih _
      · exact confined_some ⟨nofun, h.1 _ (Array.getElem_mem _)⟩
    · split
      · exact ih _
      · exact confined_some (Array.confined_getD h.2 ⟨confined_nil, confined_nil⟩ _)

theorem confined_next? (h : Confined P t) (key : Value) : Confined P (t.next? key) := by
  intro found hfound
  obtain ⟨i, -, rfl⟩ := Option.map_eq_some_iff.mp hfound
  exact confined_firstFrom h _ _

theorem confined_sequenceFrom (h : Confined P t) (n i : Nat) : Confined P (t.sequenceFrom n i) := by
  induction n generalizing i with
  | zero => exact nofun
  | succ n ih =>
    unfold sequenceFrom
    dsimp only
    split
    · exact nofun
    · exact confined_cons (confined_get h _) (ih _)

theorem confined_sequence (h : Confined P t) : Confined P t.sequence :=
  confined_sequenceFrom h _ _

theorem confined_empty : Confined P ({} : Table) :=
  ⟨Array.confined_empty, Array.confined_empty⟩

theorem confined_sized (items entries : Nat) : Confined P (sized items entries) :=
  ⟨Array.confined_replicate confined_nil _, Array.confined_empty⟩

theorem confined_setItems {items : List Value} (h : Confined P t) (hitems : Confined P items) :
    Confined P (t.setItems items) := by
  refine ⟨Array.confined_append (fun v hv => hitems v (List.mem_toArray.mp hv))
    (Array.confined_extract h.1 _ _), Array.confined_filter h.2 _⟩

end Table

end tables

section scopes

variable {name : String} {value : Value}

namespace Scope

variable {s : Scope}

theorem confined_bindIn {bindings : List (String × Value)} (h : Confined P bindings) (hvalue : Confined P value) :
    Confined P (bindIn name value bindings) := by
  induction bindings with
  | nil => exact confined_singleton ⟨trivial, hvalue⟩
  | cons b rest ih =>
    obtain ⟨hb, hrest⟩ := List.forall_mem_cons.mp h
    unfold bindIn
    split
    · exact confined_cons ⟨trivial, hvalue⟩ hrest
    · exact confined_cons hb (ih hrest)

theorem confined_bind (h : Confined P s) (name : String) (hvalue : Confined P value) :
    Confined P (s.bind name value) := by
  unfold bind
  split
  · exact ⟨fun b hb => h.1 b (List.mem_of_mem_filter hb), h.2⟩
  · exact ⟨confined_bindIn h.1 hvalue, h.2⟩

end Scope

namespace Scopes

variable {f : Scopes} {id : ScopeId}

theorem confined_get? {s : Scope} (h : Confined P f) (hs : f.get? id = some s) : Confined P s :=
  h.1 s (Array.mem_of_getElem? hs)

theorem confined_own? (h : Confined P f) (id : ScopeId) (name : String) : Confined P (f.own? id name) := by
  intro value hvalue
  obtain ⟨s, hs, hlookup⟩ := Option.bind_eq_some_iff.mp hvalue
  exact confined_of_lookup (confined_get? h hs).1 hlookup

theorem confined_read (h : Confined P f) (id : ScopeId) (name : String) : Confined P (f.read id name) := by
  unfold read
  split
  · next value hvalue =>
    obtain ⟨owner, -, hown⟩ := List.exists_of_findSome?_eq_some hvalue
    exact confined_some (confined_own? h owner name value hown)
  · exact fun value hvalue => confined_of_lookup h.2 hvalue

theorem confined_modify {g : Scope → Scope} (h : Confined P f) (hg : ∀ s, Confined P s → Confined P (g s))
    (id : ScopeId) : Confined P (f.modify id g) :=
  ⟨Array.confined_modify h.1 hg _, h.2⟩

theorem confined_add (h : Confined P f) (parent : Option ScopeId) : Confined P (f.add parent).2 :=
  ⟨Array.confined_push h.1 ⟨nofun, nofun⟩, h.2⟩

theorem confined_define (h : Confined P f) (id : ScopeId) (name : String) (hvalue : Confined P value) :
    Confined P (f.define id name value) := by
  refine ⟨fun c hc => ?_, confined_modify h (fun s hs => Scope.confined_bind hs name hvalue) id⟩
  dsimp only [define] at hc
  split at hc
  · cases hc
  · cases hc
    refine ⟨?_, hvalue⟩
    cases hold : f.own? id name with
    | none => exact confined_nil
    | some old => exact confined_own? h id name old hold

theorem confined_assign (h : Confined P f) (id : ScopeId) (name : String) (hvalue : Confined P value) :
    Confined P (f.assign id name value) :=
  confined_define h _ name hvalue

theorem confined_listen (h : Confined P f) (id : ScopeId) (name : String) (hvalue : Confined P value) :
    Confined P (f.listen id name value) :=
  confined_modify h (g := fun s => { s with listeners := s.listeners ++ [(name, value)] })
    (fun _ hs => ⟨hs.1, confined_append hs.2 (confined_singleton ⟨trivial, hvalue⟩)⟩) id

theorem confined_listenersWithin (h : Confined P f) (isAlive : ScopeId → Bool) (name : String) (n : Nat)
    (id : ScopeId) : Confined P (f.listenersWithin isAlive name n id) := by
  induction n generalizing id with
  | zero => exact nofun
  | succ n ih =>
    refine confined_append (fun e he => ⟨trivial, ?_⟩) fun e he => ?_
    · obtain ⟨value, hvalue, rfl⟩ := List.mem_map.mp he
      cases hs : f.get? id with
      | none => simp [hs] at hvalue
      | some s =>
        obtain ⟨entry, hentry, rfl⟩ : ∃ entry, entry ∈ s.listeners.filter (·.1 == name) ∧ entry.2 = value := by
          simpa [hs, Scope.listenersOf] using hvalue
        exact ((confined_get? h hs).2 entry (List.mem_of_mem_filter hentry)).2
    · obtain ⟨child, -, hmem⟩ := List.mem_flatMap.mp he
      exact ih child e hmem

theorem confined_listenersFor (h : Confined P f) (isAlive : ScopeId → Bool) (c : Change) :
    Confined P (f.listenersFor isAlive c) :=
  confined_listenersWithin h isAlive c.name _ _

end Scopes

end scopes

namespace World

variable {w : World} {value : Value}

theorem IsConfined.mono (hPQ : ∀ id, P id → Q id) (h : w.IsConfined P) : w.IsConfined Q where
  cells v hv := Value.confined_mono hPQ (h.cells v hv)
  tables t ht := by
    obtain ⟨hitems, hentries⟩ := h.tables t ht
    refine ⟨fun v hv => Value.confined_mono hPQ (hitems v hv), fun e he => ?_⟩
    exact ⟨Value.confined_mono hPQ (hentries e he).1, Value.confined_mono hPQ (hentries e he).2⟩
  functions f hf v hv := Value.confined_mono hPQ (h.functions f hf v hv)
  scopes := by
    refine ⟨fun s hs => ?_, fun e he => ⟨trivial, Value.confined_mono hPQ (h.scopes.2 e he).2⟩⟩
    obtain ⟨hbindings, hlisteners⟩ := h.scopes.1 s hs
    exact ⟨fun b hb => ⟨trivial, Value.confined_mono hPQ (hbindings b hb).2⟩,
      fun b hb => ⟨trivial, Value.confined_mono hPQ (hlisteners b hb).2⟩⟩

theorem confined_table (h : Confined P w) (id : TableId) : Confined P (w.table id) :=
  Array.confined_getD h.tables Table.confined_empty _

theorem confined_cell (h : Confined P w) (i : Nat) : Confined P (w.cell i) :=
  Array.confined_getD h.cells confined_nil i

theorem confined_modifyTable {f : Table → Table} (h : Confined P w)
    (hf : ∀ t, Confined P t → Confined P (f t)) (id : TableId) : Confined P (w.modifyTable id f) :=
  { h with tables := Array.confined_modify h.tables hf _ }

theorem confined_addTable {t : Table} (h : Confined P w) (ht : Confined P t) : Confined P (w.addTable t).2 :=
  { h with tables := Array.confined_push h.tables ht }

theorem confined_addFunction {f : FunctionValue} (h : Confined P w) (hf : Confined P f) :
    Confined P (w.addFunction f).2 :=
  { h with functions := Array.confined_push h.functions hf }

theorem confined_addCell (h : Confined P w) (hvalue : Confined P value) : Confined P (w.addCell value).2 :=
  { h with cells := Array.confined_push h.cells hvalue }

theorem confined_setCell (h : Confined P w) (hvalue : Confined P value) (i : Nat) :
    Confined P (w.setCell i value) :=
  { h with cells := Array.confined_set h.cells hvalue i }

theorem confined_addHandle {object : Object} (h : Confined P w) (hobject : Confined P object) :
    Confined P (w.addHandle object) := by
  refine ⟨fun id hid => hobject id ?_, h.cells, h.tables, h.functions, h.scopes⟩
  cases object with
  | widget x => exact congrArg _ (Option.some.inj hid)
  | scope _ => cases hid
  | failure _ => cases hid

theorem confined_withScopes {scopes : Scopes} (h : Confined P w) (hscopes : Confined P scopes) :
    Confined P { w with scopes } :=
  { h with scopes := hscopes }

theorem confined_metamethod (h : Confined P w) (v : Value) (event : String) :
    Confined P (w.metamethod v event) := by
  unfold metamethod
  split
  · exact Table.confined_field (confined_table h _) event
  · exact confined_nil

theorem initial_names_none : initial.cells.size = 0 ∧ (∀ f ∈ initial.functions, f.kept? = none) ∧
    (∀ t ∈ initial.tables, (∀ v ∈ t.items, v.widget? = none) ∧
      ∀ e ∈ t.entries, e.1.widget? = none ∧ e.2.widget? = none) ∧
    initial.scopes.all.size = 0 ∧ ∀ e ∈ initial.scopes.builtins.entries, e.2.widget? = none := by
  decide +kernel

/-- Before any script has run there is no handle. -/
theorem confined_initial : Confined P initial := by
  obtain ⟨hcells, hfunctions, htables, hscopes, hbuiltins⟩ := initial_names_none
  refine ⟨fun v hv => ?_, fun t ht => ⟨fun v hv => ?_, fun e he => ⟨?_, ?_⟩⟩, fun f hf v hv => ?_,
    fun s hs => ?_, fun e he => ⟨trivial, ?_⟩⟩
  · rw [Array.eq_empty_of_size_eq_zero hcells] at hv
    cases Array.not_mem_empty _ hv
  · exact confined_of_widget? ((htables t ht).1 v hv)
  · exact confined_of_widget? ((htables t ht).2 e he).1
  · exact confined_of_widget? ((htables t ht).2 e he).2
  · cases (hfunctions f hf).symm.trans hv
  · rw [Array.eq_empty_of_size_eq_zero hscopes] at hs
    cases Array.not_mem_empty _ hs
  · exact confined_of_widget? (hbuiltins e he)

end World

end Hypermedia.Script
