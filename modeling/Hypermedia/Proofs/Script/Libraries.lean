import Hypermedia.Proofs.Script.Settling
import Hypermedia.Proofs.Session.Rollback
import Hypermedia.Proofs.Session.Surroundings

/-! The libraries that all pages of a session share: what scripts do to them to write to them changes
nothing, unless it is to put a value into one without asking it. -/
namespace Hypermedia.Script

/-- The tables and functions of a library: the table that is shown, the one with the members, and what
tells how the first takes part in operations. -/
structure Library.Parts where
  shown : TableId
  inner : TableId
  metatable : TableId
  refuse : FunctionId
  size : FunctionId
  deriving DecidableEq

open Library (Parts)

variable {w : World} {lib : Parts} {key value : Value} {position : Option Position} {naming : Option Naming}

/-- A table without any entry. -/
structure Table.Bare (t : Table) : Prop where
  items : t.items = #[]
  entries : t.entries = #[]

namespace Table

variable {t : Table}

theorem Bare.entryIndex? (h : t.Bare) (key : Value) : t.entryIndex? key = none := by
  simp [Table.entryIndex?, h.entries]

theorem Bare.get (h : t.Bare) (key : Value) : t.get key = .nil := by
  unfold Table.get
  dsimp only
  rw [h.entryIndex?]
  split
  · simp [h.items]
  · rfl

/-- A value that is taken away from a table without entries is not missed. -/
theorem Bare.set_nil (h : t.Bare) (key : Value) : t.set key .nil = t := by
  unfold Table.set
  dsimp only
  rw [h.entryIndex?]
  split
  · have hitems : ∀ i, t.items.setIfInBounds i .nil = t.items := by simp [h.items]
    rw [hitems]
  · rfl

theorem get_of_single {name : Bytes} (h : t.entries = #[(.str name, value)]) : t.get (.str name) = value := by
  have hsame : (Value.str name).same (.str name) = true := by simp [Value.same]
  simp [Table.get, normalize, itemIndex?, Table.entryIndex?, h, hsame]

theorem Bare.entries_rehash (h : t.Bare) (key : Value) : (t.rehash key).entries = #[] := by
  obtain ⟨items, entries, room, metatable⟩ := t
  obtain rfl : items = #[] := h.items
  obtain rfl : entries = #[] := h.entries
  rfl

/-- What is put under a name in a table without entries is found there. -/
theorem Bare.get_set (h : t.Bare) (name : Bytes) (hvalue : value.isNil = false) :
    (t.set (.str name) value).get (.str name) = value := by
  refine get_of_single ?_
  have hindex : ∀ t : Table, t.itemIndex? (.str name) = none := fun _ => rfl
  unfold Table.set
  simp only [normalize, hindex, h.entryIndex?, hvalue, Bool.false_eq_true, if_false]
  split
  · simp [h.entries]
  · simp [h.entries_rehash]

end Table

theorem World.modifyTable_of_eq {t : TableId} {f : Table → Table} (hf : f (w.table t) = w.table t) :
    w.modifyTable t f = w := by
  have htables : w.tables.modify t.index f = w.tables := by
    refine Array.ext Array.size_modify fun i hi hi' => ?_
    rw [Array.getElem_modify]
    split
    · next heq =>
      have htable : w.table t = w.tables[i] := by simp [World.table, heq, hi']
      rw [← htable, hf]
    · rfl
  rw [World.modifyTable, htables]

theorem World.table_modifyTable (w : World) {t : TableId} (ht : t.index < w.tables.size) (f : Table → Table) :
    (w.modifyTable t f).table t = f (w.table t) := by
  simp [World.modifyTable, World.table, ht, Array.getElem_modify_self]

/-- A library as it is made: it shows its members, and refuses to be written. -/
structure World.Sealed (w : World) (lib : Parts) : Prop where
  bare : (w.table lib.shown).Bare
  metatable : (w.table lib.shown).metatable = some lib.metatable
  index : (w.table lib.metatable).field "__index" = .table lib.inner
  newindex : (w.table lib.metatable).field "__newindex" = .function lib.refuse
  len : (w.table lib.metatable).field "__len" = .function lib.size
  guarded : ((w.table lib.metatable).field "__metatable").isNil = false
  refuse : w.functions.getD lib.refuse.index default = .native .refuseWrite
  size : w.functions.getD lib.size.index default = .native (.sizeOf lib.inner)
  plain : (w.table lib.inner).metatable = none
  length : (w.table lib.inner).length = 0

namespace World.Sealed

open Act

variable (h : w.Sealed lib)

include h

theorem tableLookup_shown (key : Value) (event : String) :
    tableLookup lib.shown key event w = (.nil, (w.table lib.metatable).field event) := by
  rw [tableLookup, h.bare.get key, h.metatable]
  rfl

theorem tableLookup_inner (key : Value) (event : String) :
    tableLookup lib.inner key event w = ((w.table lib.inner).get key, .nil) := by
  rw [tableLookup, h.plain]
  split <;> rfl

theorem index_lt : lib.shown.index < w.tables.size := by
  by_contra hge
  have hnone : (w.table lib.shown).metatable = none := by
    have hdefault : w.table lib.shown = {} := by simp [World.table, hge]
    rw [hdefault]
  cases hnone.symm.trans h.metatable

theorem metamethod_shown (event : String) :
    w.metamethod (.table lib.shown) event = (w.table lib.metatable).field event := by
  rw [World.metamethod, World.metatable?, h.metatable]

section reading

/-- A lookup gives what is in the members. -/
theorem yields_index (key : Value) (position : Option Position) (naming : Option Naming) :
    Yields w (Act.index (.table lib.shown) key position naming) ((w.table lib.inner).get key) := by
  have hshown : Yields w (look (tableLookup lib.shown key "__index")) (.nil, .table lib.inner) := by
    rw [← h.index, ← h.tableLookup_shown]
    exact yields_look _
  have hinner : Yields w (look (tableLookup lib.inner key "__index")) ((w.table lib.inner).get key, .nil) := by
    rw [← h.tableLookup_inner key "__index"]
    exact yields_look _
  exact yields_bind hshown (yields_bind hinner (yields_pure _))

theorem settles_index (key : Value) (position : Option Position) (naming : Option Naming) :
    (Act.index (.table lib.shown) key position naming).Settles w fun _ => True := by
  refine settles_look_bind ?_
  rw [h.tableLookup_shown, h.index]
  refine settles_look_bind ?_
  rw [h.tableLookup_inner]
  exact settles_pure trivial

end reading

section writing

/-- An assignment to a library fails. -/
theorem settles_setIndex (key value : Value) (position : Option Position) (naming : Option Naming)
    {P : Unit → Prop} :
    (Act.setIndex (.table lib.shown) key value position naming).Settles w P := by
  refine settles_look_bind ?_
  rw [h.tableLookup_shown, h.newindex]
  have hrefused : (Act.callFunction lib.refuse [.table lib.shown, key, value]
      (eventSite position "newindex")).Settles w fun _ => False :=
    settles_callFunction h.refuse (settles_raiseAt _ _)
  exact hrefused.bind_of_fails _

variable (c : Invocation)

/-- A library counts as an empty sequence. -/
theorem settles_lengthOf : (Library.lengthOf c (.table lib.shown)).Settles w (· = 0) := by
  have hsize : (Act.callFunction lib.size [.table lib.shown] (eventSite none "len")).Settles w (· = [.ofNat 0]) := by
    refine settles_callFunction h.size (settles_look_bind ?_)
    rw [h.length]
    exact settles_pure rfl
  have hlength : (Act.length (.table lib.shown) none none).Settles w (· = .ofNat 0) := by
    refine settles_look_bind ?_
    rw [h.metamethod_shown, h.len]
    exact settles_bind hsize fun _ heq => heq ▸ settles_pure rfl
  refine settles_bind hlength ?_
  rintro _ rfl
  exact settles_pure rfl

theorem settles_item (i : Int64) : (Library.item (.table lib.shown) i).Settles w fun _ => True :=
  h.settles_index _ _ _

/-- Nothing can be put into a library as an item. -/
theorem fails_setItem (i : Int64) (x : Value) :
    (Library.setItem (.table lib.shown) i x).Settles w fun _ => False :=
  h.settles_setIndex _ _ _ _

theorem settles_copy (i j : Int64) (rest : Act Unit) :
    (do Library.setItem (.table lib.shown) j (← Library.item (.table lib.shown) i); rest).Settles w fun _ => True :=
  settles_bind (h.settles_item i) fun x _ => (h.fails_setItem j x).bind_of_fails _

theorem settles_moveUp (n : Nat) (i : Int64) :
    (Library.moveUp (.table lib.shown) n i).Settles w fun _ => True := by
  cases n with
  | zero => exact settles_pure trivial
  | succ n => exact h.settles_copy _ _ _

theorem settles_moveDown (n : Nat) (i : Int64) :
    (Library.moveDown (.table lib.shown) n i).Settles w fun _ => True := by
  cases n with
  | zero => exact settles_pure trivial
  | succ n => exact h.settles_copy _ _ _

omit h in
theorem settles_typeFault {α : Type} {P : α → Prop} (n : Nat) (expected : String) :
    (c.typeFault n expected : Act α).Settles w P := by
  unfold Invocation.typeFault
  split
  · exact settles_look_bind (settles_raiseAt _ _)
  · exact settles_raiseAt _ _

omit h in
theorem settles_int (n : Nat) : (c.int n).Settles w fun _ => True := by
  refine settles_bind (P := fun _ => True) ?_ fun x _ => ?_
  · unfold Invocation.number
    split
    · exact settles_pure trivial
    · exact settles_typeFault c n _
  · split
    · exact settles_pure trivial
    · exact settles_raiseAt _ _

omit h in
theorem settles_any (n : Nat) : (c.any n).Settles w (· = c.value n) := by
  unfold Invocation.any
  split
  · exact settles_pure rfl
  · exact settles_raiseAt _ _

variable {c} (hc : c.value 1 = .table lib.shown)

include hc

theorem settles_sequence (events : List String) :
    (Library.sequence c 1 events).Settles w (· = (.table lib.shown, 0)) := by
  unfold Library.sequence
  rw [hc]
  refine settles_bind (h.settles_lengthOf c) ?_
  rintro _ rfl
  exact settles_pure rfl

theorem settles_insert : (Library.insert c).Settles w fun _ => True := by
  refine settles_bind (h.settles_sequence hc _) ?_
  rintro _ rfl
  have hset : ∀ i x, (do Library.setItem (.table lib.shown) i x; return [] : Act (List Value)).Settles w
      fun _ => True := fun i x => (h.fails_setItem i x).bind_of_fails _
  dsimp only
  split
  · exact hset _ _
  · refine settles_bind (settles_int c 2) fun i _ => ?_
    split
    · exact settles_raiseAt _ _
    · exact settles_bind (h.settles_moveUp _ _) fun _ _ => hset _ _
  · exact settles_raiseAt _ _

theorem settles_remove : (Library.remove c).Settles w fun _ => True := by
  refine settles_bind (h.settles_sequence hc _) ?_
  rintro _ rfl
  have hint : (c.intOr 2 0).Settles w fun _ => True := by
    unfold Invocation.intOr
    split
    · exact settles_pure trivial
    · exact settles_int c 2
  refine settles_bind hint fun i _ => ?_
  dsimp only
  have hrest : (do
      let removed ← Library.item (.table lib.shown) i
      Library.moveDown (.table lib.shown) ((0 : Int64).toInt - i.toInt).toNat i
      Library.setItem (.table lib.shown) (if i < 0 then 0 else i) .nil
      return [removed] : Act (List Value)).Settles w fun _ => True := by
    refine settles_bind (h.settles_item i) fun removed _ => ?_
    refine settles_bind (h.settles_moveDown _ _) fun _ _ => ?_
    exact (h.fails_setItem _ _).bind_of_fails _
  split
  · exact settles_raiseAt _ _
  · exact hrest

theorem settles_sort : (Library.sort c).Settles w fun _ => True := by
  refine settles_bind (h.settles_sequence hc _) ?_
  rintro _ rfl
  exact settles_pure trivial

theorem settles_setMetatable : (Library.setMetatable c).Settles w fun _ => True := by
  have hset : ∀ m : Option TableId, (do
      if !(← Act.metamethod (.table lib.shown) "__metatable").isNil then
        c.fail "cannot change a protected metatable"
      Act.change (·.modifyTable lib.shown fun table => { table with metatable := m })
      return [.table lib.shown] : Act (List Value)).Settles w fun _ => True := by
    intro m
    refine settles_look_bind ?_
    rw [h.metamethod_shown, h.guarded]
    exact settles_raiseAt _ _
  have htable : c.table 1 = pure lib.shown := by rw [Invocation.table, hc]
  unfold Library.setMetatable
  rw [htable, pure_bind]
  dsimp only
  split
  · exact hset _
  · split
    · exact hset _
    · exact settles_typeFault c _ _
  · exact settles_typeFault c _ _

/-- A library that is not asked stays as it is where no value is put into it. -/
theorem settles_rawset (hkeep : ¬ (c.has 3 = true ∧ keyFault? (c.value 2) = none ∧ (c.value 3).isNil = false)) :
    (Library.base c .rawset).Settles w fun _ => True := by
  have htable : c.table 1 = pure lib.shown := by rw [Invocation.table, hc]
  unfold Library.base
  dsimp only
  rw [htable, pure_bind]
  refine settles_bind (settles_any c 2) ?_
  rintro _ rfl
  by_cases hhas : c.has 3
  · refine settles_bind (settles_any c 3) ?_
    rintro _ rfl
    refine settles_bind (P := fun _ => True) ?_ fun _ _ => settles_pure trivial
    unfold rawSet
    split
    · exact settles_raiseAt _ _
    · next hkey =>
      have hnil : c.value 3 = .nil := by
        cases hvalue : c.value 3 with
        | nil => rfl
        | _ => exact absurd ⟨hhas, hkey, by rw [hvalue]; rfl⟩ hkeep
      rw [hnil]
      exact settles_change (World.modifyTable_of_eq (h.bare.set_nil _)) trivial
  · have hmissing : (c.any 3).Settles w fun _ => False := by
      rw [Invocation.any, if_neg hhas]
      exact settles_raiseAt _ _
    exact hmissing.bind_of_fails _

end writing

end World.Sealed

section uses

/-- The functions with which scripts write to a table. -/
inductive Writer where
  | rawset | insert | remove | sort | setmetatable

def Writer.builtin : Writer → Builtin
  | rawset => .base .rawset
  | insert => .sequence .insert
  | remove => .sequence .remove
  | sort => .sequence .sort
  | setmetatable => .base .setmetatable

/-- What a script does to write to a value: it assigns to a member, or calls a function with the value and
other arguments. -/
inductive Use where
  | assign (key value : Value) (position : Option Position) (naming : Option Naming)
  | call (f : Writer) (site : Site) (others : List Value)

def Use.act (target : Value) : Use → Act Flow
  | assign key value position naming => do
    Act.setIndex target key value position naming
    return .giveBack []
  | call f site others => return .giveBack (← Invocation.results ⟨f.builtin, site, target :: others⟩)

/-- A value is put under a key without asking the table. -/
def Use.Overrides : Use → Prop
  | call .rawset _ (key :: value :: _) => Act.keyFault? key = none ∧ value.isNil = false
  | _ => False

open Act in
/-- Whatever is done to a library, nothing comes of it unless it is overridden. -/
theorem World.Sealed.settles_use (h : w.Sealed lib) {u : Use} (hu : ¬ u.Overrides) :
    (u.act (.table lib.shown)).Settles w fun _ => True := by
  cases u with
  | assign key value position naming =>
    exact (h.settles_setIndex key value position naming).bind_of_fails _
  | call f site others =>
    refine settles_bind (P := fun _ => True) ?_ fun _ _ => settles_pure trivial
    let c : Invocation := ⟨f.builtin, site, .table lib.shown :: others⟩
    have hc : c.value 1 = .table lib.shown := rfl
    cases f with
    | insert => exact h.settles_insert hc
    | remove => exact h.settles_remove hc
    | sort => exact h.settles_sort hc
    | setmetatable => exact h.settles_setMetatable hc
    | rawset =>
      refine h.settles_rawset hc fun ⟨hhas, hkey, hvalue⟩ => ?_
      match others with
      | [] | [_] => simp [Invocation.has] at hhas
      | key :: value :: _ => exact hu ⟨hkey, hvalue⟩

end uses

section sessions

def libraryNames : List String := ["math", "string", "table", "os", "w"]

/-- The parts of what a name stands for, if that is made as libraries are. -/
def World.library? (w : World) (name : String) : Option Parts :=
  match w.scopes.builtins.get? name with
  | some (.table shown) => (w.table shown).metatable.bind fun metatable =>
    match (w.table metatable).field "__index", (w.table metatable).field "__newindex",
      (w.table metatable).field "__len" with
    | .table inner, .function refuse, .function size => some { shown, inner, metatable, refuse, size }
    | _, _, _ => none
  | _ => none

/-- Whether a library is empty and protected, and its functions are the ones they should be. -/
def World.seals (w : World) (lib : Parts) : Bool :=
  (w.table lib.shown).items.isEmpty && (w.table lib.shown).entries.isEmpty &&
    !((w.table lib.metatable).field "__metatable").isNil &&
    (w.functions.getD lib.refuse.index default matches .native .refuseWrite) &&
    (match w.functions.getD lib.size.index default with
      | .native (.sizeOf t) => t = lib.inner
      | _ => false) &&
    (w.table lib.inner).metatable.isNone && (w.table lib.inner).length == 0

theorem World.sealed_of_library? {name : String} (h : w.library? name = some lib) (hseals : w.seals lib = true) :
    w.scopes.builtins.get? name = some (.table lib.shown) ∧ w.Sealed lib := by
  unfold World.library? at h
  split at h
  · next shown hname =>
    obtain ⟨metatable, hmetatable, hparts⟩ := Option.bind_eq_some_iff.mp h
    split at hparts
    · next inner refuse size hindex hnewindex hlen =>
      cases hparts
      simp only [World.seals, Bool.and_eq_true, Array.isEmpty_iff, Bool.not_eq_true', Option.isNone_iff_eq_none,
        beq_iff_eq] at hseals
      obtain ⟨⟨⟨⟨⟨⟨hitems, hentries⟩, hguarded⟩, hrefuse⟩, hsize⟩, hplain⟩, hlength⟩ := hseals
      refine ⟨hname, ⟨hitems, hentries⟩, hmetatable, hindex, hnewindex, hlen, hguarded, ?_, ?_, hplain, hlength⟩
      · split at hrefuse
        · next heq => exact heq
        · cases hrefuse
      · split at hsize
        · next t heq => rw [heq, of_decide_eq_true hsize]
        · cases hsize
    · cases hparts
  · cases h

/-- The libraries of a session. -/
def libraries : List Parts :=
  libraryNames.filterMap World.initial.library?

theorem sealed_initial : ∀ name ∈ libraryNames, ∃ lib, World.initial.library? name = some lib ∧
    World.initial.scopes.builtins.get? name = some (.table lib.shown) ∧ World.initial.Sealed lib := by
  have hseals : ∀ name ∈ libraryNames, ∃ lib ∈ World.initial.library? name, World.initial.seals lib = true := by
    decide +kernel
  intro name hname
  obtain ⟨lib, hlib, hsealed⟩ := hseals name hname
  exact ⟨lib, hlib, World.sealed_of_library? hlib hsealed⟩

theorem sealed_libraries : ∀ lib ∈ libraries, World.initial.Sealed lib := by
  intro lib hlib
  obtain ⟨name, hname, hlib⟩ := List.mem_filterMap.mp hlib
  obtain ⟨lib', hlib', -, hsealed⟩ := sealed_initial name hname
  cases hlib.symm.trans hlib'
  exact hsealed

/-- What a library is made of is the same in both worlds. -/
structure World.Keeps (lib : Parts) (v w : World) : Prop where
  shown : w.table lib.shown = v.table lib.shown
  metatable : w.table lib.metatable = v.table lib.metatable
  inner : w.table lib.inner = v.table lib.inner
  refuse : w.functions.getD lib.refuse.index default = v.functions.getD lib.refuse.index default
  size : w.functions.getD lib.size.index default = v.functions.getD lib.size.index default

theorem World.Keeps.trans {u v : World} (h : u.Keeps lib v) (k : v.Keeps lib w) : u.Keeps lib w :=
  ⟨k.shown.trans h.shown, k.metatable.trans h.metatable, k.inner.trans h.inner, k.refuse.trans h.refuse,
    k.size.trans h.size⟩

theorem World.Sealed.of_keeps {v : World} (h : v.Sealed lib) (hk : v.Keeps lib w) : w.Sealed lib where
  bare := hk.shown ▸ h.bare
  metatable := hk.shown ▸ h.metatable
  index := hk.metatable ▸ h.index
  newindex := hk.metatable ▸ h.newindex
  len := hk.metatable ▸ h.len
  guarded := hk.metatable ▸ h.guarded
  refuse := hk.refuse.trans h.refuse
  size := hk.size.trans h.size
  plain := hk.inner ▸ h.plain
  length := hk.inner ▸ h.length

/-- What the world may come to be while scripts, of whichever pages and sessions, use the libraries without
overriding them, one use after another, and do whatever else leaves alone what these are made of. -/
inductive World.Later : World → World → Prop where
  | refl (w : World) : Later w w
  | use {v w : World} (σ : Type) (host : Host σ) (s : σ) (fuel : Nat) {lib : Parts} (hlib : lib ∈ libraries)
      {u : Use} (hu : ¬ u.Overrides) (h : Later v w) :
      Later v (run host apply fuel (u.act (.table lib.shown)).code {} w s).world
  | other {u v w : World} (h : Later u v) (hkeeps : ∀ lib ∈ libraries, v.Keeps lib w) : Later u w

/-- Each use leaves all libraries as they are, and so does what comes of many. -/
theorem World.Later.keeps {v : World} (h : v.Later w) (hv : ∀ lib ∈ libraries, v.Sealed lib) :
    ∀ lib ∈ libraries, v.Keeps lib w := by
  induction h with
  | refl => exact fun _ _ => ⟨rfl, rfl, rfl, rfl, rfl⟩
  | use σ host s fuel hlib hu _ ih =>
    intro lib hmem
    have hsealed := (hv _ hlib).of_keeps (ih _ hlib)
    rw [(hsealed.settles_use hu).world host s fuel]
    exact ih lib hmem
  | other _ hkeeps ih => exact fun lib hmem => (ih lib hmem).trans (hkeeps lib hmem)

open Act in
/-- A value that is put under a name without asking the library is what a lookup gives from then on. -/
theorem World.Sealed.yields_of_rawset (h : w.Sealed lib) (name : Bytes) (hvalue : value.isNil = false)
    (site : Site) (others : List Value) {σ : Type} (host : Host σ) (s : σ) (n : Nat)
    (position : Option Position) (naming : Option Naming) :
    let u : Use := .call .rawset site (.str name :: value :: others)
    Yields (run host apply (n + 1) (u.act (.table lib.shown)).code {} w s).world
      (Act.index (.table lib.shown) (.str name) position naming) value := by
  intro u
  let v := w.modifyTable lib.shown (·.set (.str name) value)
  have hworld : (run host apply (n + 1) (u.act (.table lib.shown)).code {} w s).world = v := by
    cases n <;> rfl
  rw [hworld]
  have htable : v.table lib.shown = (w.table lib.shown).set (.str name) value :=
    w.table_modifyTable (h.index_lt) _
  have hlookup : tableLookup lib.shown (.str name) "__index" v = (value, .nil) := by
    rw [tableLookup, htable, h.bare.get_set name hvalue, hvalue]
    rfl
  have hshown : Yields v (look (tableLookup lib.shown (.str name) "__index")) (value, .nil) := by
    rw [← hlookup]
    exact yields_look _
  exact yields_bind hshown (yields_pure _)

open Act in
/-- Whatever is done, in whichever order, to what the names of the libraries stand for, all lookups give what
there was in the libraries as they were made, and no use does anything to them, wherever in a script it is,
apart from a value put into one without asking it; that one is what all later pages find under its name. -/
theorem libraries_change_only_by_rawset (hlater : World.initial.Later w) :
    ∀ name ∈ libraryNames, ∃ lib, World.initial.library? name = some lib ∧
      World.initial.scopes.builtins.get? name = some (.table lib.shown) ∧
      (∀ key position naming, Yields w (Act.index (.table lib.shown) key position naming)
        ((World.initial.table lib.inner).get key)) ∧
      (∀ u : Use, ¬ u.Overrides → (u.act (.table lib.shown)).Settles w fun _ => True) ∧
      ∀ (member : Bytes) (value : Value) (site : Site) (others : List Value), value.isNil = false →
        ∀ (σ : Type) (host : Host σ) (s : σ) (n : Nat) (position : Option Position) (naming : Option Naming),
          let u : Use := .call .rawset site (.str member :: value :: others)
          Yields (run host apply (n + 1) (u.act (.table lib.shown)).code {} w s).world
            (Act.index (.table lib.shown) (.str member) position naming) value := by
  intro name hname
  obtain ⟨lib, hlib, hbound, -⟩ := sealed_initial name hname
  have hmem : lib ∈ libraries := List.mem_filterMap.mpr ⟨name, hname, hlib⟩
  have hkeeps := hlater.keeps sealed_libraries lib hmem
  have hsealed : w.Sealed lib := (sealed_libraries lib hmem).of_keeps hkeeps
  refine ⟨lib, hlib, hbound, fun key position naming => ?_, fun u hu => hsealed.settles_use hu, ?_⟩
  · rw [← hkeeps.inner]
    exact hsealed.yields_index key position naming
  · intro member value site others hvalue σ host s n position naming
    exact hsealed.yields_of_rawset member hvalue site others host s n position naming

section examples

def mathLibrary : Parts :=
  (World.initial.library? "math").getD ⟨⟨0⟩, ⟨0⟩, ⟨0⟩, ⟨0⟩, ⟨0⟩⟩

/-- A script that adds a member to `math`, and one that then puts an item into it. -/
def written : World :=
  let assigned := (run (Host.absent []) apply 100
    ((Use.assign (.ofString "extra") (.ofNat 1) none none).act (.table mathLibrary.shown)).code {}
    World.initial ()).world
  (run (Host.absent []) apply 100
    ((Use.call .insert {} [.ofNat 1]).act (.table mathLibrary.shown)).code {} assigned ()).world

open Act in
theorem written_math_same : World.initial.Later written ∧
    Yields written (Act.index (.table mathLibrary.shown) (.ofString "extra") none none) .nil ∧
    ∃ abs, Yields written (Act.index (.table mathLibrary.shown) (.ofString "abs") none none) abs ∧
      abs.isNil = false := by
  have hfound : World.initial.library? "math" = some mathLibrary := by
    have hsome : (World.initial.library? "math").isSome = true := by decide +kernel
    obtain ⟨lib, hlib⟩ := Option.isSome_iff_exists.mp hsome
    rw [mathLibrary, hlib]
    rfl
  have hmem : mathLibrary ∈ libraries := List.mem_filterMap.mpr ⟨"math", List.mem_cons_self, hfound⟩
  have hlater : World.initial.Later written :=
    .use _ _ _ _ hmem id (.use _ _ _ _ hmem id (.refl _))
  obtain ⟨lib, hlib, -, hindex, -⟩ := libraries_change_only_by_rawset hlater "math" List.mem_cons_self
  obtain rfl : mathLibrary = lib := Option.some.inj (hfound.symm.trans hlib)
  have hmembers : ((World.initial.table mathLibrary.inner).get (.ofString "extra")).isNil = true ∧
      ((World.initial.table mathLibrary.inner).get (.ofString "abs")).isNil = false := by
    decide +kernel
  have hextra : (World.initial.table mathLibrary.inner).get (.ofString "extra") = .nil := by
    cases hvalue : (World.initial.table mathLibrary.inner).get (.ofString "extra") with
    | nil => rfl
    | _ => simp [hvalue, Value.isNil] at hmembers
  exact ⟨hlater, hextra ▸ hindex (.ofString "extra") none none, _, hindex (.ofString "abs") none none, hmembers.2⟩

/-- A page that adds a member to `math` without asking it. -/
def overriding : String :=
  "<celx><page><script>rawset(math, 'extra', 1)</script></page></celx>"

def asking : Node :=
  Session.scripted "seen = math.extra"

open Session in
/-- What a page puts into a library is there for the page that comes after it. -/
theorem rawset_reaches_next_page : ∃ first, start {} () = .ok first ∧
    let s := first.afterAll (serving overriding) [.route "/p" false]
    let before := install first.url asking first
    let after := install s.url asking s
    before.1.isOk = true ∧ after.1.isOk = true ∧
      (before.2.world.scopes.own? before.2.document "seen").all (·.isNil) = true ∧
      (after.2.world.scopes.own? after.2.document "seen").any (·.same (.ofNat 1)) = true :=
  exists_start (by decide +kernel)

end examples

end sessions

end Hypermedia.Script
