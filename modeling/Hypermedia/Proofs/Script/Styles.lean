import Hypermedia.Proofs.Script.Safe
import Hypermedia.Proofs.Session.Surroundings
import Mathlib.Data.List.Nodup
import Mathlib.Logic.Relation

/-! Style values: a value of a script has one exactly if no table in it holds itself. -/
namespace Hypermedia.Script

open Relation (ReflTransGen TransGen)

/-- The style value of anything but a table. -/
def Value.plainStyle? (isAlive : ScopeId → Bool) : Value → Option Style.Value
  | .nil => some .null
  | .bool b => some (.bool b)
  | .number (.int i) => some (.int i.toInt)
  | .number (.float x) => some (.float x)
  | .table _ => none
  | v => some (.str (v.display isAlive))

namespace World

mutual

/-- A value is read as a style value, table after table: there is a reading where that comes to an end. -/
inductive Reads (w : World) (isAlive : ScopeId → Bool) : Value → Style.Value → Prop
  | plain {v : Value} {x : Style.Value} (h : v.plainStyle? isAlive = some x) : Reads w isAlive v x
  | table {t : TableId} {xs : List Style.Value} (h : ReadsAll w isAlive (w.table t).sequence xs) :
      Reads w isAlive (.table t) (.list xs)

/-- The values of a sequence are read one by one. -/
inductive ReadsAll (w : World) (isAlive : ScopeId → Bool) : List Value → List Style.Value → Prop
  | nil : ReadsAll w isAlive [] []
  | cons {v : Value} {vs : List Value} {x : Style.Value} {xs : List Style.Value}
      (first : Reads w isAlive v x) (rest : ReadsAll w isAlive vs xs) :
      ReadsAll w isAlive (v :: vs) (x :: xs)

end

variable {w : World} {isAlive : ScopeId → Bool} {v : Value} {x y : Style.Value} {t u : TableId}

/-- A table is an item of another. -/
def Holds (w : World) (t u : TableId) : Prop :=
  .table u ∈ (w.table t).sequence

/-- A value is a table, or holds it at some depth. -/
def Within (w : World) (v : Value) (u : TableId) : Prop :=
  ∃ t, v = .table t ∧ ReflTransGen w.Holds t u

section readings

theorem plainStyle?_cases (w : World) (isAlive : ScopeId → Bool) (v : Value) :
    (∃ t, v = .table t) ∨ ∃ x, v.plainStyle? isAlive = some x ∧ ∀ n,
      w.nestsWithin n v = true ∧ w.styleWithin isAlive n v = x := by
  rcases v with _ | b | (i | x) | s | t | f | ⟨serial, object⟩
  case table => exact .inl ⟨t, rfl⟩
  all_goals
    refine .inr ⟨_, rfl, fun n => ?_⟩
    cases n <;> exact ⟨rfl, rfl⟩

/-- A value is read from some depth on as the style value that it is read as there. -/
def ReadFrom (w : World) (isAlive : ScopeId → Bool) (n : Nat) (v : Value) (x : Style.Value) : Prop :=
  ∀ m, n ≤ m → w.nestsWithin m v = true ∧ w.styleWithin isAlive m v = x

theorem readFrom_table {n : Nat} {xs : List Style.Value}
    (h : ∀ m, n ≤ m → (w.table t).sequence.all (w.nestsWithin m) = true ∧
      (w.table t).sequence.map (w.styleWithin isAlive m) = xs) :
    w.ReadFrom isAlive (n + 1) (.table t) (.list xs) := by
  intro m hm
  cases m with
  | zero => exact absurd hm (Nat.not_succ_le_zero n)
  | succ m =>
    obtain ⟨hnests, hstyles⟩ := h m (Nat.le_of_succ_le_succ hm)
    exact ⟨hnests, congrArg Style.Value.list hstyles⟩

mutual

theorem Reads.readFrom {v : Value} {x : Style.Value} :
    Reads w isAlive v x → ∃ n, w.ReadFrom isAlive n v x
  | .plain h => by
    rcases plainStyle?_cases w isAlive v with ⟨t, rfl⟩ | ⟨y, hy, hread⟩
    · cases h
    · obtain rfl : y = x := Option.some.inj (hy.symm.trans h)
      exact ⟨0, fun m _ => hread m⟩
  | .table h => by
    obtain ⟨n, hn⟩ := ReadsAll.readFrom h
    exact ⟨n + 1, readFrom_table hn⟩

theorem ReadsAll.readFrom {vs : List Value} {xs : List Style.Value} :
    ReadsAll w isAlive vs xs → ∃ n, ∀ m, n ≤ m →
      vs.all (w.nestsWithin m) = true ∧ vs.map (w.styleWithin isAlive m) = xs
  | .nil => ⟨0, fun _ _ => ⟨rfl, rfl⟩⟩
  | .cons first rest => by
    obtain ⟨n, hn⟩ := Reads.readFrom first
    obtain ⟨k, hk⟩ := ReadsAll.readFrom rest
    refine ⟨max n k, fun m hm => ?_⟩
    obtain ⟨hnests, hstyle⟩ := hn m (le_trans (le_max_left n k) hm)
    obtain ⟨hrest, hstyles⟩ := hk m (le_trans (le_max_right n k) hm)
    exact ⟨by simp [hnests, hrest], by simp [hstyle, hstyles]⟩

end

/-- Where a value nests less deep than a depth, it is read within that depth. -/
theorem reads_of_nestsWithin {n : Nat} (h : w.nestsWithin n v = true) :
    w.Reads isAlive v (w.styleWithin isAlive n v) := by
  induction n generalizing v with
  | zero =>
    rcases plainStyle?_cases w isAlive v with ⟨t, rfl⟩ | ⟨x, hx, hread⟩
    · cases h
    · rw [(hread 0).2]
      exact .plain hx
  | succ n ih =>
    rcases plainStyle?_cases w isAlive v with ⟨t, rfl⟩ | ⟨x, hx, hread⟩
    · have hitems : ∀ v ∈ (w.table t).sequence, w.nestsWithin n v = true := List.all_eq_true.mp h
      refine .table ?_
      revert hitems
      generalize (w.table t).sequence = items
      intro hitems
      induction items with
      | nil => exact .nil
      | cons v vs ihs =>
        obtain ⟨hv, hvs⟩ := List.forall_mem_cons.mp hitems
        exact .cons (ih hv) (ihs hvs)
    · rw [(hread (n + 1)).2]
      exact .plain hx

theorem Reads.unique (h : w.Reads isAlive v x) (k : w.Reads isAlive v y) : x = y := by
  obtain ⟨n, hn⟩ := h.readFrom
  obtain ⟨m, hm⟩ := k.readFrom
  exact (hn _ (le_max_left n m)).2.symm.trans (hm _ (le_max_right n m)).2

end readings

section nesting

/-- What is in a table that is read within a depth is read within one less. -/
theorem nestsWithin_of_holds {n : Nat} (h : w.nestsWithin n (.table t) = true) (hu : w.Holds t u) :
    ∃ m < n, w.nestsWithin m (.table u) = true := by
  cases n with
  | zero => cases h
  | succ n => exact ⟨n, Nat.lt_succ_self n, List.all_eq_true.mp h _ hu⟩

theorem nestsWithin_of_transGen {n : Nat} (h : w.nestsWithin n (.table t) = true)
    (hu : TransGen w.Holds t u) : ∃ m < n, w.nestsWithin m (.table u) = true := by
  induction hu with
  | single hu => exact nestsWithin_of_holds h hu
  | tail _ hu ih =>
    obtain ⟨m, hm, hnests⟩ := ih
    obtain ⟨k, hk, hu⟩ := nestsWithin_of_holds hnests hu
    exact ⟨k, hk.trans hm, hu⟩

/-- A table that holds itself is not read within any depth. -/
theorem not_nestsWithin_of_loop (h : TransGen w.Holds t t) (n : Nat) :
    w.nestsWithin n (.table t) ≠ true := by
  induction n using Nat.strong_induction_on with
  | h n ih =>
    intro hnests
    obtain ⟨m, hm, hless⟩ := nestsWithin_of_transGen hnests h
    exact ih m hm hless

theorem not_nestsWithin_of_within (hv : w.Within v u) (h : TransGen w.Holds u u) (n : Nat) :
    w.nestsWithin n v ≠ true := by
  obtain ⟨t, rfl, htu⟩ := hv
  rcases Relation.reflTransGen_iff_eq_or_transGen.mp htu with rfl | htu
  · exact not_nestsWithin_of_loop h n
  · intro hnests
    obtain ⟨m, -, hless⟩ := nestsWithin_of_transGen hnests htu
    exact not_nestsWithin_of_loop h m hless

/-- A value that is not read within a depth holds a chain of tables that is longer than that. -/
theorem chain_of_not_nestsWithin {n : Nat} (h : w.nestsWithin n v ≠ true) :
    ∃ t path, v = .table t ∧ List.IsChain w.Holds (t :: path) ∧ path.length = n := by
  induction n generalizing v with
  | zero =>
    rcases plainStyle?_cases w (fun _ => true) v with ⟨t, rfl⟩ | ⟨_, _, hread⟩
    · exact ⟨t, [], rfl, .singleton t, rfl⟩
    · exact absurd (hread 0).1 h
  | succ n ih =>
    rcases plainStyle?_cases w (fun _ => true) v with ⟨t, rfl⟩ | ⟨_, _, hread⟩
    · obtain ⟨item, hitem, hnot⟩ : ∃ item ∈ (w.table t).sequence, w.nestsWithin n item ≠ true := by
        by_contra hall
        push Not at hall
        exact h (List.all_eq_true.mpr hall)
      obtain ⟨u, path, rfl, hchain, hlength⟩ := ih hnot
      exact ⟨t, u :: path, rfl, .cons_cons hitem hchain, by simp [hlength]⟩
    · exact absurd (hread (n + 1)).1 h

theorem sequence_empty : ({} : Table).sequence = [] := by
  decide +kernel

/-- Only a table of the world has items. -/
theorem Holds.lt (h : w.Holds t u) : t.index < w.tables.size := by
  by_contra hge
  have hempty : w.table t = {} := by simp [table, Array.getD, hge]
  unfold Holds at h
  rw [hempty, sequence_empty] at h
  exact absurd h List.not_mem_nil

/-- In a chain of different tables all but the last are tables of the world. -/
theorem length_le_of_chain {path : List TableId} (h : List.IsChain w.Holds (t :: path))
    (hnodup : (t :: path).Nodup) : path.length ≤ w.tables.size := by
  have hlt : ∀ u ∈ (t :: path).dropLast, u.index < w.tables.size := by
    clear hnodup
    induction path generalizing t with
    | nil => nofun
    | cons u path ih =>
      obtain ⟨hfirst, hrest⟩ := List.isChain_cons_cons.mp h
      rw [List.dropLast_cons_cons]
      exact List.forall_mem_cons.mpr ⟨hfirst.lt, ih hrest⟩
  have hindices : ((t :: path).dropLast.map (·.index)).Nodup :=
    (hnodup.sublist (List.dropLast_sublist _)).map fun
      | ⟨_⟩, ⟨_⟩, rfl => rfl
  have hrange : (t :: path).dropLast.map (·.index) ⊆ List.range w.tables.size := by
    intro i hi
    obtain ⟨u, hu, rfl⟩ := List.mem_map.mp hi
    exact List.mem_range.mpr (hlt u hu)
  simpa using (hindices.subperm hrange).length_le

/-- A value that holds no table which holds itself is read within as many levels as there are tables. -/
theorem nestsWithin_of_no_loop (h : ∀ u, w.Within v u → ¬ TransGen w.Holds u u) {n : Nat}
    (hn : w.tables.size < n) : w.nestsWithin n v = true := by
  by_contra hnot
  obtain ⟨t, path, rfl, hchain, hlength⟩ := chain_of_not_nestsWithin hnot
  have hpairs : (t :: path).Pairwise (TransGen w.Holds) :=
    List.isChain_iff_pairwise.mp (hchain.imp fun _ _ => .single)
  have hwithin : ∀ u ∈ t :: path, w.Within (.table t) u := by
    refine List.forall_mem_cons.mpr ⟨⟨t, rfl, .refl⟩, fun u hu => ⟨t, rfl, ?_⟩⟩
    exact (List.rel_of_pairwise_cons hpairs hu).to_reflTransGen
  -- tables that stand twice in the chain would hold themselves
  have hnodup : (t :: path).Nodup := hpairs.imp_of_mem fun hu _ hholds heq => by
    subst heq
    exact h _ (hwithin _ hu) hholds
  exact absurd (length_le_of_chain hchain hnodup) (by omega)

end nesting

theorem reads_iff_no_loop :
    (∃ x, w.Reads isAlive v x) ↔ ∀ u, w.Within v u → ¬ TransGen w.Holds u u := by
  constructor
  · rintro ⟨x, hread⟩ u hwithin hloop
    obtain ⟨n, hn⟩ := hread.readFrom
    exact not_nestsWithin_of_within hwithin hloop n (hn n le_rfl).1
  · intro hloops
    exact ⟨_, reads_of_nestsWithin (nestsWithin_of_no_loop hloops (Nat.lt_succ_self _))⟩

theorem toStyle?_eq_some_iff : w.toStyle? isAlive v = some x ↔ w.Reads isAlive v x := by
  unfold toStyle?
  dsimp only
  split
  · next hnests =>
    have hread : w.Reads isAlive v _ := reads_of_nestsWithin hnests
    exact ⟨fun h => Option.some.inj h ▸ hread, fun h => congrArg some (hread.unique h)⟩
  · next hnests =>
    refine ⟨nofun, fun hread => absurd ?_ hnests⟩
    refine nestsWithin_of_no_loop (reads_iff_no_loop.mp ⟨x, hread⟩) ?_
    have : 0 < maxNesting := Nat.pow_pos (by decide)
    omega

section calls

variable {σ α β : Type} {s : Session σ} {c : Invocation} {stack : Stack} {n : Nat}

theorem run_living_look (f : (ScopeId → Bool) → World → α) (g : α → Act β) (k : β → Code) :
    run Session.host apply (n + 2) ((do g (← Act.look (f (← Act.living)))) k) stack w s =
      run Session.host apply n (g (f (w.scopes.isHeld (Session.host.held s ++ w.held)) w) k) stack w s :=
  rfl

/-- What a script goes on with when a request is met or refused. -/
def given : Except String Field → Act Value
  | .ok field => Act.ofField field
  | .error message => Act.fault (Bytes.ofString message)

theorem run_ask {service : Service} {answer : Except String Field} {t : Session σ}
    (h : Session.perform service s = (answer, t)) (m : Act β) (k : β → Code) :
    run Session.host apply (n + 1) ((do let _ ← Act.ask service; m) k) stack w s =
      run Session.host apply n ((do let _ ← given answer; m) k) stack w t := by
  have hrun : run Session.host apply (n + 1) ((do let _ ← Act.ask service; m) k) stack w s =
      run Session.host apply n ((do let _ ← given (Session.perform service s).1; m) k) stack w
        (Session.perform service s).2 := rfl
  rw [hrun, h]

/-- A call of `style` stores what the value is read as, and the script goes on; or it fails, and nothing is
stored. -/
def StoresOrFails (w : World) (s : Session σ) (c : Invocation) : Prop :=
  ∀ stack n k,
    (∃ id property x rules, (c.value 1).widget? = some id ∧
      w.Reads (w.scopes.isHeld (Session.host.held s ++ w.held)) (c.value 3) x ∧
      s.rules.apply (s.tree.query id) (.ofList [(property, x)]) Style.scriptPriority = .ok rules ∧
      run Session.host apply (n + 4) (Library.style c k) stack w s =
        run Session.host apply (n + 1) (k []) stack w { s with rules }) ∨
    ∃ e m handles, run Session.host apply (n + 4) (Library.style c k) stack w s =
      run Session.host apply m (.fail e) stack { w with handles } s

theorem storesOrFails (h : ∀ u, w.Within (c.value 3) u → ¬ TransGen w.Holds u u) : w.StoresOrFails s c := by
  intro stack n k
  unfold Library.style Invocation.asText
  cases hproperty : Act.textArgument 2 none (c.value 2) with
  | error message => exact .inr ⟨_, n + 3, _, rfl⟩
  | ok property =>
    cases hwidget : (c.value 1).widget? with
    | none => exact .inr ⟨_, n + 3, _, rfl⟩
    | some id =>
      obtain ⟨x, hread⟩ : ∃ x, w.Reads (w.scopes.isHeld (Session.host.held s ++ w.held)) (c.value 3) x :=
        reads_iff_no_loop.mpr h
      have hstyle := toStyle?_eq_some_iff.mpr hread
      -- what follows is the same for every way of reading values; this one must not be unfolded
      obtain ⟨read, heq⟩ : ∃ read, read = World.toStyle? := ⟨_, rfl⟩
      rw [← heq] at hstyle ⊢
      rw [Act.orFault, pure_bind]
      dsimp only
      rw [run_living_look, hstyle]
      dsimp only
      cases hrules : s.rules.apply (s.tree.query id) (.ofList [(property, x)]) Style.scriptPriority with
      | ok rules =>
        have hperform : Session.perform (.style id property x) s = (.ok .nothing, { s with rules }) := by
          rw [Session.perform, hrules]
        exact .inl ⟨id, property, x, rules, rfl, hread, hrules, run_ask hperform _ _⟩
      | error e =>
        have hperform : Session.perform (.style id property x) s = (.error e.message, s) := by
          rw [Session.perform, hrules]
        exact .inr ⟨_, n, _, run_ask hperform _ _⟩

end calls

/-- In every world: a value has a style value exactly if reading it, table after table, comes to an end,
and that it does exactly if no table that it is or holds, at any depth, holds itself. Tables may be shared
in any way. A call of `style` with such a value stores it or fails. -/
theorem style_value_iff (w : World) (isAlive : ScopeId → Bool) (v : Value) :
    (∀ x, w.toStyle? isAlive v = some x ↔ w.Reads isAlive v x) ∧
      ((∃ x, w.Reads isAlive v x) ↔ ∀ u, w.Within v u → ¬ TransGen w.Holds u u) ∧
      ∀ (σ : Type) (s : Session σ) (c : Invocation), c.value 3 = v → (∃ x, w.Reads isAlive v x) →
        w.StoresOrFails s c := by
  refine ⟨fun _ => toStyle?_eq_some_iff, reads_iff_no_loop, ?_⟩
  rintro σ s c rfl hread
  exact storesOrFails (reads_iff_no_loop.mp hread)

section examples

/-- A page whose script puts a table into itself. -/
def selfHolding : String :=
  "<celx><page><script>loop = {} loop[1] = loop</script></page></celx>"

def loopOf (s : Session Unit) : Option TableId :=
  match s.page.bind fun page => (s.world.scopes.bindings page.scope).lookup "loop" with
  | some (.table t) => some t
  | _ => none

theorem eq_of_same_table (h : v.same (.table t) = true) : v = .table t := by
  cases v <;> simp_all [Value.same]

/-- The table that the script has made is not read to an end, and has no style value. -/
theorem self_holding_has_no_style : ∃ first, Session.start {} () = .ok first ∧
    let s := first.afterAll (Session.serving selfHolding) [.route "/p" false]
    ∃ t, loopOf s = some t ∧ ∀ isAlive,
      s.world.toStyle? isAlive (.table t) = none ∧ ¬ ∃ x, s.world.Reads isAlive (.table t) x := by
  obtain ⟨first, hstart, t, hloop, hitem⟩ := Session.exists_start (p := fun first =>
    let s := first.afterAll (Session.serving selfHolding) [.route "/p" false]
    ∃ t ∈ loopOf s, (s.world.table t).sequence.any (·.same (.table t)) = true) (by decide +kernel)
  let w := (first.afterAll (Session.serving selfHolding) [.route "/p" false]).world
  have hholds : w.Holds t t := by
    obtain ⟨item, hmem, hsame⟩ := List.any_eq_true.mp hitem
    rwa [eq_of_same_table hsame] at hmem
  have hread : ∀ isAlive, ¬ ∃ x, w.Reads isAlive (.table t) x := fun isAlive hx =>
    reads_iff_no_loop.mp hx t ⟨t, rfl, .refl⟩ (.single hholds)
  refine ⟨first, hstart, t, hloop, fun isAlive => ⟨?_, hread isAlive⟩⟩
  cases hstyle : w.toStyle? isAlive (.table t) with
  | none => rfl
  | some x => exact absurd ⟨x, toStyle?_eq_some_iff.mp hstyle⟩ (hread isAlive)

end examples

end World

end Hypermedia.Script
