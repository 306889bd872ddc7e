import Hypermedia.Proofs.Tree.Search

/-! Walks: the loops that go through a tree from link to link, each as the step that it repeats, come to an end and find
what the tree lists recursively. -/
namespace Hypermedia

/-- A loop that takes one step after another comes to an end, with a result. -/
inductive Ends {σ α : Type} (step : σ → σ ⊕ α) : σ → α → Prop
  | stop {s : σ} {a : α} (h : step s = .inr a) : Ends step s a
  | next {s s' : σ} {a : α} (h : step s = .inl s') (rest : Ends step s' a) : Ends step s a

section loops

variable {σ α : Type} {step : σ → σ ⊕ α} {s : σ} {a b : α}

theorem Ends.unique (ha : Ends step s a) (hb : Ends step s b) : a = b := by
  induction ha with
  | stop h =>
    cases hb with
    | stop k => exact Sum.inr.inj (h.symm.trans k)
    | next k _ => cases h.symm.trans k
  | next h _ ih =>
    cases hb with
    | stop k => cases h.symm.trans k
    | next k rest =>
      obtain rfl := Sum.inl.inj (h.symm.trans k)
      exact ih rest

/-- A loop whose steps keep an invariant and lower a measure ends with a result that the invariant allows. -/
theorem exists_ends (inv : σ → Prop) {result : α → Prop} (measure : σ → Nat)
    (hnext : ∀ s s', inv s → step s = .inl s' → inv s' ∧ measure s' < measure s)
    (hstop : ∀ s a, inv s → step s = .inr a → result a) (hs : inv s) : ∃ a, Ends step s a ∧ result a := by
  induction hn : measure s using Nat.strong_induction_on generalizing s with
  | _ n ih =>
    cases hstep : step s with
    | inr a => exact ⟨a, .stop hstep, hstop s a hs hstep⟩
    | inl s' =>
      obtain ⟨hs', hlt⟩ := hnext s s' hs hstep
      obtain ⟨a, ha, hresult⟩ := ih (measure s') (hn ▸ hlt) hs' rfl
      exact ⟨a, .next hstep ha, hresult⟩

theorem ends_iff_of_exists (h : ∃ a, Ends step s a ∧ a = b) : Ends step s a ↔ a = b := by
  obtain ⟨_, hb, rfl⟩ := h
  exact ⟨fun ha => ha.unique hb, fun heq => heq ▸ hb⟩

end loops

namespace Tree

/-- Writes down the widget it is at and goes to its parent. -/
def climb (t : Tree) :
    List WidgetId × Option WidgetId → (List WidgetId × Option WidgetId) ⊕ List WidgetId
  | (found, none) => .inr found
  | (found, some id) => .inl (found ++ [id], t.parent? id)

/-- Takes the next of the pending widgets, writes it down, and puts its children before the others; passes over what
is no longer there. -/
def descend (t : Tree) :
    List WidgetId × List WidgetId → (List WidgetId × List WidgetId) ⊕ List WidgetId
  | (found, []) => .inr found
  | (found, id :: pending) =>
    if t.contains id then .inl (found ++ [id], t.children id ++ pending) else .inl (found, pending)

/-- Goes to the parent unless it is at the document root or at a pinned widget. -/
def seekLayer (t : Tree) : Option WidgetId → Option WidgetId ⊕ Bool
  | none => .inr false
  | some id => if t.root == some id || t.pinned.contains id then .inr true else .inl (t.parent? id)

variable {t : Tree} {x id : WidgetId} {n k : Nat}

section upward

theorem chain_none (n : Nat) : t.chain n none = [] := by
  cases n <;> rfl

/-- A chain that ended before its bound is the same under a larger one. -/
theorem chain_succ_of_length_lt {start : Option WidgetId} (h : (t.chain n start).length < n) :
    t.chain (n + 1) start = t.chain n start := by
  induction n generalizing start with
  | zero => cases h
  | succ n ih =>
    cases start with
    | none => rfl
    | some x =>
      have hrest : (t.chain n (t.parent? x)).length < n := Nat.lt_of_succ_lt_succ h
      exact congrArg (x :: ·) (ih hrest)

/-- The ancestors of a widget are its parent and those of its parent. -/
theorem Forest.ancestors_eq (h : t.Forest) (x : WidgetId) : t.ancestors x = (t.parent? x).elim [] t.lineage := by
  cases hp : t.parent? x with
  | none => rw [ancestors, hp, chain_none, Option.elim_none]
  | some p =>
    have hbound := h.length_chain_lt (contains_of_parent? hp) t.slots.size
    rw [hp] at hbound
    rw [ancestors, hp, ← chain_succ_of_length_lt hbound]
    rfl

/-- A place and all above it; nothing above no place. -/
def upFrom (t : Tree) (start : Option WidgetId) : List WidgetId :=
  start.elim [] t.lineage

theorem Forest.upFrom_some (h : t.Forest) (x : WidgetId) : t.upFrom (some x) = x :: t.upFrom (t.parent? x) :=
  congrArg (x :: ·) (h.ancestors_eq x)

/-- What is written down on the way up and what is still above are always the ancestors. -/
theorem Forest.exists_ends_climb (h : t.Forest) (x : WidgetId) :
    ∃ found, Ends t.climb ([], t.parent? x) found ∧ found = t.ancestors x := by
  refine exists_ends (fun s => s.1 ++ t.upFrom s.2 = t.ancestors x) (fun s => (t.upFrom s.2).length) ?_ ?_ ?_
  · rintro ⟨found, _ | id⟩ s' hinv hstep
    · cases hstep
    · cases hstep
      rw [h.upFrom_some] at hinv ⊢
      refine ⟨?_, Nat.lt_succ_self _⟩
      rw [← hinv, List.append_assoc, List.singleton_append]
  · rintro ⟨found, _ | id⟩ a hinv hstep
    · cases hstep
      rw [← hinv]
      exact (List.append_nil _).symm
    · cases hstep
  · exact (h.ancestors_eq x).symm

def isLayer (t : Tree) (id : WidgetId) : Bool :=
  t.root == some id || t.pinned.contains id

/-- As long as no layer is met, whether there is one is decided by what is still above. -/
theorem Forest.exists_ends_seekLayer (h : t.Forest) (x : WidgetId) :
    ∃ b, Ends t.seekLayer (some x) b ∧ b = t.isAttached x := by
  have hstep (id : WidgetId) :
      t.seekLayer (some id) = if t.isLayer id then .inr true else .inl (t.parent? id) := rfl
  refine exists_ends (fun s => (t.upFrom s).any t.isLayer = t.isAttached x) (fun s => (t.upFrom s).length)
    ?_ ?_ rfl
  · rintro (_ | id) s' hinv hs
    · cases hs
    · rw [hstep] at hs
      split at hs
      · cases hs
      · next hlayer =>
        cases hs
        rw [h.upFrom_some] at hinv ⊢
        refine ⟨?_, Nat.lt_succ_self _⟩
        rwa [List.any_cons, Bool.eq_false_iff.mpr hlayer, Bool.false_or] at hinv
  · rintro (_ | id) b hinv hs
    · cases hs
      exact hinv
    · rw [hstep] at hs
      split at hs
      · next hlayer =>
        cases hs
        rw [← hinv, h.upFrom_some, List.any_cons, hlayer, Bool.true_or]
      · cases hs

end upward

section downward

/-- Below a widget whose ancestors are as many as the walk is short there is nothing. -/
theorem Forest.walk_succ_of_le (h : t.Forest) (hk : t.slots.size ≤ k + (t.ancestors x).length) :
    t.walk (k + 1) x = t.walk k x := by
  induction k generalizing x with
  | zero =>
    have hgone : t.get? x = none := by
      by_contra hlive
      obtain ⟨w, hw⟩ := Option.ne_none_iff_exists'.mp hlive
      have hbound := h.length_chain_lt (contains_iff.mpr ⟨w, hw⟩) t.slots.size
      unfold ancestors at hk
      omega
    simp [walk, hgone]
  | succ k ih =>
    rw [walk, walk]
    split
    · next w hw =>
      refine congrArg (x :: ·) (List.flatMap_congr fun c hc => ih ?_)
      have hparent : t.parent? c = some x := (h.mem_children_iff x c).mp (by rwa [children, hw])
      rw [h.ancestors_eq, hparent, Option.elim_some, lineage, List.length_cons]
      omega
    · rfl

/-- A live widget comes first among its descendants, then those of its children one after another. -/
theorem Forest.descendants_eq (h : t.Forest) (x : WidgetId) :
    t.descendants x = if t.contains x then x :: (t.children x).flatMap t.descendants else [] := by
  rw [descendants, ← h.walk_succ_of_le (Nat.le_add_right _ _), walk, contains, children]
  cases t.get? x <;> rfl

/-- What the way down takes from the pending widgets because of one of them: all below it, or only itself if it is
gone. -/
def visits (t : Tree) (x : WidgetId) : List WidgetId :=
  if t.contains x then t.descendants x else [x]

theorem Forest.visits_eq (h : t.Forest) (x : WidgetId) :
    t.visits x = x :: if t.contains x then (t.children x).flatMap t.visits else [] := by
  rw [visits]
  split
  · next hlive =>
    rw [h.descendants_eq, if_pos hlive]
    refine congrArg (x :: ·) (List.flatMap_congr fun c hc => ?_)
    rw [visits, if_pos (h.contains_child hc)]
  · rfl

theorem descend_cons (found pending : List WidgetId) : t.descend (found, id :: pending) =
    if t.contains id then .inl (found ++ [id], t.children id ++ pending) else .inl (found, pending) := rfl

/-- What is written down on the way down and what is under the pending widgets are always the descendants. -/
theorem Forest.exists_ends_descend (h : t.Forest) (x : WidgetId) :
    ∃ found, Ends t.descend ([], [x]) found ∧ found = t.descendants x := by
  refine exists_ends (fun s => s.1 ++ s.2.flatMap t.descendants = t.descendants x)
    (fun s => (s.2.flatMap t.visits).length) ?_ ?_ ?_
  · rintro ⟨found, _ | ⟨id, pending⟩⟩ s' hinv hstep
    · cases hstep
    · rw [List.flatMap_cons, h.descendants_eq id] at hinv
      rw [List.flatMap_cons, h.visits_eq id]
      rw [descend_cons] at hstep
      split at hstep
      · next hlive =>
        cases hstep
        rw [if_pos hlive] at hinv ⊢
        refine ⟨by simpa using hinv, ?_⟩
        rw [List.cons_append, List.length_cons, List.flatMap_append]
        exact Nat.lt_succ_self _
      · next hgone =>
        cases hstep
        rw [if_neg hgone, List.nil_append] at hinv
        rw [if_neg hgone]
        exact ⟨hinv, Nat.lt_succ_self _⟩
  · rintro ⟨found, _ | ⟨id, pending⟩⟩ a hinv hstep
    · cases hstep
      rw [← hinv]
      exact (List.append_nil _).symm
    · rw [descend_cons] at hstep
      split at hstep <;> cases hstep
  · exact List.flatMap_singleton t.descendants x

theorem Forest.nodup_descendants (h : t.Forest) (x : WidgetId) : (t.descendants x).Nodup := by
  have := h.asymm_precedes
  exact (h.pairwise_precedes _ x).nodup

end downward

section places

/-- The index of a widget is where it stands among the children of its parent. -/
theorem Forest.indexOf?_eq_some_iff (h : t.Forest) {i : Nat} :
    t.indexOf? x = some i ↔ ∃ p, t.parent? x = some p ∧ (t.children p)[i]? = some x := by
  rw [indexOf?, Option.bind_eq_some_iff]
  refine exists_congr fun p => and_congr_right fun hp => ?_
  have hstands {j : Nat} (hj : (t.children p).findIdx? (· == x) = some j) : (t.children p)[j]? = some x := by
    obtain ⟨hlt, heq, -⟩ := List.findIdx?_eq_some_iff_getElem.mp hj
    rw [List.getElem?_eq_getElem hlt, beq_iff_eq.mp heq]
  refine ⟨hstands, fun hi => ?_⟩
  obtain ⟨j, hj⟩ := h.exists_indexOf? hp
  rw [indexOf?, hp, Option.bind_some] at hj
  have hlt : i < (t.children p).length := (List.getElem?_eq_some_iff.mp hi).1
  obtain rfl : i = j := (List.getElem?_inj hlt (h.nodup_children p)).mp (hi.trans (hstands hj).symm)
  exact hj

end places

/-- In every tree that operations lead to, from every place: the way down ends with the recursive list of a widget and
all below it, each once; the way up ends with the chain of parents; the search for a layer ends with whether the widget
or one above it is one; and a widget has an index exactly if it has a parent, where it stands at that index. -/
theorem walks_end (ops : List Operation) (id : WidgetId) :
    let t := ({} : Tree).afterAll ops
    ((∀ found, Ends t.descend ([], [id]) found ↔ found = t.descendants id) ∧
        (t.descendants id = if t.contains id then id :: (t.children id).flatMap t.descendants else []) ∧
        (t.descendants id).Nodup ∧ ∀ x, x ∈ t.descendants id ↔ t.contains x = true ∧ t.Within x id) ∧
      ((∀ found, Ends t.climb ([], t.parent? id) found ↔ found = t.ancestors id) ∧
        t.ancestors id = match t.parent? id with
          | some p => p :: t.ancestors p
          | none => []) ∧
      ((∀ b, Ends t.seekLayer (some id) b ↔ b = t.isAttached id) ∧
        (t.isAttached id = true ↔ ∃ x ∈ id :: t.ancestors id, t.root = some x ∨ x ∈ t.pinned)) ∧
      ((t.indexOf? id).isSome = (t.parent? id).isSome ∧
        ∀ i, t.indexOf? id = some i ↔ ∃ p, t.parent? id = some p ∧ (t.children p)[i]? = some id) := by
  intro t
  have h : t.Forest := forest_afterAll ops
  refine ⟨⟨fun _ => ends_iff_of_exists (h.exists_ends_descend id), h.descendants_eq id, h.nodup_descendants id,
    fun x => h.mem_descendants_iff⟩, ⟨fun _ => ends_iff_of_exists (h.exists_ends_climb id), ?_⟩,
    ⟨fun _ => ends_iff_of_exists (h.exists_ends_seekLayer id), ?_⟩, ⟨?_, fun i => h.indexOf?_eq_some_iff⟩⟩
  · rw [h.ancestors_eq]
    cases t.parent? id <;> rfl
  · rw [isAttached, List.any_eq_true]
    simp [lineage]
  · cases hp : t.parent? id with
    | none => simp [indexOf?, hp]
    | some p =>
      obtain ⟨i, hi⟩ := h.exists_indexOf? hp
      rw [hi]
      rfl

end Tree

end Hypermedia
