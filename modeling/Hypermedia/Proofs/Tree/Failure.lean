import Hypermedia.Proofs.Tree.Layers

/-! Operations that fail: each leaves the tree as it was, but for children set anew. -/
namespace Hypermedia.Tree

open Relation (TransGen ReflTransGen)

variable {t u : Tree} {id x p c target new : WidgetId} {cs : List WidgetId} {i offset : Nat}
  {e : SelectionError}

/-- The same widgets, links, root and layers. -/
structure SameShape (t u : Tree) : Prop where
  contains : ∀ x, u.contains x = t.contains x
  parent? : ∀ x, u.parent? x = t.parent? x
  children : ∀ x, u.children x = t.children x
  root : u.root = t.root
  pinned : u.pinned = t.pinned

theorem SameShape.refl (t : Tree) : t.SameShape t :=
  ⟨fun _ => rfl, fun _ => rfl, fun _ => rfl, rfl, rfl⟩

/-- Whether an operation that fails leaves the tree changed: children set anew that were not all to
stay in their order, up to the first that could not. -/
def Spoils (t : Tree) : Operation → Prop
  | .setChildren p cs =>
    t.isHolder p = true ∧ ¬ (t.children p ⊆ cs ∧ (t.adopted p cs).dedup <:+ t.children p)
  | .place _ p .replaceChildren => t.isHolder p = true ∧ t.children p ≠ []
  | _ => False

theorem Forest.insert_error (h : t.Forest) (he : (t.insert p i c).1 = .error e) :
    (t.insert p i c).2 = t := by
  by_cases ha : t.Admits p c
  · rw [h.insert_ok_iff.mpr ha] at he
    cases he
  · obtain ⟨_, hins⟩ := h.insert_of_not_admits (i := i) ha
    rw [hins]

theorem Forest.placeBeside_error (h : t.Forest) (he : (t.placeBeside new target offset).1 = .error e) :
    (t.placeBeside new target offset).2 = t := by
  by_cases hf : t.Fits target new
  · obtain ⟨p, hp⟩ := Option.isSome_iff_exists.mp hf.1
    obtain ⟨i, hi⟩ := @Forest.placeBeside_of_fits t p target new offset h hf hp
    rw [hi, (h.detach new).insert_ok_iff.mpr (h.admits_detach hf hp)] at he
    cases he
  · obtain ⟨_, hplace⟩ := @Forest.placeBeside_of_not_fits t target new offset h hf
    rw [hplace]

theorem Forest.replace_error (h : t.Forest) (he : (t.replace target new).1 = .error e) :
    (t.replace target new).2 = t := by
  by_cases hne : target = new
  · subst hne
    rw [replace_self]
  by_cases hroot : t.root = some target
  · rw [replace_root hne hroot] at he
    cases he
  by_cases hf : t.Fits target new
  · obtain ⟨p, hp⟩ := Option.isSome_iff_exists.mp hf.1
    obtain ⟨i, hi⟩ := h.replace_of_fits hroot hf hp
    have hd := (h.detach new).remove target
    rw [hi, hd.insert_ok_iff.mpr (h.admits_remove hf hp)] at he
    cases he
  · obtain ⟨_, hreplace⟩ := h.replace_of_not_fits hne hroot hf
    rw [hreplace]

theorem pin_error (he : (t.pin id).1 = .error e) : (t.pin id).2 = t := by
  unfold pin at he ⊢
  split
  · rfl
  · next hw =>
    rw [hw] at he
    cases he

section setChildren

private theorem filter_eq_self_of_disjoint {l : List WidgetId} (h : ∀ x ∈ l, x ∉ cs) :
    l.filter (· ∉ cs) = l := by
  rw [List.filter_eq_self]
  intro x hx
  simpa using h x hx

private theorem filter_append_dedup {l : List WidgetId} (hn : l.Nodup) (hs : cs.dedup <:+ l) :
    l.filter (· ∉ cs) ++ cs.dedup = l := by
  obtain ⟨front, rfl⟩ := hs
  have hfront : ∀ x ∈ front, x ∉ cs := fun x hx hc =>
    (List.nodup_append.mp hn).2.2 x hx x (List.mem_dedup.mpr hc) rfl
  have hback : cs.dedup.filter (· ∉ cs) = [] := by
    rw [List.filter_eq_nil_iff]
    intro x hx
    simpa using List.mem_dedup.mp hx
  rw [List.filter_append, filter_eq_self_of_disjoint hfront, hback, List.append_nil]

/-- Children moved to where they are already leave the tree as it was. -/
theorem Forest.eq_of_appended (h : t.Forest) (hpins : t.Pins) (hu : Appended t p cs u)
    (hs : cs.dedup <:+ t.children p) : u = t := by
  have hchild : ∀ x ∈ cs, t.parent? x = some p := fun x hx =>
    (h.mem_children_iff p x).mp (hs.subset (List.mem_dedup.mpr hx))
  have hparent : ∀ x, u.parent? x = t.parent? x := by
    intro x
    rw [hu.parent?]
    split
    · next hx => exact (hchild x hx).symm
    · rfl
  have hchildren : ∀ x, u.children x = t.children x := by
    intro x
    rw [hu.children]
    by_cases hx : x = p
    · subst hx
      rw [if_pos rfl]
      exact filter_append_dedup (h.nodup_children x) hs
    · rw [if_neg hx, List.append_nil]
      refine filter_eq_self_of_disjoint fun c hc hcs => hx ?_
      have hlink := (h.mem_children_iff x c).mp hc
      exact Option.some.inj (hlink.symm.trans (hchild c hcs))
  have hpinned : u.pinned = t.pinned := by
    rw [hu.pinned]
    refine filter_eq_self_of_disjoint fun x hx hcs => ?_
    have := hpins.top x hx
    simp [hchild x hcs] at this
  refine ext_get? hu.size (fun x => ?_) hu.root hpinned
  rw [hu.relinks x, hparent, hchildren]
  cases hw : t.get? x with
  | none => rfl
  | some w => simp [Tree.parent?, Tree.children, hw]

theorem dropped_eq_nil_iff : t.dropped p cs = [] ↔ t.children p ⊆ cs := by
  simp [dropped, List.filter_eq_nil_iff, List.subset_def]

/-- Children set anew leave the tree as it was if all that are there stay, in their order. -/
theorem Forest.setChildren_eq_self (h : t.Forest) (hpins : t.Pins) (hp : t.isHolder p = true)
    (hkeep : t.children p ⊆ cs) (hs : (t.adopted p cs).dedup <:+ t.children p) :
    (t.setChildren p cs).2 = t := by
  have ha := h.appended_setChildren cs hp
  rw [dropped_eq_nil_iff.mpr hkeep] at ha
  exact h.eq_of_appended hpins ha hs

/-- And only then do they leave its shape. -/
theorem Forest.keeps_of_sameShape (h : t.Forest) (hp : t.isHolder p = true)
    (hs : t.SameShape (t.setChildren p cs).2) :
    t.children p ⊆ cs ∧ (t.adopted p cs).dedup <:+ t.children p := by
  have ha := h.appended_setChildren cs hp
  have hkeep : t.children p ⊆ cs := by
    intro old hold
    by_contra hout
    have hdrop : old ∈ t.dropped p cs := mem_dropped_iff.mpr ⟨hold, hout⟩
    have hlive : (t.removeAll (t.dropped p cs)).contains old = true := by
      rw [← ha.contains, hs.contains]
      exact h.contains_child hold
    exact (h.contains_removeAll_iff.mp hlive).2 old hdrop ReflTransGen.refl
  rw [dropped_eq_nil_iff.mpr hkeep] at ha
  have hchildren := ha.children p
  rw [hs.children, if_pos rfl] at hchildren
  exact ⟨hkeep, _, hchildren.symm⟩

/-- One child set anew that cannot be taken: nothing stays. -/
theorem Forest.keeps_singleton_iff (h : t.Forest) (hp : t.isHolder p = true)
    (he : (t.setChildren p [c]).1 = .error e) :
    t.children p ⊆ [c] ∧ (t.adopted p [c]).dedup <:+ t.children p ↔ t.children p = [] := by
  have hc : t.adopts p [c] c = false := by
    rw [Bool.eq_false_iff]
    intro hc
    rw [(h.setChildren_ok_iff hp).mpr (by simpa using hc)] at he
    cases he
  constructor
  · rintro ⟨hkeep, -⟩
    by_contra hne
    obtain ⟨d, hd⟩ := List.exists_mem_of_ne_nil _ hne
    obtain rfl : d = c := List.mem_singleton.mp (hkeep hd)
    have hadm : (t.removeAll (t.dropped p [d])).Admits p d := by
      rw [dropped_eq_nil_iff.mpr hkeep]
      have hlink := (h.mem_children_iff p d).mp hd
      exact ⟨hp, contains_of_parent? hlink, h.not_within_of_below (TransGen.single hlink)⟩
    rw [h.adopts_iff.mpr hadm] at hc
    cases hc
  · intro hnil
    simp [hnil, adopted, hc]

end setChildren

/-- A failed operation leaves the tree as it was, or one that is not even of the same shape. -/
theorem Forest.failed (h : t.Forest) (hpins : t.Pins) (op : Operation)
    (he : (t.perform op).1 = .error e) :
    (¬ t.Spoils op → t.after op = t) ∧ (t.SameShape (t.after op) → ¬ t.Spoils op) := by
  have kept : t.after op = t → ¬ t.Spoils op →
      (¬ t.Spoils op → t.after op = t) ∧ (t.SameShape (t.after op) → ¬ t.Spoils op) :=
    fun heq hnot => ⟨fun _ => heq, fun _ => hnot⟩
  cases op with
  | construct w unlinked => cases he
  | append p c => exact kept (h.insert_error he) not_false
  | insert p i c => exact kept (h.insert_error he) not_false
  | replace target new => exact kept (h.replace_error he) not_false
  | setChildren p cs =>
    cases hp : t.isHolder p with
    | false =>
      obtain ⟨_, hset⟩ := setChildren_of_not_isHolder cs hp
      exact kept (congrArg Prod.snd hset) (by simp [Spoils, hp])
    | true =>
      simp only [Spoils, hp, true_and, not_not]
      exact ⟨fun hk => h.setChildren_eq_self hpins hp hk.1 hk.2, h.keeps_of_sameShape hp⟩
  | place id target edit =>
    cases edit with
    | replace => exact kept (h.replace_error he) not_false
    | replaceChildren =>
      cases hp : t.isHolder target with
      | false =>
        obtain ⟨_, hset⟩ := setChildren_of_not_isHolder [id] hp
        exact kept (congrArg Prod.snd hset) (by simp [Spoils, hp])
      | true =>
        have hk := h.keeps_singleton_iff hp he
        simp only [Spoils, hp, true_and, not_not, ne_eq]
        rw [← hk]
        exact ⟨fun hk => h.setChildren_eq_self hpins hp hk.1 hk.2, h.keeps_of_sameShape hp⟩
    | before => exact kept (h.placeBeside_error he) not_false
    | after => exact kept (h.placeBeside_error he) not_false
    | prepend => exact kept (h.insert_error he) not_false
    | append => exact kept (h.insert_error he) not_false
  | detach id => cases he
  | remove id => cases he
  | setRoot root => cases he
  | takeRoot => cases he
  | pin id => exact kept (pin_error he) not_false
  | dismiss id => cases he
  | clearPinned => cases he

/-- After any run, an operation that fails leaves the tree as it was unless it spoils it, and then not
even the shape of the tree is left. -/
theorem failed_leaves_shape (ops : List Operation) (op : Operation) (e : SelectionError)
    (he : ((({} : Tree).afterAll ops).perform op).1 = .error e) :
    let t := ({} : Tree).afterAll ops
    (¬ t.Spoils op → t.after op = t) ∧ (t.SameShape (t.after op) ↔ ¬ t.Spoils op) := by
  intro t
  have h : t.Forest := forest_afterAll ops
  have hpins : t.Pins := (forest_empty.leads_afterAll ops).pins forest_empty pins_empty
  obtain ⟨hsame, hshape⟩ := h.failed hpins op he
  refine ⟨hsame, hshape, fun hnot => ?_⟩
  rw [hsame hnot]
  exact SameShape.refl t

/-- A tower keeps its only child where it is to hold that child and one that is not there. -/
theorem failed_setChildren_keeps_child :
    let ops : List Operation := [.construct { kind := .tower } ⟨rfl, rfl⟩,
      .construct { kind := .text } ⟨rfl, rfl⟩, .append ⟨0⟩ ⟨1⟩]
    let op : Operation := .setChildren ⟨0⟩ [⟨1⟩, ⟨9⟩]
    let t := ({} : Tree).afterAll ops
    (t.perform op).1 = .error (.detached 9) ∧ ¬ t.Spoils op ∧
      (¬ t.Spoils op → t.after op = t) ∧ (t.SameShape (t.after op) ↔ ¬ t.Spoils op) := by
  intro ops op t
  have hfail : (t.perform op).1 = .error (.detached 9) := by decide +kernel
  have hkeep : t.children ⟨0⟩ ⊆ [⟨1⟩, ⟨9⟩] ∧
      (t.adopted ⟨0⟩ [⟨1⟩, ⟨9⟩]).dedup <:+ t.children ⟨0⟩ := by decide +kernel
  exact ⟨hfail, fun hs => hs.2 hkeep, failed_leaves_shape ops op (.detached 9) hfail⟩

/-- A tower told to hold itself only: the operation fails and its child is gone. -/
theorem failed_replaceChildren_removes_child :
    let t := ({} : Tree).afterAll [.construct { kind := .tower } ⟨rfl, rfl⟩,
      .construct { kind := .text } ⟨rfl, rfl⟩, .append ⟨0⟩ ⟨1⟩]
    let op : Operation := .place ⟨0⟩ ⟨0⟩ .replaceChildren
    (t.perform op).1 = .error (.notContainer "Tower@0") ∧
      t.contains ⟨1⟩ = true ∧ (t.after op).contains ⟨1⟩ = false := by
  decide +kernel

end Hypermedia.Tree
