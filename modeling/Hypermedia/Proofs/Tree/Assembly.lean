import Hypermedia.Proofs.Tree.Failure
import Hypermedia.Proofs.Tree.Scripted

/-! Widgets that cannot be built: what they have taken in by then is removed with them. -/
namespace Hypermedia.Widget.Blueprint

open Hypermedia.Tree (Admits Appended Operation)
open Relation (ReflTransGen)

variable {b : Widget.Blueprint} {t u v : Tree} {x c : WidgetId} {e : SelectionError}

/-- The widgets that move into the new one before the first that cannot. -/
def taken (b : Widget.Blueprint) (t : Tree) : List WidgetId :=
  b.children.takeWhile fun c => b.kind.isContainer && t.contains c

theorem isContainer_of_mem_taken (hc : c ∈ b.taken t) : (b.kind.isContainer && t.contains c) = true := by
  have hadmitted := List.mem_takeWhile_imp hc
  exact hadmitted

theorem contains_of_mem_taken (hc : c ∈ b.taken t) : t.contains c = true :=
  (Bool.and_eq_true_iff.mp (isContainer_of_mem_taken hc)).2

/-- The place of the next widget. -/
def next (t : Tree) : WidgetId := ⟨t.slots.size⟩

theorem get?_next : t.get? (next t) = none :=
  Tree.get?_of_size_le (Nat.le_refl _)

theorem get?_construct_of_ne {w : Widget} (hx : x ≠ next t) : (t.construct w).2.get? x = t.get? x :=
  Tree.get?_construct.trans (if_neg fun heq : x.index = t.slots.size => hx (WidgetId.ext heq))

/-- A new widget takes any widget that was there before, if it takes any. -/
theorem admits_construct_iff :
    (b.kind.isContainer && t.contains c) = true ↔ (t.construct b.widget).2.Admits (next t) c := by
  have hkind : b.widget.isContainer = b.kind.isContainer := congrArg Kind.isContainer b.sameBonds_widget.1.2.2
  have hself : (t.construct b.widget).2.get? (next t) = some b.widget :=
    Tree.get?_construct.trans (if_pos rfl)
  have hholder : (t.construct b.widget).2.isHolder (next t) = b.kind.isContainer := by
    rw [Tree.isHolder, hself, ← hkind]
    rfl
  have htop : (t.construct b.widget).2.parent? (next t) = none := by
    rw [Tree.parent?, hself, Option.bind_some, b.isUnlinked_widget.1]
  rw [Bool.and_eq_true, Admits, hholder]
  refine and_congr_right fun _ => ?_
  by_cases hc : c = next t
  · -- it does not take itself
    subst hc
    have hwithin : (t.construct b.widget).2.Within (next t) (next t) := ReflTransGen.refl
    simp [Tree.contains, get?_next, hwithin]
  · have hout : ¬ (t.construct b.widget).2.Within (next t) c := fun hw =>
      hc (Tree.eq_of_within htop hw).symm
    rw [Tree.contains, Tree.contains, get?_construct_of_ne hc]
    simp [hout]

theorem contains_next : t.contains (next t) = false := by
  rw [Tree.contains, get?_next]
  rfl

theorem next_not_mem_taken : next t ∉ b.taken t := by
  intro hmem
  have hlive := contains_of_mem_taken hmem
  rw [contains_next] at hlive
  cases hlive

section undo

variable (hu : Appended (t.construct b.widget).2 (next t) (b.taken t) u)

include hu

theorem parent?_of_appended (x : WidgetId) :
    u.parent? x = if x ∈ b.taken t then some (next t) else t.parent? x := by
  rw [hu.parent?, Tree.parent?_construct b.isUnlinked_widget.1]

theorem children_of_appended (hx : x ≠ next t) :
    u.children x = (t.children x).filter (· ∉ b.taken t) := by
  rw [hu.children, if_neg hx, List.append_nil, Tree.children_construct b.isUnlinked_widget.2]

/-- Below the new widget is what was below a widget that it has taken. -/
theorem within_next_iff (ht : t.Forest) :
    u.Within x (next t) ↔ x = next t ∨ ∃ c ∈ b.taken t, t.Within x c := by
  have hparent := parent?_of_appended hu
  constructor
  · intro hw
    induction hw using ReflTransGen.head_induction_on with
    | refl => exact .inl rfl
    | @head x y hxy _ ih =>
      rw [Tree.IsChild, hparent] at hxy
      split at hxy
      · next hx => exact .inr ⟨x, hx, .refl⟩
      · rcases ih with rfl | ⟨c, hc, hyc⟩
        · -- nothing was below a place that held nothing
          have hlive := ht.contains_parent hxy
          rw [contains_next] at hlive
          cases hlive
        · exact .inr ⟨c, hc, hyc.head hxy⟩
  · rintro (rfl | ⟨c, hc, hxc⟩)
    · exact .refl
    · induction hxc using ReflTransGen.head_induction_on with
      | refl => exact ReflTransGen.single (by rw [Tree.IsChild, hparent, if_pos hc])
      | @head x y hxy _ ih =>
        by_cases hx : x ∈ b.taken t
        · exact ReflTransGen.single (by rw [Tree.IsChild, hparent, if_pos hx])
        · exact ih.head (by rwa [Tree.IsChild, hparent, if_neg hx])

/-- The new widget removed, every place holds what it holds where the widgets it took are removed. -/
theorem get?_remove_next (ht : t.Forest) (hforest : u.Forest) (x : WidgetId) :
    (u.remove (next t)).get? x = (t.removeAll (b.taken t)).get? x := by
  have hwithin : u.Within x (next t) ↔ _ := within_next_iff hu ht
  by_cases hw : u.Within x (next t)
  · have hgone : (t.removeAll (b.taken t)).contains x = false := by
      rw [Bool.eq_false_iff]
      intro hlive
      obtain ⟨hx, hclear⟩ := ht.contains_removeAll_iff.mp hlive
      rcases hwithin.mp hw with rfl | ⟨c, hc, hxc⟩
      · rw [contains_next] at hx
        cases hx
      · exact hclear c hc hxc
    rw [hforest.get?_remove_of_within hw]
    exact (Option.not_isSome_iff_eq_none.mp (Bool.eq_false_iff.mp hgone)).symm
  · obtain ⟨hne, hclear⟩ := not_or.mp (hwithin.not.mp hw)
    have hclear : ∀ c ∈ b.taken t, ¬ t.Within x c := fun c hc hxc => hclear ⟨c, hc, hxc⟩
    have hout : x ∉ b.taken t := fun hx => hclear x hx .refl
    have htop : u.parent? (next t) = none := by
      rw [parent?_of_appended hu, if_neg next_not_mem_taken, Tree.parent?, get?_next]
      rfl
    have hdetach : u.detach (next t) = u := by rw [Tree.detach, htop]
    rw [hforest.get?_remove_of_not_within hw, hdetach, ht.get?_removeAll hclear, hu.relinks x,
      get?_construct_of_ne hne, parent?_of_appended hu, if_neg hout, children_of_appended hu hne]
    cases hx : t.get? x with
    | none => rfl
    | some w => simp [Tree.parent?, Tree.children, hx]

end undo

theorem build_error (hb : b.build t = (.error e, v)) :
    v = ((t.construct b.widget).2.appendAll (next t) b.children).2.remove (next t) := by
  unfold build at hb
  dsimp only at hb
  split at hb
  · cases hb
  · next heq =>
    obtain ⟨-, rfl⟩ := Prod.mk.inj hb
    exact congrArg (fun r => r.2.remove (next t)) heq.symm

/-- What a widget that cannot be built leaves: the tree without the widgets it took, each with all
below it. The root stays named even where it was taken. -/
theorem failed_build (ht : t.Forest) (hpins : t.Pins) (hb : b.build t = (.error e, v)) :
    (∀ x, v.get? x = (t.removeAll (b.taken t)).get? x) ∧
      v.pinned = t.pinned.filter (· ∉ b.taken t) ∧
      v.root = if t.root = some (next t) then none else t.root := by
  have hnew : (t.construct b.widget).2.Forest := ht.construct b.isUnlinked_widget.1 b.isUnlinked_widget.2
  have hadmits : ∀ c, (b.kind.isContainer && t.contains c) = true ↔
      (t.construct b.widget).2.Admits (next t) c := fun _ => admits_construct_iff
  have happended : Appended (t.construct b.widget).2 (next t) (b.taken t)
      ((t.construct b.widget).2.appendAll (next t) b.children).2 := by
    rw [(hnew.appendAll_takeWhile hadmits).1]
    exact hnew.appended_appendAll fun c hc => (hadmits c).mp (isContainer_of_mem_taken hc)
  have hforest := (Tree.leads_appendAll (t.construct b.widget).2 (next t) b.children).forest hnew
  obtain rfl := build_error hb
  refine ⟨get?_remove_next happended ht hforest, ?_, ?_⟩
  · rw [Tree.pinned_remove, happended.pinned, Tree.pinned_construct]
    refine filter_ne_eq_self fun hmem => ?_
    have hlive := hpins.contains _ (List.mem_filter.mp hmem).1
    rw [contains_next] at hlive
    cases hlive
  · rw [Tree.root_remove, happended.root, Tree.root_construct]

/-- After any run, a widget that cannot be built leaves the shape of the tree just if it had taken no
widget yet; else those are gone, each with all below it, and everything else is as it was. -/
theorem failed_build_leaves_shape_iff (ops : List Operation) (b : Widget.Blueprint)
    (e : SelectionError) (u : Tree) (hb : b.build (({} : Tree).afterAll ops) = (.error e, u)) :
    let t := ({} : Tree).afterAll ops
    (t.SameShape u ↔ b.taken t = [] ∧ t.root ≠ some (next t)) ∧
      (∀ x, u.get? x = (t.removeAll (b.taken t)).get? x) ∧
      u.pinned = t.pinned.filter (· ∉ b.taken t) ∧
      u.root = if t.root = some (next t) then none else t.root := by
  intro t
  have ht : t.Forest := Tree.forest_afterAll ops
  have hpins : t.Pins := (Tree.forest_empty.leads_afterAll ops).pins Tree.forest_empty Tree.pins_empty
  obtain ⟨hget, hpinned, hroot⟩ := failed_build ht hpins hb
  refine ⟨⟨fun hshape => ⟨?_, fun hnext => ?_⟩, fun ⟨hnone, hnext⟩ => ?_⟩, hget, hpinned, hroot⟩
  · rw [List.eq_nil_iff_forall_not_mem]
    intro c hc
    have hlive : (t.removeAll (b.taken t)).contains c = true := by
      rw [← congrFun (Tree.links_congr hget).2.2.1 c, hshape.contains]
      exact contains_of_mem_taken hc
    exact (ht.contains_removeAll_iff.mp hlive).2 c hc .refl
  · rw [hshape.root, if_pos hnext, hnext] at hroot
    cases hroot
  · rw [hnone] at hget hpinned
    obtain ⟨hparent, hchildren, hcontains, -⟩ := Tree.links_congr hget
    exact ⟨congrFun hcontains, congrFun hparent, congrFun hchildren, by rw [hroot, if_neg hnext],
      by simpa using hpinned⟩

/-- A text that is to hold a child: the child stays where it is. -/
theorem failed_leaf_keeps_child :
    let ops : List Operation := [.construct { kind := .tower } ⟨rfl, rfl⟩,
      .construct { kind := .text } ⟨rfl, rfl⟩, .append ⟨0⟩ ⟨1⟩]
    let t := ({} : Tree).afterAll ops
    let b : Widget.Blueprint := { kind := .text, children := [⟨1⟩] }
    b.build t = (.error (.notContainer "Text@2"), (b.build t).2) ∧ t.SameShape (b.build t).2 := by
  intro ops t b
  have hfail : b.build t = (.error (.notContainer "Text@2"), (b.build t).2) := by
    refine Prod.ext ?_ rfl
    decide +kernel
  have hnone : b.taken t = [] ∧ t.root ≠ some (next t) := by decide +kernel
  exact ⟨hfail, (failed_build_leaves_shape_iff ops b _ _ hfail).1.mpr hnone⟩

/-- A row that is to hold the text of a tower and a widget that is not there: the text is gone. -/
theorem failed_row_removes_child :
    let t := ({} : Tree).afterAll [.construct { kind := .tower } ⟨rfl, rfl⟩,
      .construct { kind := .text } ⟨rfl, rfl⟩, .append ⟨0⟩ ⟨1⟩]
    let b : Widget.Blueprint := { kind := .row, children := [⟨1⟩, ⟨9⟩] }
    (b.build t).1 = .error (.detached 9) ∧
      t.contains ⟨1⟩ = true ∧ t.children ⟨0⟩ = [⟨1⟩] ∧
      (b.build t).2.contains ⟨1⟩ = false ∧ (b.build t).2.children ⟨0⟩ = [] := by
  decide +kernel

end Hypermedia.Widget.Blueprint
