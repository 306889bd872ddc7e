import Hypermedia.Proofs.Tree.Edits

/-! A widget put beside another or in its place: when it may stand there, and that it then does. -/
namespace Hypermedia.Tree

open Relation (TransGen ReflTransGen)

variable {t : Tree} {x p c target new : WidgetId} {before after : List WidgetId} {i offset : Nat}

/-- Whether `new` may stand among the siblings of `target`: `target` has a parent, and `new` is there
and not around `target`. -/
def Fits (t : Tree) (target new : WidgetId) : Prop :=
  (t.parent? target).isSome = true ∧ t.contains new = true ∧ ¬ t.Within target new

theorem Fits.ne (hf : t.Fits target new) : target ≠ new := by
  rintro rfl
  exact hf.2.2 ReflTransGen.refl

theorem Forest.isHolder_parent (h : t.Forest) (hp : t.parent? c = some p) :
    t.isHolder p = true := by
  refine h.holder p fun hnil => ?_
  have hc := (h.mem_children_iff p c).mpr hp
  simp [hnil] at hc

theorem Forest.indexOf?_eq (h : t.Forest) (hp : t.parent? x = some p)
    (hcs : t.children p = before ++ x :: after) : t.indexOf? x = some before.length := by
  have hnodup := h.nodup_children p
  rw [hcs, List.nodup_append] at hnodup
  have hx : before.findIdx? (· == x) = none := by
    refine List.findIdx?_eq_none_iff.mpr fun c hc => ?_
    have hne : c ≠ x := hnodup.2.2 c hc x List.mem_cons_self
    simpa using hne
  rw [indexOf?, hp, Option.bind_some, hcs, List.findIdx?_append, hx, List.findIdx?_cons,
    if_pos (beq_self_eq_true x)]
  simp

theorem Forest.exists_indexOf? (h : t.Forest) (hp : t.parent? x = some p) :
    ∃ i, t.indexOf? x = some i := by
  obtain ⟨before, after, hcs⟩ := List.append_of_mem ((h.mem_children_iff p x).mpr hp)
  exact ⟨before.length, h.indexOf?_eq hp hcs⟩

theorem Forest.checkReplace_eq_ok (h : t.Forest) (hf : t.Fits target new)
    (hp : t.parent? target = some p) : t.checkReplace target new = .ok p := by
  obtain ⟨w, hw⟩ := widget_of_contains hf.2.1
  have ha : new ∉ t.ancestors target := fun ha => hf.2.2 (h.mem_ancestors_iff.mp ha).within
  simp [checkReplace, hp, hw, ha, bind, Except.bind, pure, Except.pure]

theorem Forest.checkReplace_eq_error (h : t.Forest) (hne : target ≠ new)
    (hf : ¬ t.Fits target new) : ∃ e, t.checkReplace target new = .error e := by
  cases hc : t.checkReplace target new with
  | error e => exact ⟨e, rfl⟩
  | ok p =>
    refine absurd ?_ hf
    rw [checkReplace] at hc
    cases hp : t.parent? target with
    | none => simp [hp, throw, throwThe, MonadExceptOf.throw] at hc
    | some q =>
      cases hw : t.widget new with
      | error e => simp [hp, hw, bind, Except.bind] at hc
      | ok w =>
        refine ⟨by simp [hp], contains_iff.mpr ⟨w, widget_eq_ok.mp hw⟩, fun hwithin => ?_⟩
        have hb := (within_iff.mp hwithin).resolve_left hne
        simp [hp, hw, h.mem_ancestors_iff.mpr hb, bind, Except.bind, throw, throwThe,
          MonadExceptOf.throw] at hc

theorem Forest.checkBeside_eq_ok (h : t.Forest) (hf : t.Fits target new)
    (hp : t.parent? target = some p) : t.checkBeside new target = .ok p := by
  obtain ⟨w, hw⟩ := widget_of_contains hf.2.1
  have hholder := h.isHolder_parent hp
  have hl : new ∉ t.lineage target := fun hl => hf.2.2 (h.mem_lineage_iff.mp hl)
  rw [isHolder] at hholder
  simp [checkBeside, hp, hw, hl, hholder, bind, Except.bind, pure, Except.pure]

theorem Forest.checkBeside_eq_error (h : t.Forest) (hf : ¬ t.Fits target new) :
    ∃ e, t.checkBeside new target = .error e := by
  cases hc : t.checkBeside new target with
  | error e => exact ⟨e, rfl⟩
  | ok p =>
    refine absurd ?_ hf
    rw [checkBeside] at hc
    cases hp : t.parent? target with
    | none => simp [hp, throw, throwThe, MonadExceptOf.throw] at hc
    | some q =>
      have hholder := h.isHolder_parent hp
      rw [isHolder] at hholder
      cases hw : t.widget new with
      | error e => simp [hp, hw, hholder, bind, Except.bind] at hc
      | ok w =>
        refine ⟨by simp [hp], contains_iff.mpr ⟨w, widget_eq_ok.mp hw⟩, fun hwithin => ?_⟩
        simp [hp, hw, hholder, h.mem_lineage_iff.mpr hwithin, bind, Except.bind, throw, throwThe,
          MonadExceptOf.throw] at hc

/-- A widget keeps its parent when what fits beside it leaves its own. -/
theorem Forest.parent?_detach_of_fits (h : t.Forest) (hf : t.Fits target new)
    (hp : t.parent? target = some p) : (t.detach new).parent? target = some p := by
  rw [h.parent?_detach, if_neg hf.ne, hp]

/-- The parent of a widget may take what leaves its old place and is not around it. -/
theorem Forest.admits_detach (h : t.Forest) (hf : t.Fits target new)
    (hp : t.parent? target = some p) : (t.detach new).Admits p new := by
  refine ⟨?_, ?_, ?_⟩
  · rw [h.isHolder_detach]
    exact h.isHolder_parent hp
  · rw [contains_detach]
    exact hf.2.1
  · rw [h.within_detach]
    exact fun hpn => hf.2.2 (hpn.head hp)

/-- A placement beside a widget is an insertion once its check has passed. -/
theorem Forest.placeBeside_eq_insert (h : t.Forest) (hf : t.Fits target new)
    (hp : t.parent? target = some p) (hi : (t.detach new).indexOf? target = some i) :
    t.placeBeside new target offset = (t.detach new).insert p (i + offset) new := by
  rw [placeBeside, h.checkBeside_eq_ok hf hp]
  simp only [hi]

theorem Forest.placeBeside_of_fits (h : t.Forest) (hf : t.Fits target new)
    (hp : t.parent? target = some p) :
    ∃ i, t.placeBeside new target offset = (t.detach new).insert p i new := by
  obtain ⟨i, hi⟩ := (h.detach new).exists_indexOf? (h.parent?_detach_of_fits hf hp)
  exact ⟨i + offset, h.placeBeside_eq_insert hf hp hi⟩

theorem Forest.placeBeside_of_not_fits (h : t.Forest) (hf : ¬ t.Fits target new) :
    ∃ e, t.placeBeside new target offset = (.error e, t) := by
  obtain ⟨e, he⟩ := h.checkBeside_eq_error hf
  exact ⟨e, by rw [placeBeside, he]⟩

/-- Where `target` and what is below it goes, its parent may take what has left. -/
theorem Forest.admits_remove (h : t.Forest) (hf : t.Fits target new)
    (hp : t.parent? target = some p) : ((t.detach new).remove target).Admits p new := by
  have hd := h.detach new
  have hdp := h.parent?_detach_of_fits hf hp
  have hpt : ¬ (t.detach new).Within p target :=
    hd.not_within_of_below (TransGen.single hdp)
  have hnt : ¬ (t.detach new).Within new target := by
    rw [within_iff, below_iff, h.parent?_detach_self]
    simpa using Ne.symm hf.ne
  have ha := h.admits_detach hf hp
  refine ⟨?_, ?_, ?_⟩
  · rw [hd.isHolder_remove hpt]
    exact ha.1
  · exact hd.contains_remove_iff.mpr ⟨ha.2.1, hnt⟩
  · rw [hd.within_remove hpt]
    exact ha.2.2

/-- A replacement below the root is a removal and an insertion once its check has passed. -/
theorem Forest.replace_eq_insert (h : t.Forest) (hroot : t.root ≠ some target)
    (hf : t.Fits target new) (hp : t.parent? target = some p)
    (hi : (t.detach new).indexOf? target = some i) :
    t.replace target new = ((t.detach new).remove target).insert p i new := by
  rw [replace, if_neg hf.ne, if_neg hroot, h.checkReplace_eq_ok hf hp]
  simp only [hi]

theorem Forest.replace_of_fits (h : t.Forest) (hroot : t.root ≠ some target)
    (hf : t.Fits target new) (hp : t.parent? target = some p) :
    ∃ i, t.replace target new = ((t.detach new).remove target).insert p i new := by
  obtain ⟨i, hi⟩ := (h.detach new).exists_indexOf? (h.parent?_detach_of_fits hf hp)
  exact ⟨i, h.replace_eq_insert hroot hf hp hi⟩

theorem Forest.replace_of_not_fits (h : t.Forest) (hne : target ≠ new)
    (hroot : t.root ≠ some target) (hf : ¬ t.Fits target new) :
    ∃ e, t.replace target new = (.error e, t) := by
  obtain ⟨e, he⟩ := h.checkReplace_eq_error hne hf
  exact ⟨e, by rw [replace, if_neg hne, if_neg hroot, he]⟩

theorem replace_self : t.replace target target = (.ok (), t) := by
  rw [replace, if_pos rfl]

theorem replace_root (hne : target ≠ new) (hroot : t.root = some target) :
    t.replace target new = (.ok (), t.setRoot (some new)) := by
  rw [replace, if_neg hne, if_pos hroot]

end Hypermedia.Tree
