import Hypermedia.Proofs.Script.Confinement
import Hypermedia.Proofs.Session.Sound
import Hypermedia.Proofs.Tree.Parts
import Mathlib.Data.List.Flatten
import Mathlib.Data.List.Pairwise

/-! Secluded fragments: what waits for a place stands apart in the tree, with nothing of a script bound, and
what is done to widgets outside leaves it so. -/
namespace Hypermedia.Session

open Script (Confined Field Service)

variable {σ : Type} {s t u : Session σ} {x y root : WidgetId} {p : WidgetId × List WidgetId}
  {pending : List (WidgetId × List WidgetId)}

/-- A widget of a fragment that waits for a place. -/
def Withheld (s : Session σ) (x : WidgetId) : Prop :=
  ∃ p ∈ s.pending, x ∈ p.2

/-- A widget that the session knows and that does not wait for a place. -/
def Open (s : Session σ) (x : WidgetId) : Prop :=
  s.Known x ∧ ¬ s.Withheld x

/-- Fragments that wait for a place are parts of the tree that stand by themselves, each widget is in one of
them at most, none is bound, and none is a layer or loose. -/
structure Secluded (s : Session σ) : Prop where
  forest : s.tree.Forest
  root : ∀ r, s.tree.root = some r → ¬ s.Withheld r
  pinned : ∀ x ∈ s.tree.pinned, ¬ s.Withheld x
  spans : ∀ p ∈ s.pending, s.tree.Spans p.1 p.2
  nodup : (s.pending.flatMap (·.2)).Nodup
  bare : ∀ x, s.Withheld x → s.tree.Bare x
  loose : ∀ x ∈ s.loose, ¬ s.Withheld x

theorem withheld_of_sublist (hsub : pending.Sublist s.pending) (hx : { s with pending }.Withheld x) :
    s.Withheld x :=
  hx.imp fun _ hp => ⟨hsub.subset hp.1, hp.2⟩

theorem withheld_of_eq (h : t.pending = s.pending) : t.Withheld x ↔ s.Withheld x := by
  rw [Withheld, Withheld, h]

namespace Secluded

variable (h : s.Secluded)

include h

theorem live (hx : s.Withheld x) : s.tree.contains x = true := by
  obtain ⟨p, hp, hmem⟩ := hx
  exact (((h.spans p hp).mem_iff x).mp hmem).1

theorem encloses : s.tree.Encloses s.Withheld where
  forest := h.forest
  live _ := h.live
  linked c a hlink := by
    constructor
    · rintro ⟨p, hp, hc⟩
      exact ⟨p, hp, ((h.spans p hp).linked h.forest hlink).mp hc⟩
    · rintro ⟨p, hp, ha⟩
      exact ⟨p, hp, ((h.spans p hp).linked h.forest hlink).mpr ha⟩
  root := h.root
  pinned := h.pinned

/-- No widget is in two fragments. -/
theorem eq_of_mem {q : WidgetId × List WidgetId} (hp : p ∈ s.pending) (hq : q ∈ s.pending) (hxp : x ∈ p.2)
    (hxq : x ∈ q.2) : p = q := by
  by_contra hne
  have hdisjoint := (List.nodup_flatMap.mp h.nodup).2
  have hsymm : Std.Symm (Function.onFun List.Disjoint fun p : WidgetId × List WidgetId => p.2) :=
    ⟨fun _ _ hd => hd.symm⟩
  exact hdisjoint.forall hp hq hne hxp hxq

/-- A step of the tree that shields what is withheld. -/
theorem step (hs : Tree.Shields s.Withheld s.tree t.tree) (hpending : t.pending = s.pending)
    (hloose : ∀ x ∈ t.loose, x ∈ s.loose ∨ ¬ s.Withheld x) : t.Secluded := by
  have hiff : ∀ x, t.Withheld x ↔ s.Withheld x := fun x => withheld_of_eq hpending
  refine ⟨hs.encloses.forest, fun r hr => ?_, fun x hx => ?_, fun p hp => ?_, ?_, fun x hx w hw => ?_,
    fun x hx => ?_⟩
  · rw [hiff]
    exact hs.encloses.root r hr
  · rw [hiff]
    exact hs.encloses.pinned x hx
  · rw [hpending] at hp
    exact (h.spans p hp).shields h.forest hs fun x hx => ⟨p, hp, hx⟩
  · rw [hpending]
    exact h.nodup
  · rw [hs.get?_eq x ((hiff x).mp hx)] at hw
    exact h.bare x ((hiff x).mp hx) w hw
  · rw [hiff]
    exact (hloose x hx).elim (h.loose x) id

/-- A step of the tree alone. -/
theorem withTree {tree : Tree} (hs : Tree.Shields s.Withheld s.tree tree) : Secluded { s with tree } :=
  h.step hs rfl fun _ => .inl

/-- A step that leaves the tree and the fragments alone. -/
theorem congr (htree : t.tree = s.tree) (hpending : t.pending = s.pending) (hloose : t.loose = s.loose) :
    t.Secluded := by
  refine h.step ?_ hpending fun x hx => .inl (hloose ▸ hx)
  rw [htree]
  exact h.encloses.refl

/-- Some fragments wait no longer. -/
theorem drop (hsub : pending.Sublist s.pending) : Secluded { s with pending } where
  forest := h.forest
  root r hr hx := h.root r hr (withheld_of_sublist hsub hx)
  pinned x hx hw := h.pinned x hx (withheld_of_sublist hsub hw)
  spans p hp := h.spans p (hsub.subset hp)
  nodup := h.nodup.sublist (hsub.flatMap _)
  bare x hx := h.bare x (withheld_of_sublist hsub hx)
  loose x hx hw := h.loose x hx (withheld_of_sublist hsub hw)

end Secluded

section scripts

open Script (Host)

variable {P : WidgetId → Prop} {id : WidgetId} {name : String} {service : Service} {n : Nat}

/-- A field of a widget that is open names widgets that are there and open only. -/
theorem Secluded.confined_read (h : s.Secluded) (hid : ¬ s.Withheld id)
    (hP : ∀ x, s.tree.contains x = true → ¬ s.Withheld x → P x) : Confined P (Field.read s.tree id name) := by
  refine ⟨fun _ _ => trivial, fun field hfield => ?_⟩
  unfold Field.read at hfield
  split at hfield
  · cases hfield
  split at hfield
  case h_2 => cases hfield
  next w hw =>
  cases hfield
  have hnone {f : Field} (hwidget : ∀ x, f ≠ .widget x) (hwidgets : ∀ xs, f ≠ .widgets xs) : Confined P f :=
    ⟨fun x hx => absurd hx (hwidget x), fun xs hxs => absurd hxs (hwidgets xs)⟩
  have htext (o : Option String) : Confined P (Field.ofText o) := by
    cases o <;> exact hnone (by simp [Field.ofText]) (by simp [Field.ofText])
  unfold Field.ofWidget
  split
  · exact htext _
  split
  · exact htext _
  split
  · exact htext _
  split
  · exact htext _
  split
  · exact hnone (by simp) (by simp)
  split
  · cases hp : w.parent with
    | none => exact hnone (by simp) (by simp)
    | some a =>
      have hlink : s.tree.parent? id = some a := by rw [Tree.parent?, hw, Option.bind_some, hp]
      have hopen : ¬ s.Withheld a := fun ha => hid ((h.encloses.linked id a hlink).mpr ha)
      refine ⟨fun x hx => ?_, by simp⟩
      cases hx
      exact hP a (h.forest.contains_parent hlink) hopen
  split
  · refine ⟨by simp, fun xs hxs c hc => ?_⟩
    cases hxs
    have hlink : s.tree.parent? c = some id :=
      (h.forest.mem_children_iff id c).mp (by rwa [Tree.children, hw])
    exact hP c (Tree.contains_of_parent? hlink) fun hx => hid ((h.encloses.linked c id hlink).mp hx)
  split
  · exact hnone (by simp) (by simp)
  split
  · cases w.scope <;> exact hnone (by simp) (by simp)
  · cases w.attribute? name <;> exact hnone (by simp) (by simp)

/-- What is found in the document is open. -/
theorem Secluded.not_withheld_of_findAll (h : s.Secluded) {selector : Selector}
    (hx : x ∈ s.tree.findAll selector s.tree.layers) : s.tree.contains x = true ∧ ¬ s.Withheld x := by
  have hmem := (Tree.mem_of_mem_addNew hx).resolve_left List.not_mem_nil
  obtain ⟨a, ha, hx⟩ := List.mem_flatMap.mp (List.mem_of_mem_filter hmem)
  obtain ⟨hlive, hw⟩ := h.forest.mem_descendants_iff.mp hx
  exact ⟨hlive, fun hx => h.encloses.not_layer ha ((h.encloses.within hw).mp hx)⟩

theorem size_le_perform (service : Service) (s : Session σ) :
    s.tree.slots.size ≤ (perform service s).2.tree.slots.size := by
  have hplace (r : Except SelectionError Unit × Tree) (ids : List WidgetId)
      (hr : s.tree.slots.size ≤ r.2.slots.size) :
      s.tree.slots.size ≤ (s.placeWidgets r ids).2.tree.slots.size := by
    obtain ⟨outcome, tree⟩ := r
    cases outcome <;> exact hr
  cases service with
  | writeField id name offer =>
    rw [perform]
    split
    · next hwrite =>
      obtain ⟨f, rfl, -⟩ := Field.write_eq_modify hwrite
      exact Nat.le_of_eq Tree.size_modify.symm
    · exact Nat.le_refl _
  | find selector =>
    rw [perform]
    split <;> exact Nat.le_refl _
  | style id property value =>
    rw [perform]
    split <;> exact Nat.le_refl _
  | act actions caller =>
    rw [perform]
    split
    · exact Nat.le_refl _
    · split <;> exact Nat.le_refl _
  | build b =>
    have hsize := (b.leads_build s.tree).later.size_le
    rw [perform, buildWidget]
    split
    · exact Nat.le_refl _
    · split
      · next hr =>
        rw [hr] at hsize
        exact hsize
      · next hr =>
        rw [hr] at hsize
        exact hsize
  | pin id => exact hplace _ _ (Nat.le_of_eq Tree.size_pin.symm)
  | dismiss id => exact Nat.le_of_eq Tree.size_dismiss.symm
  | append parent child => exact hplace _ _ (Nat.le_of_eq Tree.size_insert.symm)
  | _ => exact Nat.le_refl _

theorem Secluded.placeWidgets (h : s.Secluded) {r : Except SelectionError Unit × Tree} (ids : List WidgetId)
    (hr : Tree.Shields s.Withheld s.tree r.2) :
    (s.placeWidgets r ids).2.Secluded ∧ (s.placeWidgets r ids).2.pending = s.pending := by
  obtain ⟨outcome, tree⟩ := r
  cases outcome with
  | error e => exact ⟨h.withTree hr, rfl⟩
  | ok =>
    refine ⟨h.step hr rfl fun x hx => .inl ?_, rfl⟩
    exact List.mem_of_mem_filter hx

theorem confined_nothing : Confined P (.ok .nothing : Except String Field) :=
  ⟨fun _ _ => trivial, fun _ hf => by cases hf; exact ⟨nofun, nofun⟩⟩

theorem confined_message (message : String) : Confined P (.error message : Except String Field) :=
  ⟨fun _ _ => trivial, nofun⟩

theorem confined_placeWidgets {r : Except SelectionError Unit × Tree} {ids : List WidgetId} :
    Confined P (s.placeWidgets r ids).1 := by
  obtain ⟨outcome, tree⟩ := r
  cases outcome with
  | ok => exact confined_nothing
  | error e => exact confined_message _

theorem Secluded.buildWidget (h : s.Secluded) (b : Widget.Blueprint)
    (hchildren : ∀ c ∈ b.children, ¬ s.Withheld c)
    (hP : ∀ x, (s.buildWidget b).2.Known x → ¬ s.Withheld x → P x) :
    (s.buildWidget b).2.Secluded ∧ (s.buildWidget b).2.pending = s.pending ∧
      Confined P (s.buildWidget b).1 := by
  have hbuilt := h.encloses.build b hchildren
  unfold Session.buildWidget at hP ⊢
  split
  · exact ⟨h, rfl, confined_message _⟩
  · split
    · next hr =>
      rw [hr] at hbuilt
      exact ⟨h.withTree hbuilt, rfl, confined_message _⟩
    · next hhandlers _ id tree hr =>
      rw [hr] at hbuilt
      rw [hhandlers] at hP
      dsimp only at hP
      rw [hr] at hP
      obtain ⟨hnew, hused⟩ := Widget.Blueprint.new_of_build hr
      have hout : ¬ s.Withheld id := fun hid => Tree.not_unused_of_contains (h.live hid) hnew
      refine ⟨h.step hbuilt rfl fun x hx => ?_, rfl, fun _ _ => trivial, fun field hfield => ?_⟩
      · rcases List.mem_append.mp hx with hx | hx
        · exact .inl (List.mem_of_mem_filter hx)
        · exact .inr (List.mem_singleton.mp hx ▸ hout)
      · cases hfield
        refine ⟨fun x hx => ?_, nofun⟩
        cases hx
        exact hP id hused hout

/-- What a session does for a script that names no withheld widget leaves fragments alone, and its answer
names none of theirs. -/
theorem Secluded.perform (h : s.Secluded) (service : Service) (htouched : ∀ x ∈ service.touched, ¬ s.Withheld x)
    (hP : ∀ x, (perform service s).2.Known x → ¬ s.Withheld x → P x) :
    (perform service s).2.Secluded ∧ (perform service s).2.pending = s.pending ∧
      Confined P (perform service s).1 := by
  have hlive : ∀ x, s.tree.contains x = true → ¬ s.Withheld x → P x := fun x hlive hx => by
    refine hP x (fun hunused => ?_) hx
    exact Tree.not_unused_of_contains hlive (hunused.of_size_le (size_le_perform service s))
  cases service with
  | readField id name => exact ⟨h, rfl, h.confined_read (htouched id List.mem_cons_self) hlive⟩
  | writeField id name offer =>
    rw [Session.perform]
    split
    · next hwrite =>
      obtain ⟨f, rfl, hf⟩ := Field.write_eq_modify hwrite
      have hid := htouched id List.mem_cons_self
      exact ⟨h.withTree (h.encloses.modify hid fun w hw => (hf w hw).1), rfl, confined_nothing⟩
    · exact ⟨h, rfl, confined_message _⟩
  | find selector =>
    rw [Session.perform]
    split
    · refine ⟨h, rfl, fun _ _ => trivial, fun _ hf => ?_⟩
      cases hf
      refine ⟨by simp, fun ids hids x hx => ?_⟩
      cases hids
      exact (h.not_withheld_of_findAll hx).elim (hlive x)
    · exact ⟨h, rfl, confined_message _⟩
  | alert message => exact ⟨h.congr rfl rfl rfl, rfl, confined_nothing⟩
  | style id property value =>
    rw [Session.perform]
    split
    · exact ⟨h.congr rfl rfl rfl, rfl, confined_nothing⟩
    · exact ⟨h, rfl, confined_message _⟩
  | schedule callback milliseconds scope => exact ⟨h.congr rfl rfl rfl, rfl, confined_nothing⟩
  | act actions caller =>
    rw [Session.perform]
    split
    · exact ⟨h, rfl, confined_message _⟩
    · split <;> exact ⟨h.congr rfl rfl rfl, rfl, confined_nothing⟩
  | build b => exact h.buildWidget b htouched hP
  | pin id =>
    obtain ⟨hplaced, hpending⟩ := h.placeWidgets [id] (h.encloses.pin (htouched id List.mem_cons_self))
    exact ⟨hplaced, hpending, confined_placeWidgets⟩
  | dismiss id =>
    exact ⟨h.withTree (h.encloses.dismiss (htouched id List.mem_cons_self)), rfl, confined_nothing⟩
  | append parent child =>
    have hchild := htouched child (List.mem_cons_of_mem _ List.mem_cons_self)
    have hinserted := h.encloses.insert (i := (s.tree.children parent).length)
      (htouched parent List.mem_cons_self) hchild
    obtain ⟨hplaced, hpending⟩ := h.placeWidgets [child] hinserted
    exact ⟨hplaced, hpending, confined_placeWidgets⟩

/-- A widget that scripts may come to name as long as the tree has no more than `n` places. -/
def Reach (s : Session σ) (n : Nat) (x : WidgetId) : Prop :=
  x.index < n ∧ ¬ s.Withheld x

theorem discreet_host (s : Session σ) (n : Nat) : Host.Discreet (host (σ := σ)) (s.Reach n)
    (fun t => t.Secluded ∧ t.pending = s.pending) fun t => t.tree.slots.size ≤ n where
  back service t hend := Nat.le_trans (size_le_perform service t) hend
  perform service t := by
    rintro ⟨ht, hpending⟩ hservice hend
    have hiff : ∀ x, t.Withheld x ↔ s.Withheld x := fun x => withheld_of_eq hpending
    obtain ⟨hafter, hkept, hanswer⟩ := ht.perform (P := s.Reach n) service
      (fun x hx => mt (hiff x).mp (hservice x hx).2) fun x hknown hx =>
        ⟨Nat.lt_of_lt_of_le (Nat.lt_of_not_le hknown) hend, mt (hiff x).mpr hx⟩
    exact ⟨⟨hafter, hkept.trans hpending⟩, hanswer⟩

end scripts

end Hypermedia.Session
