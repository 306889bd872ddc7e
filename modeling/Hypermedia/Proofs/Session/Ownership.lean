import Hypermedia.Proofs.Session.Consistent
import Hypermedia.Proofs.Session.Requests
import Hypermedia.Proofs.Tree.Scripted

/-! Who answers for widgets that have no place: a session knows them as loose, as pending or as the root
that a new page puts aside, and no step of it loses one of them. -/
namespace Hypermedia.Session

open Effect (Moves)

variable {σ : Type} {s t u : Session σ} {x : WidgetId}

/-- Adrift in the tree, and not the root that a new page puts aside. -/
structure Adrift (s : Session σ) (x : WidgetId) : Prop where
  tree : s.tree.Adrift x
  not_aside : ∀ o, s.outgoing = some o → o.root ≠ some x

/-- Adrift, and neither loose nor pending. -/
structure Stray (s : Session σ) (x : WidgetId) : Prop where
  adrift : s.Adrift x
  not_loose : x ∉ s.loose
  not_pending : s.pending.lookup x = none

/-- The tree is in order, what the session knows of it has had a place there, and action lists wait only
for a page to be complete. -/
structure Intact (s : Session σ) : Prop where
  tree : s.tree.Sane
  loose : ∀ x ∈ s.loose, ¬ s.tree.Unused x
  pending : ∀ x, s.tree.Unused x → s.pending.lookup x = none
  aside : ∀ o, s.outgoing = some o → ∀ r, o.root = some r → ¬ s.tree.Unused r
  idle : s.outgoing = none → s.deferred = none

/-- No place of `s` is lost in `t`, and no widget of `s` is newly adrift. -/
structure Grows (s t : Session σ) : Prop where
  size_le : s.tree.slots.size ≤ t.tree.slots.size
  adrift : ∀ x, ¬ s.tree.Unused x → t.Adrift x → s.Adrift x

/-- Moreover there is no new stray, and nothing begins to wait for a place. -/
structure Spares (s t : Session σ) : Prop extends Grows s t where
  stray : ∀ x, t.Stray x → s.Stray x
  pending : ∀ x, s.pending.lookup x = none → t.pending.lookup x = none

/-- A step that sets no widget adrift, outside of page changes. -/
def Tends (s t : Session σ) : Prop :=
  s.Intact → (t.Intact ∧ t.outgoing = s.outgoing) ∧ s.Grows t

/-- A step that leaves no new stray, outside of page changes. -/
def Guards (s t : Session σ) : Prop :=
  s.Intact → (t.Intact ∧ t.outgoing = s.outgoing) ∧ s.Spares t

theorem Grows.refl (s : Session σ) : s.Grows s :=
  ⟨Nat.le_refl _, fun _ _ h => h⟩

theorem Grows.trans (h : s.Grows t) (k : t.Grows u) : s.Grows u where
  size_le := Nat.le_trans h.size_le k.size_le
  adrift x hx hu := h.adrift x hx (k.adrift x (fun ht => hx (ht.of_size_le h.size_le)) hu)

theorem Spares.refl (s : Session σ) : s.Spares s :=
  ⟨.refl s, fun _ h => h, fun _ h => h⟩

theorem Spares.trans (h : s.Spares t) (k : t.Spares u) : s.Spares u :=
  ⟨h.toGrows.trans k.toGrows, fun x hx => h.stray x (k.stray x hx), fun x hx =>
    k.pending x (h.pending x hx)⟩

/-- Where nothing is newly adrift and all loose and pending widgets remain so, there is no new stray. -/
theorem Spares.of_adrift (hsize : s.tree.slots.size ≤ t.tree.slots.size)
    (hadrift : ∀ x, t.Adrift x → s.Adrift x) (hloose : ∀ x ∈ s.loose, x ∈ t.loose)
    (hpending : t.pending = s.pending) : s.Spares t where
  size_le := hsize
  adrift x _ := hadrift x
  stray x hx := ⟨hadrift x hx.adrift, fun h => hx.not_loose (hloose x h), hpending ▸ hx.not_pending⟩
  pending _ hx := hpending ▸ hx

theorem Guards.tends (h : s.Guards t) : s.Tends t :=
  fun hs => ⟨(h hs).1, (h hs).2.toGrows⟩

/-- In a later tree that is in order, all that a session knows of has had a place. -/
theorem Intact.later (hs : s.Intact) (htree : t.tree.Sane)
    (hsize : s.tree.slots.size ≤ t.tree.slots.size)
    (hloose : ∀ x ∈ t.loose, x ∈ s.loose ∨ ¬ t.tree.Unused x) (hpending : t.pending = s.pending)
    (haside : ∀ o, t.outgoing = some o → ∀ r, o.root = some r → ¬ s.tree.Unused r)
    (hidle : t.outgoing = none → t.deferred = none) : t.Intact := by
  have hused : ∀ x, ¬ s.tree.Unused x → ¬ t.tree.Unused x := fun x hx h => hx (h.of_size_le hsize)
  refine ⟨htree, fun x hx => ?_, fun x hx => ?_, fun o ho r hr => hused r (haside o ho r hr), hidle⟩
  · exact (hloose x hx).elim (fun h => hused x (hs.loose x h)) id
  · rw [hpending]
    exact hs.pending x (hx.of_size_le hsize)

instance : IsPreorder (Session σ) Tends where
  refl s hs := ⟨⟨hs, rfl⟩, .refl s⟩
  trans s t u h k hs := by
    obtain ⟨⟨ht, hto⟩, hst⟩ := h hs
    obtain ⟨⟨hu, huo⟩, htu⟩ := k ht
    exact ⟨⟨hu, huo.trans hto⟩, hst.trans htu⟩

theorem Guards.trans (h : s.Guards t) (k : t.Guards u) : s.Guards u := by
  intro hs
  obtain ⟨⟨ht, hto⟩, hst⟩ := h hs
  obtain ⟨⟨hu, huo⟩, htu⟩ := k ht
  exact ⟨⟨hu, huo.trans hto⟩, hst.trans htu⟩

instance : IsPreorder (Session σ) Guards where
  refl s hs := ⟨⟨hs, rfl⟩, .refl s⟩
  trans _ _ _ := Guards.trans

/-- A step that leaves alone what the session knows of its widgets. -/
theorem guards_of_eq (htree : t.tree = s.tree) (hloose : t.loose = s.loose)
    (hpending : t.pending = s.pending) (houtgoing : t.outgoing = s.outgoing)
    (hidle : s.deferred = none → t.deferred = none) : s.Guards t := by
  have hadrift : ∀ x, t.Adrift x → s.Adrift x := fun x hx =>
    ⟨htree ▸ hx.tree, houtgoing ▸ hx.not_aside⟩
  have hsize : s.tree.slots.size ≤ t.tree.slots.size := by rw [htree]
  intro hs
  have hintact : t.Intact := by
    refine hs.later (htree ▸ hs.tree) hsize (fun x hx => .inl (hloose ▸ hx)) hpending ?_ fun ho => ?_
    · rw [houtgoing]
      exact hs.aside
    · exact hidle (hs.idle (houtgoing.symm.trans ho))
  exact ⟨⟨hintact, houtgoing⟩, .of_adrift hsize hadrift (fun x hx => hloose ▸ hx) hpending⟩

section steps

variable {tree : Tree} {loose : List WidgetId}

/-- A step of the tree after which what is adrift was so before and has not ceased to be loose, or is
new and loose. -/
theorem guards_place (hleads : s.tree.Sane → Tree.Leads s.tree tree)
    (hroot : ∀ r, tree.root = some r → s.tree.root = some r ∨ ¬ s.tree.Unused r)
    (hloose : ∀ x ∈ loose, x ∈ s.loose ∨ ¬ tree.Unused x)
    (hadrift : s.tree.Sane → ∀ x, tree.Adrift x → s.tree.Adrift x ∧ (x ∈ s.loose → x ∈ loose) ∨
      s.tree.Unused x ∧ x ∈ loose) :
    s.Guards { s with tree, loose } := by
  intro hs
  have hsize := (hleads hs.tree).later.size_le
  have hintact : Intact { s with tree, loose } :=
    hs.later (hs.tree.leads (hleads hs.tree) hroot) hsize hloose rfl hs.aside hs.idle
  refine ⟨⟨hintact, rfl⟩, ⟨hsize, fun x hx h => ?_⟩, fun x hx => ?_, fun _ h => h⟩
  · rcases hadrift hs.tree x h.tree with ⟨hold, -⟩ | ⟨hnew, -⟩
    · exact ⟨hold, h.not_aside⟩
    · exact absurd hnew hx
  · rcases hadrift hs.tree x hx.adrift.tree with ⟨hold, hkept⟩ | ⟨-, hmem⟩
    · exact ⟨⟨hold, hx.adrift.not_aside⟩, fun h => hx.not_loose (hkept h), hx.not_pending⟩
    · exact absurd hmem hx.not_loose

/-- A step of the tree that sets nothing adrift. -/
theorem guards_tree (hleads : s.tree.Sane → Tree.Leads s.tree tree)
    (hroot : ∀ r, tree.root = some r → s.tree.root = some r ∨ ¬ s.tree.Unused r)
    (hadrift : s.tree.Sane → ∀ x, tree.Adrift x → s.tree.Adrift x) : s.Guards { s with tree } :=
  guards_place hleads hroot (fun _ h => .inl h) fun hs x hx => .inl ⟨hadrift hs x hx, fun h => h⟩

theorem guards_modify {id : WidgetId} {f : Widget → Widget}
    (hf : ∀ w, s.tree.get? id = some w → (f w).SameLinks w) :
    s.Guards { s with tree := s.tree.modify id f } := by
  have hsize : s.tree.slots.size ≤ (s.tree.modify id f).slots.size := Nat.le_of_eq Tree.size_modify.symm
  have hadrift : ∀ x, { s with tree := s.tree.modify id f }.Adrift x → s.Adrift x := fun x hx =>
    ⟨(Tree.adrift_modify_iff hf).mp hx.tree, hx.not_aside⟩
  intro hs
  have hintact : Intact { s with tree := s.tree.modify id f } :=
    hs.later (hs.tree.modify hf) hsize (fun _ h => .inl h) rfl hs.aside hs.idle
  exact ⟨⟨hintact, rfl⟩, .of_adrift hsize hadrift (fun _ h => h) rfl⟩

/-- A step of the tree that gives some widgets a place, unless it fails. -/
theorem guards_placeWidgets {r : Except SelectionError Unit × Tree} {ids : List WidgetId}
    (hleads : s.tree.Sane → Tree.Leads s.tree r.2) (hroot : r.2.root = s.tree.root)
    (hadrift : s.tree.Sane → ∀ x, r.2.Adrift x → s.tree.Adrift x ∧ (r.1 = .ok () → x ∉ ids)) :
    s.Guards (s.placeWidgets r ids).2 := by
  obtain ⟨outcome, tree⟩ := r
  cases outcome with
  | error e =>
    exact guards_tree hleads (fun r hr => .inl (hroot.symm.trans hr)) fun hs x hx => (hadrift hs x hx).1
  | ok =>
    have hplaced : s.Guards { s with tree, loose := s.loose.filter fun id => !ids.contains id } := by
      refine guards_place hleads (fun r hr => .inl (hroot.symm.trans hr))
        (fun x hx => .inl (List.mem_of_mem_filter hx)) fun hs x hx => ?_
      obtain ⟨hold, htaken⟩ := hadrift hs x hx
      exact .inl ⟨hold, fun h => List.mem_filter.mpr ⟨h, by simpa using htaken rfl⟩⟩
    exact hplaced

theorem guards_buildWidget (b : Widget.Blueprint) : s.Guards (s.buildWidget b).2 := by
  have hleads := b.leads_build s.tree
  have hroot := fun r => @Widget.Blueprint.root_of_root_build b s.tree r
  have hadrift := fun x (hs : s.tree.Forest) => @Widget.Blueprint.adrift_of_build b s.tree x hs
  unfold buildWidget
  split
  · exact Std.Refl.refl s
  · split
    · next e tree hr =>
      rw [hr] at hleads hroot hadrift
      refine guards_tree (fun _ => hleads) (fun r hr => .inl (hroot r hr)) fun hs x hx => ?_
      exact ((hadrift x hs.forest hx).resolve_right nofun).1
    · next id tree hr =>
      rw [hr] at hleads hroot hadrift
      let loose := (s.loose.filter fun id => !b.children.contains id) ++ [id]
      suffices hbuilt : s.Guards { s with tree, loose } from hbuilt
      refine guards_place (fun _ => hleads) (fun r hr => .inl (hroot r hr)) (fun x hx => ?_) fun hs x hx => ?_
      · rcases List.mem_append.mp hx with hx | hx
        · exact .inl (List.mem_of_mem_filter hx)
        · exact .inr (List.mem_singleton.mp hx ▸ (Widget.Blueprint.new_of_build hr).2)
      · rcases hadrift x hs.forest hx with ⟨hold, htaken⟩ | ⟨hnew, hid⟩
        · refine .inl ⟨hold, fun h => List.mem_append_left _ (List.mem_filter.mpr ⟨h, ?_⟩)⟩
          simpa using htaken id rfl
        · cases hid
          exact .inr ⟨hnew, List.mem_append_right _ (List.mem_singleton.mpr rfl)⟩

theorem guards_perform (service : Script.Service) : s.Guards (perform service s).2 := by
  cases service with
  | readField id name => exact Std.Refl.refl s
  | writeField id name offer =>
    rw [perform]
    split
    · next htree =>
      obtain ⟨f, rfl, hf⟩ := Script.Field.write_eq_modify htree
      exact guards_modify fun w hw => (hf w hw).1
    · exact Std.Refl.refl s
  | find selector =>
    rw [perform]
    split <;> exact Std.Refl.refl s
  | alert message => exact guards_of_eq rfl rfl rfl rfl id
  | style id property value =>
    rw [perform]
    split
    · exact guards_of_eq rfl rfl rfl rfl fun h => h
    · exact Std.Refl.refl s
  | schedule callback milliseconds scope => exact guards_of_eq rfl rfl rfl rfl id
  | act actions caller =>
    rw [perform]
    split
    · exact Std.Refl.refl s
    · split
      · next lists hlists =>
        refine guards_of_eq rfl rfl rfl rfl fun hnone => ?_
        cases hlists.symm.trans hnone
      · exact guards_of_eq rfl rfl rfl rfl id
  | build b => exact guards_buildWidget b
  | pin id =>
    refine guards_placeWidgets (fun hs => hs.forest.leads_pin id) Tree.root_pin fun hs x hx => ?_
    obtain ⟨hold, htaken⟩ := hs.forest.adrift_of_pin hx
    exact ⟨hold, fun hok hmem => htaken hok (List.mem_singleton.mp hmem)⟩
  | dismiss id =>
    exact guards_tree (fun _ => Tree.leads_dismiss s.tree id)
      (fun _ hr => .inl (Tree.root_of_root_dismiss hr)) fun hs x hx => hs.forest.adrift_of_dismiss hx
  | append parent child =>
    refine guards_placeWidgets (fun _ => Tree.leads_append s.tree parent child) Tree.root_insert
      fun hs x hx => ?_
    obtain ⟨hold, htaken⟩ := hs.forest.adrift_of_insert hx
    exact ⟨hold, fun hok hmem => htaken (hs.forest.insert_ok_iff.mp hok) (List.mem_singleton.mp hmem)⟩

theorem guards_carries : Binds (Guards (σ := σ)) (fun _ => True) (fun _ => True) where
  perform service _ _ := guards_perform service
  world _ _ _ := guards_of_eq rfl rfl rfl rfl id
  rules _ _ := guards_of_eq rfl rfl rfl rfl id
  bind _ _ _ _ _ _ := guards_modify fun _ _ => ⟨rfl, rfl, rfl⟩
  scope _ _ _ _ := guards_modify fun _ _ => ⟨rfl, rfl, rfl⟩

/-- Widgets that are removed need no longer be pending. -/
theorem guards_removeAll {ids : List WidgetId} {pending : List (WidgetId × List WidgetId)}
    (hless : ∀ x, s.pending.lookup x = none → pending.lookup x = none)
    (hpending : ∀ x, pending.lookup x = none → x ∉ ids → s.pending.lookup x = none) :
    s.Guards { s with tree := s.tree.removeAll ids, pending } := by
  intro hs
  have hremoved : s.Guards { s with tree := s.tree.removeAll ids } :=
    guards_tree (fun _ => Tree.leads_removeAll s.tree ids)
      (fun _ hr => .inl (Tree.root_of_root_removeAll hr)) fun hs x => hs.forest.adrift_of_removeAll
  obtain ⟨⟨hintact, -⟩, hspares⟩ := hremoved hs
  refine ⟨⟨{ hintact with pending := fun x hx => ?_ }, rfl⟩, ?_, fun x hx => ?_, hless⟩
  · exact hless x (hintact.pending x hx)
  · exact ⟨hspares.size_le, fun x hold hx => hspares.adrift x hold ⟨hx.tree, hx.not_aside⟩⟩
  · -- it is still live, so it is none of those removed
    have hout : x ∉ ids := fun hid => by
      cases (Tree.not_contains_removeAll hs.tree.forest hid .refl).symm.trans hx.adrift.tree.live
    have hold := hs.tree.forest.adrift_of_removeAll hx.adrift.tree
    exact ⟨⟨hold, hx.adrift.not_aside⟩, hx.not_loose, hpending x hx.not_pending hout⟩

theorem guards_cancelInFlight : s.Guards s.cancelInFlight := by
  have hremoved : s.Guards { s with tree := s.tree.removeAll (s.pending.map (·.1)), pending := [] } := by
    refine guards_removeAll (fun _ _ => rfl) fun x _ hout => List.lookup_eq_none_iff.mpr fun p hp => ?_
    exact bne_iff_ne.mpr fun hx => hout (List.mem_map.mpr ⟨p, hp, hx.symm⟩)
  exact hremoved.trans (guards_of_eq rfl rfl rfl rfl id)

theorem guards_report (e : Error) : s.Guards (s.report e) :=
  along_report (fun _ _ => guards_of_eq rfl rfl rfl rfl id) (fun _ => guards_cancelInFlight)
    (fun _ => guards_of_eq rfl rfl rfl rfl id) s e

theorem lookup_filter_ne {β : Type} {root : WidgetId} (hx : x ≠ root) (l : List (WidgetId × β)) :
    (l.filter (·.1 != root)).lookup x = l.lookup x := by
  induction l with
  | nil => rfl
  | cons p l ih =>
    by_cases hp : p.1 = root
    · have hxp : (x == p.1) = false := by simpa [hp] using hx
      rw [List.filter_cons_of_neg (by simpa using hp), List.lookup_cons, hxp, ih]
    · rw [List.filter_cons_of_pos (by simpa using hp), List.lookup_cons, List.lookup_cons, ih]

theorem guards_dropPending (root : WidgetId) :
    s.Guards { (s.takePending root).2 with tree := s.tree.remove root } := by
  have hdropped : s.Guards { (s.takePending root).2 with tree := s.tree.removeAll [root] } := by
    refine guards_removeAll (fun x hx => List.filter_sublist.lookup_eq_none hx) fun x hx hout => ?_
    exact (lookup_filter_ne (fun he => hout (List.mem_singleton.mpr he)) s.pending).symm.trans hx
  exact hdropped

theorem guards_releaseFragments (roots : List WidgetId) : s.Guards (s.releaseFragments roots) :=
  along_releaseFragments (fun _ root _ => guards_dropPending root) s roots

theorem guards_startActions (actions : List Action.Instruction) (caller : WidgetId) :
    s.Guards (s.startActions actions caller) :=
  guards_of_eq rfl rfl rfl rfl id

theorem guards_startAll (lists : List (List Action.Instruction × WidgetId)) :
    s.Guards (lists.foldl (fun s list => s.startActions list.1 list.2) s) :=
  Effect.along_foldl (fun _ list => guards_startActions list.1 list.2) s lists

end steps

end Hypermedia.Session
