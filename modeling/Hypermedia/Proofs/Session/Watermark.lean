import Hypermedia.Proofs.Session.Rollback
import Hypermedia.Proofs.Session.Scripting
import Hypermedia.Proofs.Session.Surroundings

/-! The number of loose widgets of the old page, noted while the new one is staged, tells the widgets of
both apart as long as the new page places none of the old ones. -/
namespace Hypermedia

/-- The widgets that a request gives a place. -/
def Script.Service.places : Script.Service → List WidgetId
  | .build b => b.children
  | .pin id | .append _ id => [id]
  | _ => []

namespace Session

open Script (Service)

variable {σ : Type} {s t u : Session σ} {K : WidgetId → Prop} {n : Node} {page : Markup.Page}

section requests

/-- Loose widgets may find a place, apart from those in `K`; others are new, and come last. -/
structure Shifts (K : WidgetId → Prop) (s t : Session σ) : Prop where
  size_le : s.tree.slots.size ≤ t.tree.slots.size
  loose : ∃ (kept : WidgetId → Bool) (added : List WidgetId),
    t.loose = s.loose.filter kept ++ added ∧ (∀ x, K x → kept x = true) ∧ ∀ x ∈ added, s.tree.Unused x

theorem Shifts.of_eq (hsize : s.tree.slots.size ≤ t.tree.slots.size) (h : t.loose = s.loose) :
    s.Shifts K t :=
  ⟨hsize, fun _ => true, [], by simp [h], fun _ _ => rfl, nofun⟩

theorem Shifts.trans (h : s.Shifts K t) (k : t.Shifts K u) : s.Shifts K u := by
  obtain ⟨kept, added, hloose, hkept, hnew⟩ := h.loose
  obtain ⟨still, more, hmore, hstill, hnewer⟩ := k.loose
  refine ⟨Nat.le_trans h.size_le k.size_le, fun x => still x && kept x, added.filter still ++ more,
    ?_, fun x hx => ?_, ?_⟩
  · rw [hmore, hloose, List.filter_append, List.filter_filter, List.append_assoc]
  · simp [hkept x hx, hstill x hx]
  · refine List.forall_mem_append.mpr ⟨fun x hx => hnew x (List.mem_of_mem_filter hx), fun x hx => ?_⟩
    exact (hnewer x hx).of_size_le h.size_le

instance (K : WidgetId → Prop) : IsPreorder (Session σ) (Shifts K) where
  refl _ := .of_eq (Nat.le_refl _) rfl
  trans _ _ _ := Shifts.trans

/-- Widgets that find a place are no longer loose. -/
theorem shifts_settled {ids : List WidgetId} (hids : ∀ x ∈ ids, ¬ K x) : s.Shifts K (s.settled ids) := by
  refine ⟨Nat.le_refl _, fun x => !ids.contains x, [], (List.append_nil _).symm, fun x hx => ?_, nofun⟩
  have hout : x ∉ ids := fun hmem => hids x hmem hx
  simpa using hout

theorem shifts_placeWidgets {r : Except SelectionError Unit × Tree} {ids : List WidgetId}
    (hsize : s.tree.slots.size ≤ r.2.slots.size) (hids : ∀ x ∈ ids, ¬ K x) :
    s.Shifts K (s.placeWidgets r ids).2 := by
  have hedit : s.Shifts K { s with tree := r.2 } := .of_eq hsize rfl
  obtain ⟨outcome, tree⟩ := r
  cases outcome with
  | ok => exact hedit.trans (shifts_settled hids)
  | error e => exact hedit

theorem shifts_buildWidget {b : Widget.Blueprint} (hchildren : ∀ x ∈ b.children, ¬ K x) :
    s.Shifts K (s.buildWidget b).2 := by
  have hsize := (b.leads_build s.tree).later.size_le
  unfold buildWidget
  split
  · exact .of_eq (Nat.le_refl _) rfl
  · split
    · next hr =>
      rw [hr] at hsize
      exact .of_eq hsize rfl
    · next id tree hr =>
      rw [hr] at hsize
      have hnew : s.tree.Unused id := (Widget.Blueprint.new_of_build hr).1
      have hsettled := shifts_settled (s := { s with tree }) hchildren
      obtain ⟨kept, added, hloose, hkept, hadded⟩ := hsettled.loose
      refine ⟨hsize, kept, added ++ [id], ?_, hkept, ?_⟩
      · dsimp only
        rw [hloose, List.append_assoc]
      · refine List.forall_mem_append.mpr ⟨fun x hx => ?_, List.forall_mem_singleton.mpr hnew⟩
        exact (hadded x hx).of_size_le hsize

theorem shifts_perform {service : Service} (h : ∀ x ∈ service.places, ¬ K x) :
    s.Shifts K (perform service s).2 := by
  have hsame : ∀ t : Session σ, t.tree = s.tree → t.loose = s.loose → s.Shifts K t := fun t htree hloose =>
    .of_eq (by rw [htree]) hloose
  cases service with
  | readField id name => exact hsame _ rfl rfl
  | writeField id name offer =>
    rw [perform]
    split
    · next htree =>
      obtain ⟨f, rfl, -⟩ := Script.Field.write_eq_modify htree
      exact .of_eq (Nat.le_of_eq Tree.size_modify.symm) rfl
    · exact hsame _ rfl rfl
  | find selector =>
    rw [perform]
    split <;> exact hsame _ rfl rfl
  | alert message => exact hsame _ rfl rfl
  | style id property value =>
    rw [perform]
    split <;> exact hsame _ rfl rfl
  | schedule callback milliseconds scope => exact hsame _ rfl rfl
  | act actions caller =>
    rw [perform]
    split
    · exact hsame _ rfl rfl
    · split <;> exact hsame _ rfl rfl
  | build b => exact shifts_buildWidget h
  | pin id => exact shifts_placeWidgets (Nat.le_of_eq Tree.size_pin.symm) h
  | dismiss id => exact .of_eq (Tree.leads_dismiss s.tree id).later.size_le rfl
  | append parent child =>
    exact shifts_placeWidgets (Tree.leads_append s.tree parent child).later.size_le h

theorem shifts_carries (K : WidgetId → Prop) :
    Binds (Shifts (σ := σ) K) (fun service => ∀ x ∈ service.places, ¬ K x) (fun _ => True) where
  perform _ _ h := shifts_perform h
  world _ _ _ := .of_eq (Nat.le_refl _) rfl
  rules _ _ := .of_eq (Nat.le_refl _) rfl
  bind _ _ _ _ _ _ := .of_eq (Nat.le_of_eq Tree.size_modify.symm) rfl
  scope _ _ _ _ := .of_eq (Nat.le_of_eq Tree.size_modify.symm) rfl

theorem shifts_runPage (h : ∀ service ∈ pageRequests page s, ∀ x ∈ service.places, ¬ K x) :
    s.Shifts K (runPage page s).2 :=
  (shifts_carries K).runPage (fun _ _ _ _ => trivial) s h

end requests

section marks

/-- A mark tells loose widgets of `u` apart: before it are those of `s` that are still loose, and after it
those that are new. -/
structure Divides (s u : Session σ) (mark : Nat) : Prop where
  le : mark ≤ u.loose.length
  old : u.loose.take mark = s.loose.filter (· ∈ u.loose)
  new : ∀ x ∈ u.loose.drop mark, s.tree.Unused x

/-- The loose widgets that are left come before the new ones, and are told apart from them by their ids. -/
theorem Shifts.loose_eq (h : s.Shifts K u) (hs : s.Intact) : ∃ added,
    u.loose = s.loose.filter (· ∈ u.loose) ++ added ∧ ∀ x ∈ added, s.tree.Unused x := by
  obtain ⟨kept, added, hloose, -, hnew⟩ := h.loose
  refine ⟨added, ?_, hnew⟩
  have hkept : s.loose.filter kept = s.loose.filter (· ∈ u.loose) := by
    refine List.filter_congr fun x hx => ?_
    have hout : x ∉ added := fun hadded => hs.loose x hx (hnew x hadded)
    simp [hloose, hout, hx]
  rw [← hkept]
  exact hloose

/-- The number of widgets that were loose is a mark exactly as long as none of them has found a place. -/
theorem Shifts.divides_iff (h : s.Shifts K u) (hs : s.Intact) :
    s.Divides u s.loose.length ↔ ∀ x ∈ s.loose, x ∈ u.loose := by
  constructor
  · intro hdivides
    have hlength : (s.loose.filter (· ∈ u.loose)).length = s.loose.length := by
      rw [← hdivides.old, List.length_take, Nat.min_eq_left hdivides.le]
    simpa using List.length_filter_eq_length_iff.mp hlength
  · intro hall
    obtain ⟨added, hloose, hnew⟩ := h.loose_eq hs
    have hself : s.loose.filter (· ∈ u.loose) = s.loose :=
      List.filter_eq_self.mpr fun x hx => by simpa using hall x hx
    have hsplit : u.loose = s.loose ++ added := by rw [← hself]; exact hloose
    refine ⟨by simp [hsplit], ?_, ?_⟩
    · rw [hself, hsplit, List.take_left]
    · rw [hsplit, List.drop_left]
      exact hnew

theorem Shifts.mem_of_mem {x : WidgetId} (h : s.Shifts (· = x) u) (hx : x ∈ s.loose) : x ∈ u.loose := by
  obtain ⟨kept, added, hloose, hkept, -⟩ := h.loose
  rw [hloose]
  exact List.mem_append_left _ (List.mem_filter.mpr ⟨hx, hkept x rfl⟩)

end marks

section pages

/-- Compiling a page and staging it leaves loose widgets alone. -/
theorem shifts_stage {ws : Markup.Workspace} (hs : s.Steady) (hpage : page.New s.tree ws.tree) :
    s.Shifts K ({ s with registry := ws.registry, tree := ws.tree }.stage
      (page.content.map Markup.Fragment.root)) :=
  .of_eq (spares_stage hs.intact hs.outgoing hpage).2.size_le rfl

theorem outgoing_runPage {ws : Markup.Workspace} (hs : s.Steady) (hpage : page.New s.tree ws.tree) :
    let t := { s with registry := ws.registry, tree := ws.tree }
    (runPage page (t.stage (page.content.map Markup.Fragment.root))).2.outgoing = some t.aside := by
  intro t
  obtain ⟨hstaged, -⟩ := spares_stage hs.intact hs.outgoing hpage
  exact (guards_runPage page _ hstaged).1.2

end pages

variable (transport : Transport σ)

/-- At all times of a session, wherever its history stands, for every page and whatever its scripts ask
for: what is put aside has a mark, with which the page is shown or dropped. When that comes, the mark tells
the loose widgets of the old page apart from those of the new one exactly if all that were loose before
still are, and one that is not has been given a place by a script of the new page. -/
theorem watermark_divides_iff (config : Config) (network : σ) (first : Session σ)
    (hstart : start config network = .ok first) (turns : List (Turn σ)) (history : History) :
    let s := { first.afterAll transport turns with history }
    ∀ n page t, compiled (Markup.compilePage n) s = (.ok page, t) →
      let staged := t.stage (page.content.map Markup.Fragment.root)
      let u := (runPage page staged).2
      ∃ o, u.outgoing = some o ∧
        (∀ url, (install url n s).2 = u.commit o url page ∨ (install url n s).2 = u.rollback o) ∧
        (s.Divides u o.loose ↔ ∀ x ∈ s.loose, x ∈ u.loose) ∧
        ∀ x ∈ s.loose, x ∉ u.loose → ∃ service ∈ pageRequests page staged, x ∈ service.places := by
  intro s n page t hcompiled staged u
  have hsound : (first.afterAll transport turns).Sound := sound_afterAll transport (sound_start hstart) turns
  have hmoved : (first.afterAll transport turns).Secures s :=
    Guards.secures (guards_of_eq rfl rfl rfl rfl id)
  obtain ⟨hs, -⟩ := hmoved hsound.toSteady
  have hmeets := meets_compiled (Markup.meets_compilePage hs.intact.tree n) s rfl
  rw [hcompiled] at hmeets
  obtain ⟨ws, rfl, hpage⟩ := hmeets
  refine ⟨aside { s with registry := ws.registry, tree := ws.tree }, outgoing_runPage hs hpage,
    fun url => ?_, ?_, fun x hx hplaced => ?_⟩
  · rw [install_eq, hcompiled]
    dsimp only
    cases hr : runPage page staged with
    | mk result v =>
      have hu : u = v := congrArg Prod.snd hr
      rw [hu]
      cases result with
      | ok => exact .inl rfl
      | error e => exact .inr rfl
  · have hstaged : s.Shifts (fun _ => False) staged := shifts_stage hs hpage
    exact (hstaged.trans (shifts_runPage fun _ _ _ _ => not_false)).divides_iff hs.intact
  · by_contra hnone
    push Not at hnone
    have hstaged : s.Shifts (· = x) staged := shifts_stage hs hpage
    have hran : staged.Shifts (· = x) u := shifts_runPage fun service hservice y hy => by
      rintro rfl
      exact hnone service hservice hy
    exact hplaced ((hstaged.trans hran).mem_of_mem hx)

section examples

/-- A page that builds a widget without a place and leaves it to the pages that come after it. -/
def keeping : String :=
  "<celx><page><script>rawset(math, 'kept', w.Text\x7b'kept'\x7d)</script></page></celx>"

def adopting : Node :=
  scripted "row = w.Row\x7bmath.kept\x7d"

def showing : Node :=
  scripted "alert('x') find('Dialogue'):append(math.kept)"

def building : Node :=
  scripted "row = w.Row\x7b\x7d"

/-- The session when the page of a document has run and is not yet shown. -/
def ran (n : Node) (s : Session σ) : Session σ :=
  match compiled (Markup.compilePage n) s with
  | (.ok page, t) => (runPage page (t.stage (page.content.map Markup.Fragment.root))).2
  | (.error _, t) => t

theorem exists_compiled {n : Node} {s : Session σ}
    (h : (compiled (Markup.compilePage n) s).1.isOk = true) :
    ∃ page t, compiled (Markup.compilePage n) s = (.ok page, t) ∧
      (runPage page (t.stage (page.content.map Markup.Fragment.root))).2 = ran n s := by
  unfold ran
  cases hc : compiled (Markup.compilePage n) s with
  | mk result t =>
    rw [hc] at h
    cases result with
    | ok page => exact ⟨page, t, rfl, rfl⟩
    | error e => cases h

/-- A page that builds a widget of its own keeps the loose one of the page before apart from it. -/
theorem building_divides : ∃ first, start {} () = .ok first ∧
    let s := first.afterAll (serving keeping) [.route "/p" false]
    ∃ page t, compiled (Markup.compilePage building) s = (.ok page, t) ∧
      let staged := t.stage (page.content.map Markup.Fragment.root)
      let u := (runPage page staged).2
      s.loose = [⟨0⟩] ∧ u.loose = [⟨0⟩, ⟨1⟩] ∧
        ∃ o, u.outgoing = some o ∧
          (∀ url, (install url building s).2 = u.commit o url page ∨
            (install url building s).2 = u.rollback o) ∧
          s.Divides u o.loose ∧
          ∀ x ∈ s.loose, x ∉ u.loose → ∃ service ∈ pageRequests page staged, x ∈ service.places := by
  obtain ⟨first, hstart, hcompiles, hbefore, hran⟩ := exists_start (p := fun first =>
    let s := first.afterAll (serving keeping) [.route "/p" false]
    (compiled (Markup.compilePage building) s).1.isOk = true ∧ s.loose = [⟨0⟩] ∧
      (ran building s).loose = [⟨0⟩, ⟨1⟩]) (by decide +kernel)
  obtain ⟨page, t, hcompiled, hu⟩ := exists_compiled hcompiles
  have hmain := watermark_divides_iff (serving keeping) {} () first hstart [.route "/p" false]
    (first.afterAll (serving keeping) [.route "/p" false]).history building page t hcompiled
  refine ⟨first, hstart, page, t, hcompiled, hbefore, ?_⟩
  generalize first.afterAll (serving keeping) [.route "/p" false] = s at hmain hbefore hran hu ⊢
  rw [← hu] at hran
  obtain ⟨o, ho, hinstall, hdivides, hplaced⟩ := hmain
  refine ⟨hran, o, ho, hinstall, hdivides.mpr ?_, hplaced⟩
  intro x hx
  obtain rfl : x = ⟨0⟩ := List.mem_singleton.mp (hbefore ▸ hx)
  rw [hran]
  exact List.mem_cons_self

/-- A page that puts the loose widget of the page before into a row of its own loses the row, as if that
were of the page before; where a page shows that widget in a dialogue, the mark is beyond the end. -/
theorem placing_breaks_watermark : ∃ first, start {} () = .ok first ∧
    let s := first.afterAll (serving keeping) [.route "/p" false]
    s.loose = [⟨0⟩] ∧
      (ran adopting s).outgoing.map (·.loose) = some 1 ∧ (ran adopting s).loose = [⟨1⟩] ∧
      ¬ s.Divides (ran adopting s) 1 ∧
      (ran adopting s).tree.contains ⟨1⟩ = true ∧ (install s.url adopting s).1.isOk = true ∧
      (install s.url adopting s).2.tree.contains ⟨1⟩ = false ∧
      (ran showing s).outgoing.map (·.loose) = some 1 ∧ (ran showing s).loose = [] ∧
      ¬ s.Divides (ran showing s) 1 := by
  obtain ⟨first, hstart, hbefore, hmark, hloose, hnone, hlive, hok, hgone, hmark', hempty⟩ :=
    exists_start (p := fun first =>
      let s := first.afterAll (serving keeping) [.route "/p" false]
      s.loose = [⟨0⟩] ∧
        (ran adopting s).outgoing.map (·.loose) = some 1 ∧ (ran adopting s).loose = [⟨1⟩] ∧
        ¬ s.loose.filter (· ∈ (ran adopting s).loose) = (ran adopting s).loose ∧
        (ran adopting s).tree.contains ⟨1⟩ = true ∧ (install s.url adopting s).1.isOk = true ∧
        (install s.url adopting s).2.tree.contains ⟨1⟩ = false ∧
        (ran showing s).outgoing.map (·.loose) = some 1 ∧ (ran showing s).loose = [])
      (by decide +kernel)
  refine ⟨first, hstart, hbefore, hmark, hloose, fun h => ?_, hlive, hok, hgone, hmark', hempty, fun h => ?_⟩
  · have hold := h.old
    rw [hloose] at hnone hold
    exact hnone hold.symm
  · have hle := h.le
    rw [hempty] at hle
    cases hle

end examples

end Session

end Hypermedia
