import Hypermedia.Action.Plan

/-! Where action lists aim: what they place is known to the tree, and they place it at a widget that had
a place when they asked for it. -/
namespace Hypermedia.Action

variable {known placed known' placed' : WidgetId → Prop}

/-- What an answer promises, given the widgets that are known and those that have a place. -/
def Ask.Allows (known placed : WidgetId → Prop) : (q : Ask) → q.Answer → Prop
  | .loadFragment _, root => known root
  | .select _ none, ids => ∀ id ∈ ids, placed id
  | .select _ (some _), ids => ∀ id ∈ ids, known id
  | .requestBody _ _, _ | .isContainer _, _ | .query _, _ | .edit _ _ _, _ => True

/-- What a question relies on. -/
def Ask.Relies (known placed : WidgetId → Prop) : Ask → Prop
  | .edit result target _ => known result ∧ placed target
  | .requestBody _ _ | .loadFragment _ | .select _ _ | .isContainer _ | .query _ => True

/-- A plan whose result is known and that asks for what it may rely on. Until an answer comes, more
widgets may have become known or found a place. -/
def Plan.Aims : (known placed : WidgetId → Prop) → Plan (Option WidgetId) → Prop
  | known, _, .done result => ∀ id, result = some id → known id
  | _, _, .fail _ => True
  | known, placed, .fetch _ k => ∀ response, (k response).Aims known placed
  | known, placed, .ask q k => q.Relies known placed ∧
      ∀ known' placed', (∀ x, known x → known' x) → (∀ x, placed x → placed' x) →
        ∀ answer, q.Allows known' placed' answer → (k answer).Aims known' placed'

section mono

variable (hknown : ∀ x, known x → known' x) (hplaced : ∀ x, placed x → placed' x)

include hknown hplaced

theorem Ask.Relies.mono {q : Ask} (h : q.Relies known placed) : q.Relies known' placed' := by
  cases q with
  | edit result target edit => exact ⟨hknown _ h.1, hplaced _ h.2⟩
  | _ => trivial

theorem Plan.Aims.mono {p : Plan (Option WidgetId)} (h : p.Aims known placed) :
    p.Aims known' placed' := by
  induction p with
  | done result => exact fun id hid => hknown id (h id hid)
  | fail e => trivial
  | fetch c k ih => exact fun response => ih response (h response)
  | ask q k ih =>
    refine ⟨h.1.mono hknown hplaced, fun known'' placed'' hk hp answer hanswer => ?_⟩
    exact h.2 known'' placed'' (fun x hx => hk x (hknown x hx)) (fun x hx => hp x (hplaced x hx))
      answer hanswer

end mono

theorem Plan.aims_resume {β : Type} {k : β → Plan (Option WidgetId)} {r : Except Error β}
    (h : ∀ answer, r = .ok answer → (k answer).Aims known placed) :
    (Plan.resume k r).Aims known placed := by
  cases r with
  | ok answer => exact h answer rfl
  | error e => trivial

namespace Instruction

variable (i : Instruction)

theorem aims_remoteCall (caller : WidgetId) : (i.remoteCall caller).Aims known placed := by
  refine ⟨trivial, fun known placed _ _ body _ response => ?_⟩
  dsimp only [Bind.bind, Plan.bind]
  split
  · exact ⟨trivial, fun known placed _ _ root hroot id hid => Option.some.inj hid ▸ hroot⟩
  · trivial

theorem aims_narrow {result : Option WidgetId} : (i.narrow result).Aims known placed := by
  cases result with
  | none => trivial
  | some result =>
    refine ⟨trivial, fun known placed _ _ ids hids => ?_⟩
    cases ids with
    | nil => trivial
    | cons first rest => exact fun id hid => Option.some.inj hid ▸ hids first List.mem_cons_self

theorem aims_treeEdit {result : Option WidgetId} (hresult : ∀ id, result = some id → known id) :
    (i.treeEdit result).Aims known placed := by
  cases result with
  | none => trivial
  | some result =>
    refine ⟨trivial, fun known placed hknown _ targets htargets => ?_⟩
    cases targets with
    | nil => trivial
    | cons target rest =>
      have htarget := htargets target List.mem_cons_self
      have hknown : known result := hknown result (hresult result rfl)
      dsimp only [Bind.bind, Plan.bind]
      cases i.edit with
      | error e => trivial
      | ok edit =>
        change Plan.Aims known placed ((requireContainer target edit).bind fun _ =>
          (Plan.put (.edit result target edit)).bind fun _ => .done (some result))
        unfold requireContainer
        split
        · refine ⟨trivial, fun known' placed' hk hp isContainer _ => ?_⟩
          cases isContainer with
          | false => exact ⟨trivial, fun _ _ _ _ _ _ => trivial⟩
          | true =>
            refine ⟨⟨hk _ hknown, hp _ htarget⟩, fun known'' placed'' hk' _ _ _ => ?_⟩
            exact fun id hid => Option.some.inj hid ▸ hk' _ (hk _ hknown)
        · refine ⟨⟨hknown, htarget⟩, fun known' placed' hk _ _ _ => ?_⟩
          exact fun id hid => Option.some.inj hid ▸ hk _ hknown

/-- What a step does is aimed if the result so far is known. -/
theorem aims_plan (caller : WidgetId) {result : Option WidgetId}
    (hresult : ∀ id, result = some id → known id) : (i.plan caller result).Aims known placed := by
  unfold plan
  split
  · exact aims_remoteCall i caller
  split
  · exact aims_narrow i
  · exact aims_treeEdit i hresult

end Instruction

end Hypermedia.Action
