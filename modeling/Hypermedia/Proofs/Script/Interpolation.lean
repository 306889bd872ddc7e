import Hypermedia.Script.Path
import Hypermedia.Proofs.Effect
import Hypermedia.Proofs.Text.Templates

/-! Interpolation: a text takes the values of its placeholders as they are, in one pass from left to right,
and fails at the first path that leads to nothing. -/
namespace Hypermedia.Script

open Effect Text

variable {held : List ScopeId} {t : Tree} {scope : ScopeId} {widget : WidgetId} {w u : World}
  {path : List Char} {paths values : List (List Char)} {template : Template} {e : CompileError}

/-- The texts that paths lead to from a scope, each looked up in the world that the one before it leaves. -/
inductive Finds (held : List ScopeId) (t : Tree) (scope : ScopeId) :
    World → List (List Char) → List (List Char) → World → Prop
  | nil (w : World) : Finds held t scope w [] [] w
  | cons {w v u : World} {path : List Char} {found : String} {paths values : List (List Char)}
      (hfound : w.lookUp held t scope (String.ofList path) = (some found, v))
      (hrest : Finds held t scope v paths values u) :
      Finds held t scope w (path :: paths) (found.toList :: values) u

/-- The first of the paths that leads to nothing, and the world after it. -/
def Misses (held : List ScopeId) (t : Tree) (scope : ScopeId) (w : World) (paths : List (List Char))
    (path : List Char) (u : World) : Prop :=
  ∃ before after values v, paths = before ++ path :: after ∧ Finds held t scope w before values v ∧
    v.lookUp held t scope (String.ofList path) = (none, u)

theorem misses_cons_of_none {v : World} (h : w.lookUp held t scope (String.ofList path) = (none, v))
    {first : List Char} : Misses held t scope w (path :: paths) first u ↔ first = path ∧ u = v := by
  constructor
  · rintro ⟨before, after, values, v', hpaths, hfinds, hnone⟩
    cases hfinds with
    | nil =>
      obtain ⟨rfl, -⟩ := List.cons_eq_cons.mp hpaths
      rw [h] at hnone
      cases hnone
      exact ⟨rfl, rfl⟩
    | cons hfound hrest =>
      obtain ⟨rfl, -⟩ := List.cons_eq_cons.mp hpaths
      rw [h] at hfound
      cases hfound
  · rintro ⟨rfl, rfl⟩
    exact ⟨[], paths, [], w, rfl, .nil w, h⟩

theorem misses_cons_of_some {v : World} {found : String}
    (h : w.lookUp held t scope (String.ofList path) = (some found, v)) {first : List Char} :
    Misses held t scope w (path :: paths) first u ↔ Misses held t scope v paths first u := by
  constructor
  · rintro ⟨before, after, values, v', hpaths, hfinds, hnone⟩
    cases hfinds with
    | nil =>
      obtain ⟨rfl, -⟩ := List.cons_eq_cons.mp hpaths
      rw [h] at hnone
      cases hnone
    | cons hfound hrest =>
      obtain ⟨rfl, rfl⟩ := List.cons_eq_cons.mp hpaths
      rw [h] at hfound
      cases hfound
      exact ⟨_, after, _, v', rfl, hrest, hnone⟩
  · rintro ⟨before, after, values, v', rfl, hfinds, hnone⟩
    exact ⟨path :: before, after, found.toList :: values, v', rfl, .cons h hfinds, hnone⟩

namespace Filling

theorem value_of_some {v : World} {found : String}
    (h : w.lookUp held t scope (String.ofList path) = (some found, v)) :
    value held t scope widget path w = (.ok found.toList, v) := by
  rw [value, run_get_bind, h]
  rfl

theorem value_of_none {v : World} (h : w.lookUp held t scope (String.ofList path) = (none, v)) :
    value held t scope widget path w =
      (.error (.unresolvedPlaceholder (String.ofList path) (t.query widget)), v) := by
  rw [value, run_get_bind, h]
  rfl

theorem mapM_value_eq_ok (widget : WidgetId) :
    paths.mapM (value held t scope widget) w = (.ok values, u) ↔ Finds held t scope w paths values u := by
  induction paths generalizing w values with
  | nil =>
    constructor
    · rintro ⟨⟩
      exact .nil _
    · rintro ⟨⟩
      rfl
  | cons path paths ih =>
    rw [List.mapM_cons, run_bind]
    cases hlook : w.lookUp held t scope (String.ofList path) with
    | mk found v =>
      cases found with
      | none =>
        rw [value_of_none hlook]
        constructor
        · exact nofun
        · intro h
          cases h with
          | cons hfound hrest =>
            rw [hlook] at hfound
            cases hfound
      | some found =>
        rw [value_of_some hlook]
        change (paths.mapM (value held t scope widget) >>= fun more => pure (found.toList :: more)) v = _ ↔ _
        constructor
        · intro h
          obtain ⟨more, v', hmore, hpure⟩ := bind_eq_ok h
          cases hpure
          exact .cons hlook (ih.mp hmore)
        · intro h
          cases h with
          | cons hfound hrest =>
            rw [hlook] at hfound
            cases hfound
            rw [run_bind, ih.mpr hrest]
            rfl

theorem mapM_value_eq_error :
    paths.mapM (value held t scope widget) w = (.error e, u) ↔ ∃ path,
      Misses held t scope w paths path u ∧
        e = .unresolvedPlaceholder (String.ofList path) (t.query widget) := by
  induction paths generalizing w with
  | nil =>
    constructor
    · exact nofun
    · rintro ⟨path, ⟨before, after, values, v, hpaths, -⟩, -⟩
      exact absurd hpaths.symm (List.append_ne_nil_of_right_ne_nil _ (List.cons_ne_nil _ _))
  | cons path paths ih =>
    rw [List.mapM_cons, run_bind]
    cases hlook : w.lookUp held t scope (String.ofList path) with
    | mk found v =>
      cases found with
      | none =>
        rw [value_of_none hlook]
        simp only [misses_cons_of_none hlook]
        constructor
        · rintro ⟨⟩
          exact ⟨path, ⟨rfl, rfl⟩, rfl⟩
        · rintro ⟨path, ⟨rfl, rfl⟩, rfl⟩
          rfl
      | some found =>
        rw [value_of_some hlook]
        simp only [misses_cons_of_some hlook, ← ih]
        change (paths.mapM (value held t scope widget) >>= fun more => pure (found.toList :: more)) v = _ ↔ _
        rw [run_bind]
        cases hrest : paths.mapM (value held t scope widget) v with
        | mk r v' =>
          cases r with
          | ok more => exact ⟨nofun, nofun⟩
          | error e' => rfl

theorem text_apply (h : template.WellFormed) (w : World) :
    text held t scope widget (String.ofList template.text) w =
      match template.paths.mapM (value held t scope widget) w with
      | (.ok values, u) => (.ok (String.ofList (template.weave values)), u)
      | (.error e, u) => (.error e, u) := by
  rw [text, bind_pure_comp, String.toList_ofList, h.fill, Functor.map_map, run_map]
  cases template.paths.mapM (value held t scope widget) w with
  | mk r u => cases r <;> rfl

/-- A text takes the values of all its paths, and leaves the world that looking them up leaves. -/
theorem text_eq_ok (h : template.WellFormed) {shown : String} :
    text held t scope widget (String.ofList template.text) w = (.ok shown, u) ↔ ∃ values,
      Finds held t scope w template.paths values u ∧ shown = String.ofList (template.weave values) := by
  rw [text_apply h]
  simp only [← mapM_value_eq_ok widget]
  cases template.paths.mapM (value held t scope widget) w with
  | mk r v =>
    cases r with
    | error e => exact ⟨nofun, nofun⟩
    | ok values =>
      constructor
      · rintro ⟨⟩
        exact ⟨values, rfl, rfl⟩
      · rintro ⟨values, ⟨⟩, rfl⟩
        rfl

/-- A text fails at the first of its paths that leads to nothing. -/
theorem text_eq_error (h : template.WellFormed) :
    text held t scope widget (String.ofList template.text) w = (.error e, u) ↔ ∃ path,
      Misses held t scope w template.paths path u ∧
        e = .unresolvedPlaceholder (String.ofList path) (t.query widget) := by
  rw [text_apply h, ← mapM_value_eq_error]
  cases template.paths.mapM (value held t scope widget) w with
  | mk r v =>
    cases r with
    | ok values => exact ⟨nofun, nofun⟩
    | error e' =>
      constructor
      · rintro ⟨⟩
        rfl
      · rintro ⟨⟩
        rfl

end Filling

/-- Interpolation takes the values of the paths as they are and keeps all else; it fails at the first path
that leads to nothing, and leaves a text without placeholders as it is. -/
theorem interpolate_single_pass (held : List ScopeId) (t : Tree) (scope : ScopeId) (widget : WidgetId)
    (template : Template) (h : template.WellFormed) (w : World) :
    (∀ shown, w.interpolate held t scope widget (String.ofList template.text) = .ok shown ↔
      ∃ values u, Finds held t scope w template.paths values u ∧
        shown = String.ofList (template.weave values)) ∧
    (∀ e, w.interpolate held t scope widget (String.ofList template.text) = .error e ↔
      ∃ path u, Misses held t scope w template.paths path u ∧
        e = .unresolvedPlaceholder (String.ofList path) (t.query widget)) ∧
    (hasPlaceholders template.text = false →
      Filling.text held t scope widget (String.ofList template.text) w =
        (.ok (String.ofList template.text), w)) := by
  have hinterpolate (r : Except CompileError String) :
      w.interpolate held t scope widget (String.ofList template.text) = r ↔
        ∃ u, Filling.text held t scope widget (String.ofList template.text) w = (r, u) := by
    constructor
    · rintro rfl
      exact ⟨_, rfl⟩
    · rintro ⟨u, hu⟩
      rw [World.interpolate, hu]
  refine ⟨?_, ?_, ?_⟩
  · intro shown
    rw [hinterpolate]
    simp only [Filling.text_eq_ok h]
    exact exists_comm
  · intro e
    rw [hinterpolate]
    simp only [Filling.text_eq_error h]
    exact exists_comm
  · intro hplain
    rw [hasPlaceholders_text h, Bool.not_eq_false', List.isEmpty_iff] at hplain
    have hpaths : template.paths = [] := by rw [Template.paths, hplain, List.map_nil]
    have hweave : template.weave [] = template.text := by
      rw [Template.weave, Template.text, hplain]
      rfl
    rw [Filling.text_eq_ok h, hpaths, ← hweave]
    exact ⟨[], .nil w, rfl⟩

/-- A text with two placeholders, where the first stands for a text that looks like one itself. -/
def greeting : Template where
  opening := "Dear ".toList
  slots := [⟨["name".toList], ", ".toList⟩, ⟨["outer".toList, "who".toList], ".".toList⟩]

/-- A scope that binds a name, inside one that binds another. -/
def acquaintance : World where
  scopes := { all := #[{ bindings := [("who", .str (Bytes.ofString "Ada"))] },
    { parent := some ⟨0⟩, bindings := [("name", .str (Bytes.ofString "$who"))] }] }

theorem greeting_keeps_dollar : greeting.WellFormed ∧
    String.ofList greeting.text = "Dear $name, $outer.who." ∧
    acquaintance.interpolate [] {} ⟨1⟩ ⟨0⟩ "Dear $name, $outer.who." = .ok "Dear $who, Ada." := by
  have hwf : greeting.WellFormed := by decide
  have htext : String.ofList greeting.text = "Dear $name, $outer.who." := by decide +kernel
  have hname : acquaintance.lookUp [] {} ⟨1⟩ (String.ofList "name".toList) = (some "$who", acquaintance) := rfl
  have hwho : acquaintance.lookUp [] {} ⟨1⟩ (String.ofList "outer.who".toList) = (some "Ada", acquaintance) := rfl
  have hfinds : Finds [] {} ⟨1⟩ acquaintance greeting.paths ["$who".toList, "Ada".toList] acquaintance :=
    .cons hname (.cons hwho (.nil _))
  refine ⟨hwf, htext, ?_⟩
  rw [← htext]
  exact ((interpolate_single_pass [] {} ⟨1⟩ ⟨0⟩ greeting hwf acquaintance).1 _).mpr ⟨_, _, hfinds, rfl⟩

end Hypermedia.Script
