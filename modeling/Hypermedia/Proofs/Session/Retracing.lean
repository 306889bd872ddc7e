import Hypermedia.Proofs.Session.Travel
import Mathlib.Data.List.Infix
import Mathlib.Logic.Function.Iterate

/-! Histories and cursors: a history is a cursor on all that was ever recorded, and keeps the newest part of it. -/
namespace Hypermedia.Session

namespace History

/-- What can be done to a history. -/
inductive Operation where
  | push (destination : String)
  | back
  | forward
  deriving DecidableEq

def Operation.destination? : Operation → Option String
  | push destination => some destination
  | _ => none

/-- All that some operations record, oldest first. -/
def recorded (ops : List Operation) : List String :=
  ops.filterMap Operation.destination?

def after (h : History) : Operation → History
  | .push destination => h.push destination
  | .back => h.back
  | .forward => h.forward

def afterAll (h : History) (ops : List Operation) : History :=
  ops.foldl after h

end History

/-- A cursor on all that was ever recorded, oldest first: how many steps it stands back from the newest. -/
structure Cursor where
  limit : Nat
  recorded : List String := []
  steps : Nat := 0

namespace Cursor

/-- How many destinations the cursor may stand at: as many as the limit says, but at least one. -/
def reach (c : Cursor) : Nat :=
  min c.recorded.length (max c.limit 1)

def shown? (c : Cursor) : Option String :=
  c.recorded.reverse[c.steps]?

def after (c : Cursor) : History.Operation → Cursor
  | .push destination => { c with recorded := c.recorded ++ [destination], steps := 0 }
  | .back => { c with steps := if c.steps + 1 < c.reach then c.steps + 1 else c.steps }
  | .forward => { c with steps := c.steps.pred }

def afterAll (c : Cursor) (ops : List History.Operation) : Cursor :=
  ops.foldl after c

/-- A history that keeps what the cursor may stand at, and stands where the cursor does. -/
structure Describes (c : Cursor) (h : History) : Prop where
  limit : h.limit = max c.limit 1
  kept : h.entries <:+ c.recorded
  length : h.entries.length = c.reach
  offset : h.offset = c.steps
  inside : c.steps = 0 ∨ c.steps < c.reach

variable {c : Cursor} {h : History}

theorem reach_eq_zero_iff : c.reach = 0 ↔ c.recorded = [] := by
  rw [reach, ← List.length_eq_zero_iff]
  omega

section runs

theorem describes_start (limit : Nat) : Describes { limit } (History.ofLimit limit) where
  limit := rfl
  kept := List.nil_suffix
  length := by simp [History.ofLimit, reach]
  offset := rfl
  inside := .inl rfl

/-- What is one too many goes from the oldest end, so that the newest destinations stay. -/
theorem Describes.push (hd : c.Describes h) (destination : String) :
    (c.after (.push destination)).Describes (h.push destination) where
  limit := hd.limit
  kept := by
    obtain ⟨gone, hgone⟩ := hd.kept
    have hlonger : h.entries ++ [destination] <:+ c.recorded ++ [destination] :=
      ⟨gone, by rw [← List.append_assoc, hgone]⟩
    exact (List.drop_suffix _ _).trans hlonger
  length := by
    have hlength := hd.length
    have hlimit := hd.limit
    simp only [History.push, after, reach, List.length_drop, List.length_append, List.length_singleton] at hlength ⊢
    omega
  offset := rfl
  inside := .inl rfl

theorem Describes.back (hd : c.Describes h) : (c.after .back).Describes h.back := by
  obtain ⟨hlimit, hkept, hlength, hoffset, hinside⟩ := hd
  unfold History.back
  split
  · next hempty =>
    have hnone : c.reach = 0 := by rw [← hlength, List.isEmpty_iff.mp hempty, List.length_nil]
    have hstays : ¬ c.steps + 1 < c.reach := by omega
    have hsame : c.after .back = c := by rw [after, if_neg hstays]
    rw [hsame]
    exact ⟨hlimit, hkept, hlength, hoffset, hinside⟩
  · next hentries =>
    have hsome : h.entries.length ≠ 0 := by simpa using hentries
    by_cases hmore : c.steps + 1 < c.reach
    · have hmoved : c.after .back = { c with steps := c.steps + 1 } := by rw [after, if_pos hmore]
      rw [hmoved]
      exact ⟨hlimit, hkept, hlength, by dsimp only; omega, .inr hmore⟩
    · have hsame : c.after .back = c := by rw [after, if_neg hmore]
      rw [hsame]
      exact ⟨hlimit, hkept, hlength, by dsimp only; omega, hinside⟩

theorem Describes.forward (hd : c.Describes h) : (c.after .forward).Describes h.forward := by
  obtain ⟨hlimit, hkept, hlength, hoffset, hinside⟩ := hd
  have hinside' : c.steps.pred = 0 ∨ c.steps.pred < c.reach := by
    rw [Nat.pred_eq_sub_one]
    omega
  unfold History.forward
  split
  · next hempty =>
    have hnone : c.reach = 0 := by rw [← hlength, List.isEmpty_iff.mp hempty, List.length_nil]
    refine ⟨hlimit, hkept, hlength, ?_, hinside'⟩
    simp only [after, Nat.pred_eq_sub_one]
    omega
  · exact ⟨hlimit, hkept, hlength, congrArg Nat.pred hoffset, hinside'⟩

theorem Describes.after (hd : c.Describes h) (op : History.Operation) : (c.after op).Describes (h.after op) := by
  cases op with
  | push destination => exact hd.push destination
  | back => exact hd.back
  | forward => exact hd.forward

theorem Describes.afterAll (hd : c.Describes h) (ops : List History.Operation) :
    (c.afterAll ops).Describes (h.afterAll ops) := by
  induction ops generalizing c h with
  | nil => exact hd
  | cons op ops ih => exact ih (hd.after op)

theorem recorded_afterAll (c : Cursor) (ops : List History.Operation) :
    (c.afterAll ops).recorded = c.recorded ++ History.recorded ops := by
  induction ops generalizing c with
  | nil => exact (List.append_nil _).symm
  | cons op ops ih =>
    have hrest : (c.afterAll (op :: ops)).recorded = (c.after op).recorded ++ History.recorded ops := ih (c.after op)
    cases op with
    | push destination =>
      rw [hrest, after, List.append_assoc]
      rfl
    | back => exact hrest
    | forward => exact hrest

theorem limit_afterAll (c : Cursor) (ops : List History.Operation) : (c.afterAll ops).limit = c.limit := by
  induction ops generalizing c with
  | nil => rfl
  | cons op ops ih =>
    refine (ih (c.after op)).trans ?_
    cases op <;> rfl

end runs

end Cursor

namespace History

variable {c : Cursor} {h : History} {k : Nat}

/-- What a history shows is as many steps before its newest entry as its offset says. -/
theorem current?_eq (h : History) : h.current? = h.entries.reverse[h.offset]? := by
  unfold current?
  split
  · next hlt => rw [List.getElem?_reverse hlt]
  · next hge => rw [List.getElem?_eq_none (by simpa using hge)]

theorem current?_eq_shown? (hd : c.Describes h) : h.current? = c.shown? := by
  have hprefix : h.entries.reverse <+: c.recorded.reverse := List.reverse_prefix.mpr hd.kept
  rw [current?_eq, Cursor.shown?, ← hd.offset]
  by_cases hlt : h.offset < h.entries.length
  · have hlt : h.offset < h.entries.reverse.length := by simpa using hlt
    rw [List.getElem?_eq_getElem hlt, hprefix.getElem hlt, ← List.getElem?_eq_getElem]
  · have hnone : c.reach = 0 := by
      have hinside := hd.inside
      rw [← hd.offset, ← hd.length] at hinside
      rw [← hd.length]
      omega
    have hentries : h.entries = [] := List.length_eq_zero_iff.mp (hd.length.trans hnone)
    rw [hentries, Cursor.reach_eq_zero_iff.mp hnone]

theorem entries_back (h : History) : h.back.entries = h.entries := by
  unfold back
  split <;> rfl

theorem entries_forward (h : History) : h.forward.entries = h.entries := by
  unfold forward
  split <;> rfl

/-- Steps back that the oldest entry does not stop. -/
theorem iterate_back (hinside : h.offset + k < h.entries.length) :
    (back^[k] h).entries = h.entries ∧ (back^[k] h).offset = h.offset + k := by
  induction k with
  | zero => exact ⟨rfl, rfl⟩
  | succ k ih =>
    obtain ⟨hentries, hoffset⟩ := ih (Nat.lt_of_succ_lt hinside)
    rw [Function.iterate_succ_apply', entries_back, hentries, back, hentries, hoffset]
    have hsome : h.entries.isEmpty = false := by
      rw [List.isEmpty_eq_false_iff, ← List.length_pos_iff]
      omega
    refine ⟨rfl, ?_⟩
    simp only [hsome, Bool.false_eq_true, if_false]
    omega

/-- Steps back and as many forward lead to where they began, if the oldest entry stops none of them. -/
theorem iterate_forward_back (hinside : h.offset + k < h.entries.length) : forward^[k] (back^[k] h) = h := by
  induction k with
  | zero => rfl
  | succ k ih =>
    have hback : (back^[k] h).back.forward = back^[k] h := by
      obtain ⟨hentries, hoffset⟩ := iterate_back (Nat.lt_of_succ_lt hinside)
      refine forward_back ?_
      rw [hentries, hoffset]
      exact hinside
    rw [Function.iterate_succ_apply, Function.iterate_succ_apply', hback]
    exact ih (Nat.lt_of_succ_lt hinside)

/-- After any operations a history keeps the last destinations that were recorded, no more than its limit says, and
stands where the cursor does that never forgets any; it goes back and forward by single steps, which only the oldest
and the newest entry stop. -/
theorem follows_cursor (limit : Nat) (ops : List Operation) :
    let h := (ofLimit limit).afterAll ops
    let c := ({ limit } : Cursor).afterAll ops
    (h.entries <:+ recorded ops ∧ h.entries.length = min (recorded ops).length (max limit 1)) ∧
      (h.offset = c.steps ∧ h.current? = c.shown?) ∧
      (h.offset = 0 ∨ h.offset < h.entries.length) ∧
      (recorded ops ≠ [] → h.offset + 1 ≤ h.entries.length) ∧
      (h.current? = h.entries.reverse[h.offset]? ∧ (h.current? = none ↔ recorded ops = [])) ∧
      (h.back.entries = h.entries ∧
        h.back.offset = if h.offset + 1 < h.entries.length then h.offset + 1 else h.offset) ∧
      (h.forward.entries = h.entries ∧ h.forward.offset = if h.offset = 0 then 0 else h.offset - 1) ∧
      ∀ k, h.offset + k < h.entries.length → forward^[k] (back^[k] h) = h := by
  intro h c
  have hd : c.Describes h := (Cursor.describes_start limit).afterAll ops
  have hrecorded : c.recorded = recorded ops := Cursor.recorded_afterAll _ ops
  have hlimit : c.limit = limit := Cursor.limit_afterAll _ ops
  have hlength : h.entries.length = min (recorded ops).length (max limit 1) := by
    rw [hd.length, Cursor.reach, hrecorded, hlimit]
  have hinside : h.offset = 0 ∨ h.offset < h.entries.length := by
    rw [hd.offset, hd.length]
    exact hd.inside
  have hnone : h.entries = [] ↔ recorded ops = [] := by
    rw [← List.length_eq_zero_iff, ← List.length_eq_zero_iff]
    omega
  refine ⟨⟨hrecorded ▸ hd.kept, hlength⟩, ⟨hd.offset, current?_eq_shown? hd⟩, hinside, fun hsome => ?_,
    ⟨current?_eq h, ?_⟩, ⟨entries_back h, ?_⟩, ⟨entries_forward h, ?_⟩, fun k => iterate_forward_back⟩
  · have hpos := List.length_pos_iff.mpr (mt hnone.mp hsome)
    omega
  · rw [current?_eq, List.getElem?_eq_none_iff, List.length_reverse, ← hnone, ← List.length_eq_zero_iff]
    omega
  · rw [hd.back.offset, hd.offset, hd.length]
    rfl
  · have hsteps : (c.after .forward).steps = c.steps.pred := rfl
    rw [hd.forward.offset, hsteps, hd.offset]
    cases c.steps <;> rfl

/-- A history of two entries at most, in which four are recorded; from the newest of these, one step leads back. -/
theorem follows_cursor_crowded :
    let ops : List Operation := [.push "/a", .back, .push "/b", .push "/c", .back, .back, .forward, .push "/d"]
    let h := (ofLimit 2).afterAll ops
    h.entries = ["/c", "/d"] ∧ h.offset + 1 < h.entries.length ∧ h.back.current? = some "/c" ∧
      forward^[1] (back^[1] h) = h := by
  intro ops h
  have hinside : h.offset + 1 < h.entries.length := by decide
  obtain ⟨-, -, -, -, -, -, -, hreturns⟩ := follows_cursor 2 ops
  exact ⟨by decide, hinside, by decide, hreturns 1 hinside⟩

end History

end Hypermedia.Session
