import Mathlib.Data.List.Induction
import Mathlib.Data.List.Nodup

/-! Lists: what stands before what, what is left when only the first of equal elements is kept, what a function
gives for all elements, and what is looked up. -/
namespace Hypermedia

variable {α : Type} {R : α → α → Prop} {l : List α} {a b : α}

section before

theorem not_sublist_swap (hl : l.Nodup) (hab : [a, b].Sublist l) : ¬ [b, a].Sublist l := by
  induction l with
  | nil => cases hab
  | cons c l ih =>
    obtain ⟨hc, hl⟩ := List.nodup_cons.mp hl
    intro hba
    cases hab with
    | cons _ hab =>
      cases hba with
      | cons _ hba => exact ih hl hab hba
      | cons_cons _ hba => exact hc (hab.subset (by simp))
    | cons_cons _ hab =>
      cases hba with
      | cons _ hba => exact hc (hba.subset (by simp))
      | cons_cons _ _ => exact hc (hab.subset (by simp))

/-- In a list that keeps a strict order, what stands before what is decided by the order. -/
theorem pair_sublist_iff [Std.Asymm R] (hl : l.Pairwise R) : [a, b].Sublist l ↔ a ∈ l ∧ b ∈ l ∧ R a b := by
  constructor
  · intro h
    exact ⟨h.subset (by simp), h.subset (by simp), List.pairwise_iff_forall_sublist.mp hl h⟩
  · rintro ⟨ha, hb, hab⟩
    obtain ⟨before, after, rfl⟩ := List.append_of_mem ha
    have hne : b ≠ a := fun heq => Std.Asymm.asymm a b hab (heq ▸ hab)
    rcases List.mem_append.mp hb with hb | hb
    · exact absurd ((List.pairwise_append.mp hl).2.2 b hb a List.mem_cons_self) (Std.Asymm.asymm a b hab)
    · have hb : b ∈ after := (List.mem_cons.mp hb).resolve_left hne
      exact ((List.singleton_sublist.mpr hb).cons_cons a).trans (List.sublist_append_right _ _)

/-- In a list that keeps a strict order, the last to give something is the greatest of all that give something. -/
theorem findSome?_reverse_eq_some_iff {β : Type} [Std.Asymm R] (hl : l.Pairwise R) {f : α → Option β} {v : β} :
    l.reverse.findSome? f = some v ↔ ∃ a ∈ l, f a = some v ∧ ∀ b ∈ l, f b ≠ none → b ≠ a → R b a := by
  rw [List.findSome?_eq_some_iff]
  constructor
  · rintro ⟨after, a, before, heq, hv, hnone⟩
    obtain rfl : l = before.reverse ++ a :: after.reverse := by simpa using congrArg List.reverse heq
    refine ⟨a, by simp, hv, fun b hb hsome hne => ?_⟩
    rcases List.mem_append.mp hb with hb | hb
    · exact (List.pairwise_append.mp hl).2.2 b hb a List.mem_cons_self
    · have hb : b ∈ after := List.mem_reverse.mp ((List.mem_cons.mp hb).resolve_left hne)
      exact absurd (hnone b hb) hsome
  · rintro ⟨a, ha, hv, hgreatest⟩
    obtain ⟨before, after, rfl⟩ := List.append_of_mem ha
    refine ⟨after.reverse, a, before.reverse, by simp, hv, fun b hb => ?_⟩
    have hb : b ∈ after := List.mem_reverse.mp hb
    have hab : R a b := (List.pairwise_cons.mp (List.pairwise_append.mp hl).2.1).1 b hb
    by_contra hsome
    have hne : b ≠ a := fun heq => Std.Asymm.asymm a b hab (heq ▸ hab)
    exact Std.Asymm.asymm a b hab (hgreatest b (by simp [hb]) hsome hne)

end before

section firsts

variable [BEq α] [LawfulBEq α]

theorem eraseDups_concat (l : List α) (a : α) [Decidable (a ∈ l)] :
    (l ++ [a]).eraseDups = if a ∈ l then l.eraseDups else l.eraseDups ++ [a] := by
  rw [List.eraseDups_append, List.cons_removeAll, List.nil_removeAll]
  by_cases ha : a ∈ l
  · simp [ha]
  · simp [ha, List.eraseDups_cons]

theorem eraseDups_of_nodup (h : l.Nodup) : l.eraseDups = l := by
  induction l with
  | nil => rfl
  | cons a l ih =>
    obtain ⟨ha, hl⟩ := List.nodup_cons.mp h
    have hkept : l.filter (fun b => !b == a) = l :=
      List.filter_eq_self.mpr fun b hb => bne_iff_ne.mpr fun heq => ha (heq ▸ hb)
    rw [List.eraseDups_cons, hkept, ih hl]

omit [LawfulBEq α] in
theorem head?_eraseDups (l : List α) : l.eraseDups.head? = l.head? := by
  cases l with
  | nil => rfl
  | cons a l =>
    rw [List.eraseDups_cons]
    rfl

end firsts

section all

variable {β : Type} {f : α → Option β}

theorem mapM_isSome_iff : (l.mapM f).isSome = true ↔ ∀ a ∈ l, (f a).isSome = true := by
  induction l with
  | nil => simp
  | cons a l ih =>
    rw [List.mapM_cons, List.forall_mem_cons, ← ih]
    cases f a with
    | none => simp
    | some b => cases l.mapM f <;> simp

theorem mapM_of_forall_eq_some {g : α → β} (h : ∀ a ∈ l, f a = some (g a)) : l.mapM f = some (l.map g) := by
  induction l with
  | nil => rfl
  | cons a l ih =>
    obtain ⟨ha, hl⟩ := List.forall_mem_cons.mp h
    rw [List.mapM_cons, ha, ih hl]
    rfl

theorem ne_nil_of_mapM {bs : List β} (h : l.mapM f = some bs) (hl : l ≠ []) : bs ≠ [] := by
  rintro rfl
  obtain ⟨a, l, rfl⟩ := List.exists_cons_of_ne_nil hl
  rw [List.mapM_cons] at h
  obtain ⟨b, -, h⟩ := Option.bind_eq_some_iff.mp h
  obtain ⟨bs, -, h⟩ := Option.bind_eq_some_iff.mp h
  cases h

end all

section lookups

theorem lookup_cons_eq {key : String} (entry : String × α) (rest : List (String × α)) :
    (entry :: rest).lookup key = if key = entry.1 then some entry.2 else rest.lookup key := by
  obtain ⟨first, a⟩ := entry
  by_cases hkey : key = first
  · simp [hkey]
  · rw [List.lookup_cons, beq_false_of_ne hkey, if_neg hkey]

theorem mem_of_lookup {κ : Type} [BEq κ] [LawfulBEq κ] {key : κ} {entries : List (κ × α)}
    (h : entries.lookup key = some a) : (key, a) ∈ entries := by
  obtain ⟨before, after, rfl, -⟩ := List.lookup_eq_some_iff.mp h
  simp

/-- Where no name stands twice, what stands under one is found. -/
theorem lookup_of_mem {key : String} {entries : List (String × α)} (hnodup : (entries.map Prod.fst).Nodup)
    (h : (key, a) ∈ entries) : entries.lookup key = some a := by
  induction entries with
  | nil => cases h
  | cons entry rest ih =>
    obtain ⟨hout, hrest⟩ := List.nodup_cons.mp hnodup
    rw [lookup_cons_eq]
    rcases List.mem_cons.mp h with rfl | h
    · rw [if_pos rfl]
    · have hne : key ≠ entry.1 := by
        rintro rfl
        exact hout (List.mem_map.mpr ⟨_, h, rfl⟩)
      rw [if_neg hne]
      exact ih hrest h

end lookups

end Hypermedia
