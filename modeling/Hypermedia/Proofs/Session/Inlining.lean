import Hypermedia.Session.Inline
import Hypermedia.Proofs.Markup.Elements
import Mathlib

/-! Inlining: what it does to documents whose libraries are readable once, and a library that never
ends. -/
namespace Hypermedia.Session

open Node (Each Distinct)

variable {σ : Type} {fetch : Fetch σ} {n : Node} {s : σ} {depth levels budget : Nat}

mutual

/-- Does `source` at an element, then at its children; what `source` puts in after the children the
element has is left as it is. -/
def eachOnce (source : Node → σ → Inlined σ Node) : Node → σ → Inlined σ Node
  | .mk tag attributes text children tail, s =>
    let sourced := source (.mk tag attributes text children tail) s
    match sourced.outcome with
    | .error stop => ⟨.error stop, sourced.value, sourced.state⟩
    | .ok () =>
      let below := eachOnceAll source children sourced.state
      let added := sourced.value.children.drop children.length
      ⟨below.outcome, sourced.value.withChildren (below.value ++ added), below.state⟩

def eachOnceAll (source : Node → σ → Inlined σ Node) : List Node → σ → Inlined σ (List Node)
  | [], s => ⟨.ok (), [], s⟩
  | n :: rest, s =>
    let first := eachOnce source n s
    match first.outcome with
    | .error stop => ⟨.error stop, first.value :: rest, first.state⟩
    | .ok () =>
      let more := eachOnceAll source rest first.state
      ⟨more.outcome, first.value :: more.value, more.state⟩

end

/-- Inlines every element once, where at most `levels` libraries may still be read inside one
another. -/
def inlineOnce (fetch : Fetch σ) : Nat → Node → σ → Inlined σ Node
  | 0 => eachOnce (inlineSource fetch (fun n s => ⟨.ok (), n, s⟩) maxInlineDepth)
  | levels + 1 =>
    eachOnce (inlineSource fetch (inlineOnce fetch levels) (maxInlineDepth - (levels + 1)))

/-- The root of every library that can be read has no `src` left for the element that refers to the
library. -/
def RootsLeaveNoSource (fetch : Fetch σ) : Prop :=
  ∀ src s body root, (fetch src s).1 = .ok body → Markup.parse body = .ok root →
    isSourceable root.tag ∨ root.attribute? "src" = none

/-- An element for which there is nothing to fetch. -/
def Settled (tag : String) (attributes : List (String × String)) : Prop :=
  isSourceable tag → attributes.lookup "src" = none

/-- At least `k` libraries lie inside one another in the element, whatever the server answers. -/
inductive Nested (fetch : Fetch σ) : Nat → Node → Prop where
  | zero (n : Node) : Nested fetch 0 n
  | succ {n m : Node} {src : String} {k : Nat} (hm : m ∈ n.elements) (htag : m.tag = "complib")
      (hsrc : m.attribute? "src" = some src)
      (inside : ∀ s body root, (fetch src s).1 = .ok body → Markup.parse body = .ok root →
        Nested fetch k root) : Nested fetch (k + 1) n

section source

variable {inlineOne : Node → σ → Inlined σ Node}

theorem inlineSource_of_settled (h : Settled n.tag n.attributes) :
    inlineSource fetch inlineOne depth n s = ⟨.ok (), n, s⟩ := by
  have hnone : (if isSourceable n.tag then n.attribute? "src" else none) = none := by
    split_ifs with ht
    · exact h ht
    · rfl
  simp only [inlineSource, hnone]

/-- What is inlined is settled, and the `src` of its root is gone unless it could not be fetched. -/
def Settles (inlineOne : Node → σ → Inlined σ Node) : Prop :=
  ∀ n s, n.Each Distinct → (inlineOne n s).outcome = .ok () →
    (inlineOne n s).value.Each Settled ∧
      (isSourceable n.tag ∨ n.attribute? "src" = none →
        (inlineOne n s).value.attribute? "src" = none)

/-- The element that comes of `n` when its resource is put in: it has `n`'s children, then settled
ones. -/
structure Sourced (n v : Node) : Prop where
  tag : v.tag = n.tag
  children : ∃ added, v.children = n.children ++ added ∧ ∀ c ∈ added, c.Each Settled
  source : Distinct n.tag n.attributes → isSourceable n.tag ∨ n.attribute? "src" = none →
    v.attribute? "src" = none

theorem sourced_joinLibrary {library : Node} (hl : library.Each Settled)
    (hsrc : library.attribute? "src" = none) :
    Sourced n (joinLibrary (n.removeAttribute "src").2 library) where
  tag := Node.tag_setAttributes
  children := ⟨library.children, Node.children_setAttributes, fun _ hc => hl.of_mem_children hc⟩
  source hd _ := Node.attribute?_setAttributes (Node.lookup_dropAttribute hd) hsrc

theorem sourced_inlineLibrary {src body : String} {after : σ} (hq : RootsLeaveNoSource fetch)
    (hone : depth < maxInlineDepth → Settles inlineOne) (hbody : (fetch src s).1 = .ok body)
    (h : (inlineLibrary inlineOne depth src body (n.removeAttribute "src").2 after).outcome = .ok ()) :
    Sourced n (inlineLibrary inlineOne depth src body (n.removeAttribute "src").2 after).value := by
  unfold inlineLibrary at h ⊢
  by_cases hdepth : maxInlineDepth ≤ depth
  · rw [if_pos hdepth] at h
    cases h
  · rw [if_neg hdepth] at h ⊢
    cases hp : Markup.parse body with
    | error fault =>
      simp only [hp] at h
      cases h
    | ok library =>
      simp only [hp] at h ⊢
      split at h
      next => cases h
      next hok =>
        have hs := hone (Nat.lt_of_not_le hdepth) library after (Markup.distinct_of_parse hp) hok
        exact sourced_joinLibrary hs.1 (hs.2 (hq src s body library hbody hp))

theorem sourced_inlineSource (hq : RootsLeaveNoSource fetch)
    (hone : depth < maxInlineDepth → Settles inlineOne)
    (h : (inlineSource fetch inlineOne depth n s).outcome = .ok ()) :
    Sourced n (inlineSource fetch inlineOne depth n s).value := by
  unfold inlineSource at h ⊢
  split at h
  next hnone =>
    refine ⟨rfl, ⟨[], (List.append_nil _).symm, List.forall_mem_nil _⟩, fun _ hsrc => ?_⟩
    rcases hsrc with ht | hsrc
    · rwa [if_pos ht] at hnone
    · exact hsrc
  next src hsome =>
    dsimp only at h ⊢
    split at h
    next => cases h
    next body after hf =>
      split at h
      next htag =>
        rw [if_pos htag]
        exact sourced_inlineLibrary hq hone (congrArg Prod.fst hf) h
      next htag =>
        rw [if_neg htag]
        exact ⟨rfl, ⟨[], (List.append_nil _).symm, List.forall_mem_nil _⟩,
          fun hd _ => Node.lookup_dropAttribute hd⟩

theorem Sourced.settled {v : Node} (h : Sourced n v) (hd : Distinct n.tag n.attributes) :
    Settled v.tag v.attributes :=
  fun ht => h.source hd (.inl (h.tag ▸ ht))

end source

section once

variable {source : Node → σ → Inlined σ Node} {ns : List Node}

theorem eachOnceAll_settled
    (h : ∀ c ∈ ns, ∀ s, (eachOnce source c s).outcome = .ok () →
      (eachOnce source c s).value.Each Settled)
    (hok : (eachOnceAll source ns s).outcome = .ok ()) :
    ∀ c ∈ (eachOnceAll source ns s).value, c.Each Settled := by
  induction ns generalizing s with
  | nil => exact List.forall_mem_nil _
  | cons n ns ih =>
    rw [List.forall_mem_cons] at h
    rw [eachOnceAll] at hok ⊢
    cases hfirst : (eachOnce source n s).outcome with
    | error stop =>
      simp only [hfirst] at hok
      cases hok
    | ok =>
      simp only [hfirst] at hok ⊢
      exact List.forall_mem_cons.mpr ⟨h.1 s hfirst, ih h.2 hok⟩

theorem settles_eachOnce
    (h : ∀ n s, (source n s).outcome = .ok () → Sourced n (source n s).value) :
    Settles (eachOnce source) := by
  intro n
  induction n using Node.induction with
  | mk tag attributes text children tail ih =>
    intro s hd hok
    have hs := h (.mk tag attributes text children tail) s
    rw [eachOnce] at hok ⊢
    cases hsource : (source (.mk tag attributes text children tail) s).outcome with
    | error stop =>
      simp only [hsource] at hok
      cases hok
    | ok =>
      simp only [hsource] at hok ⊢
      replace hs := hs hsource
      obtain ⟨added, (hchildren : _ = children ++ added), hadded⟩ := hs.children
      cases hd with
      | mk here below =>
        refine ⟨.mk (hs.settled here) fun c hc => ?_, hs.source here⟩
        rcases List.mem_append.mp hc with hc | hc
        · exact eachOnceAll_settled (fun c hc s hc' => (ih c hc s (below c hc) hc').1) hok c hc
        · rw [hchildren, List.drop_left' rfl] at hc
          exact hadded c hc

end once

theorem settles_inlineOnce (hq : RootsLeaveNoSource fetch) (levels : Nat) :
    Settles (inlineOnce fetch levels) := by
  induction levels with
  | zero => exact settles_eachOnce fun n s => sourced_inlineSource hq fun h => absurd h (Nat.lt_irrefl _)
  | succ levels ih => exact settles_eachOnce fun n s => sourced_inlineSource hq fun _ => ih

section budget

variable {inlineOne : Node → σ → Inlined σ Node} {ns added : List Node}

theorem inlineAll_of_unchanged (h : ∀ n ∈ ns, ∀ s, inlineOne n s = ⟨.ok (), n, s⟩) :
    inlineAll inlineOne ns s = ⟨.ok (), ns, s⟩ := by
  induction ns with
  | nil => rfl
  | cons n ns ih =>
    rw [List.forall_mem_cons] at h
    simp only [inlineAll, h.1 s, ih h.2]

theorem inlineAll_append (h : ∀ n ∈ added, ∀ s, inlineOne n s = ⟨.ok (), n, s⟩) :
    inlineAll inlineOne (ns ++ added) s =
      ⟨(inlineAll inlineOne ns s).outcome, (inlineAll inlineOne ns s).value ++ added,
        (inlineAll inlineOne ns s).state⟩ := by
  induction ns generalizing s with
  | nil => exact inlineAll_of_unchanged h
  | cons n ns ih =>
    rw [List.cons_append, inlineAll, inlineAll]
    cases (inlineOne n s).outcome with
    | error stop => rfl
    | ok => simp only [ih, List.cons_append]

/-- What holds of each of some elements from a budget on holds of all of them from a budget on. -/
theorem exists_budget {p : Node → Nat → Prop} (h : ∀ n ∈ ns, ∃ b, ∀ budget, b ≤ budget → p n budget) :
    ∃ b, ∀ budget, b ≤ budget → ∀ n ∈ ns, p n budget := by
  induction ns with
  | nil => exact ⟨0, fun _ _ => List.forall_mem_nil _⟩
  | cons n ns ih =>
    rw [List.forall_mem_cons] at h
    obtain ⟨b, hb⟩ := h.1
    obtain ⟨c, hc⟩ := ih h.2
    refine ⟨max b c, fun budget hbudget => List.forall_mem_cons.mpr ⟨?_, ?_⟩⟩
    · exact hb budget (by omega)
    · exact hc budget (by omega)

theorem inlineWithin_of_settled (h : n.Each Settled) :
    ∃ b, ∀ budget, b ≤ budget → ∀ depth s, inlineWithin fetch budget depth n s = ⟨.ok (), n, s⟩ := by
  induction n using Node.induction with
  | mk tag attributes text children tail ih =>
    cases h with
    | mk here below =>
      obtain ⟨b, hb⟩ := exists_budget fun c hc => ih c hc (below c hc)
      refine ⟨b + 1, fun budget hbudget depth s => ?_⟩
      obtain ⟨extra, rfl⟩ := Nat.exists_eq_add_of_le' hbudget
      have hsource {inlineOne} :
          inlineSource fetch inlineOne depth (.mk tag attributes text children tail) s =
            ⟨.ok (), .mk tag attributes text children tail, s⟩ := inlineSource_of_settled here
      have hbelow := inlineAll_of_unchanged (s := s) fun c hc =>
        hb (extra + b) (Nat.le_add_left b extra) c hc depth
      rw [← Nat.add_assoc, inlineWithin, hsource]
      simp only [Node.children, hbelow]
      rfl

theorem inlineSource_congr
    (h : depth < maxInlineDepth → ∀ root s, ∃ b, ∀ budget, b ≤ budget →
      inlineWithin fetch budget (depth + 1) root s = inlineOne root s) :
    ∃ b, ∀ budget, b ≤ budget → inlineSource fetch (inlineWithin fetch budget (depth + 1)) depth n s =
      inlineSource fetch inlineOne depth n s := by
  unfold inlineSource
  split
  next => exact ⟨0, fun _ _ => rfl⟩
  next src _ =>
    dsimp only
    split
    next => exact ⟨0, fun _ _ => rfl⟩
    next body after _ =>
      split
      next htag =>
        unfold inlineLibrary
        by_cases hdepth : maxInlineDepth ≤ depth
        · exact ⟨0, fun _ _ => by rw [if_pos hdepth, if_pos hdepth]⟩
        · simp only [if_neg hdepth]
          split
          next => exact ⟨0, fun _ _ => rfl⟩
          next library _ =>
            obtain ⟨b, hb⟩ := h (Nat.lt_of_not_le hdepth) library after
            exact ⟨b, fun budget hbudget => by rw [hb budget hbudget]⟩
      next => exact ⟨0, fun _ _ => rfl⟩

theorem inlineAll_eq_eachOnceAll {source : Node → σ → Inlined σ Node}
    (h : ∀ n ∈ ns, ∀ s, ∃ b, ∀ budget, b ≤ budget →
      inlineWithin fetch budget depth n s = eachOnce source n s) (s : σ) :
    ∃ b, ∀ budget, b ≤ budget →
      inlineAll (inlineWithin fetch budget depth) ns s = eachOnceAll source ns s := by
  induction ns generalizing s with
  | nil => exact ⟨0, fun _ _ => rfl⟩
  | cons n ns ih =>
    rw [List.forall_mem_cons] at h
    obtain ⟨b, hb⟩ := h.1 s
    obtain ⟨c, hc⟩ := ih h.2 (eachOnce source n s).state
    refine ⟨max b c, fun budget hbudget => ?_⟩
    have hfirst := hb budget (by omega)
    have hrest := hc budget (by omega)
    rw [inlineAll, eachOnceAll, hfirst]
    cases (eachOnce source n s).outcome with
    | error stop => rfl
    | ok => simp only [hrest]

theorem inlineWithin_eq_eachOnce (hq : RootsLeaveNoSource fetch)
    (hone : depth < maxInlineDepth → Settles inlineOne)
    (h : depth < maxInlineDepth → ∀ root s, ∃ b, ∀ budget, b ≤ budget →
      inlineWithin fetch budget (depth + 1) root s = inlineOne root s) (n : Node) (s : σ) :
    ∃ b, ∀ budget, b ≤ budget → inlineWithin fetch budget depth n s =
      eachOnce (inlineSource fetch inlineOne depth) n s := by
  induction n using Node.induction generalizing s with
  | mk tag attributes text children tail ih =>
    obtain ⟨b, hb⟩ := inlineSource_congr (n := .mk tag attributes text children tail) (s := s) h
    have hs := sourced_inlineSource (n := .mk tag attributes text children tail) (s := s) hq hone
    rw [eachOnce]
    generalize inlineSource fetch inlineOne depth (.mk tag attributes text children tail) s = sourced
      at hb hs
    cases hok : sourced.outcome with
    | error stop =>
      refine ⟨b + 1, fun budget hbudget => ?_⟩
      obtain ⟨extra, rfl⟩ := Nat.exists_eq_add_of_le' hbudget
      rw [← Nat.add_assoc, inlineWithin, hb _ (Nat.le_add_left b extra)]
      simp only [hok]
    | ok =>
      obtain ⟨added, (hchildren : _ = children ++ added), hadded⟩ := (hs hok).children
      obtain ⟨c, hc⟩ := inlineAll_eq_eachOnceAll (fun child hchild => ih child hchild) sourced.state
      obtain ⟨d, hd⟩ : ∃ d, ∀ budget, d ≤ budget → ∀ child ∈ added, ∀ depth s,
          inlineWithin fetch budget depth child s = ⟨.ok (), child, s⟩ :=
        exists_budget fun child hchild => inlineWithin_of_settled (hadded child hchild)
      refine ⟨max b (max c d) + 1, fun budget hbudget => ?_⟩
      obtain ⟨budget, rfl⟩ := Nat.exists_eq_succ_of_ne_zero (by omega : budget ≠ 0)
      rw [inlineWithin, hb budget (by omega)]
      simp only [hok, hchildren, List.drop_left' rfl]
      rw [inlineAll_append fun child hchild => hd budget (by omega) child hchild depth,
        hc budget (by omega)]

end budget

theorem inlineWithin_eq_inlineOnce (hq : RootsLeaveNoSource fetch) (hl : levels ≤ maxInlineDepth)
    (n : Node) (s : σ) :
    ∃ b, ∀ budget, b ≤ budget →
      inlineWithin fetch budget (maxInlineDepth - levels) n s = inlineOnce fetch levels n s := by
  induction levels generalizing n s with
  | zero =>
    exact inlineWithin_eq_eachOnce hq (fun h => absurd h (Nat.lt_irrefl _))
      (fun h => absurd h (Nat.lt_irrefl _)) n s
  | succ levels ih =>
    refine inlineWithin_eq_eachOnce hq (fun _ => settles_inlineOnce hq levels) (fun _ root s => ?_) n s
    rw [show maxInlineDepth - (levels + 1) + 1 = maxInlineDepth - levels by omega]
    exact ih (by omega) root s

section bound

variable {source inlineOne : Node → σ → Inlined σ Node} {ns : List Node} {m : Node}

theorem eachOnceAll_finishes
    (h : ∀ n ∈ ns, ∀ s, (eachOnce source n s).outcome ≠ .error .outOfBudget) (s : σ) :
    (eachOnceAll source ns s).outcome ≠ .error .outOfBudget := by
  induction ns generalizing s with
  | nil => exact nofun
  | cons n ns ih =>
    rw [List.forall_mem_cons] at h
    have hfirst := h.1 s
    rw [eachOnceAll]
    cases hn : (eachOnce source n s).outcome with
    | error stop => rwa [hn] at hfirst
    | ok => exact ih h.2 _

theorem eachOnce_finishes (h : ∀ n s, (source n s).outcome ≠ .error .outOfBudget) (n : Node) (s : σ) :
    (eachOnce source n s).outcome ≠ .error .outOfBudget := by
  induction n using Node.induction generalizing s with
  | mk tag attributes text children tail ih =>
    have hsource := h (.mk tag attributes text children tail) s
    rw [eachOnce]
    cases hn : (source (.mk tag attributes text children tail) s).outcome with
    | error stop => rwa [hn] at hsource
    | ok => exact eachOnceAll_finishes ih _

theorem inlineSource_finishes
    (h : depth < maxInlineDepth → ∀ n s, (inlineOne n s).outcome ≠ .error .outOfBudget)
    (n : Node) (s : σ) :
    (inlineSource fetch inlineOne depth n s).outcome ≠ .error .outOfBudget := by
  unfold inlineSource inlineLibrary
  split
  next => exact nofun
  next src _ =>
    dsimp only
    split
    next => exact nofun
    next body after _ =>
      split_ifs with htag hdepth
      · exact nofun
      · split
        next => exact nofun
        next library _ =>
          have hlibrary := h (Nat.lt_of_not_le hdepth) library after
          split
          next stop hstop => rwa [hstop] at hlibrary
          next => exact nofun
      · exact nofun

theorem inlineOnce_finishes (levels : Nat) (n : Node) (s : σ) :
    (inlineOnce fetch levels n s).outcome ≠ .error .outOfBudget := by
  induction levels generalizing n s with
  | zero => exact eachOnce_finishes (inlineSource_finishes fun h => absurd h (Nat.lt_irrefl _)) n s
  | succ levels ih => exact eachOnce_finishes (inlineSource_finishes fun _ => ih) n s

theorem exists_sourced_of_mem_all
    (h : ∀ n ∈ ns, ∀ s, (eachOnce source n s).outcome = .ok () → m ∈ n.elements →
      ∃ s, (source m s).outcome = .ok ())
    (hok : (eachOnceAll source ns s).outcome = .ok ()) (hm : m ∈ Node.elementsAll ns) :
    ∃ s, (source m s).outcome = .ok () := by
  induction ns generalizing s with
  | nil => cases hm
  | cons n ns ih =>
    rw [List.forall_mem_cons] at h
    rw [eachOnceAll] at hok
    cases hfirst : (eachOnce source n s).outcome with
    | error stop =>
      simp only [hfirst] at hok
      cases hok
    | ok =>
      simp only [hfirst] at hok
      rw [Node.elementsAll, List.mem_append] at hm
      exact hm.elim (h.1 s hfirst) (ih h.2 hok)

/-- Where an element was inlined, each element in it had its resource put in. -/
theorem exists_sourced (hok : (eachOnce source n s).outcome = .ok ()) (hm : m ∈ n.elements) :
    ∃ s, (source m s).outcome = .ok () := by
  induction n using Node.induction generalizing s with
  | mk tag attributes text children tail ih =>
    rw [eachOnce] at hok
    cases hsource : (source (.mk tag attributes text children tail) s).outcome with
    | error stop =>
      simp only [hsource] at hok
      cases hok
    | ok =>
      simp only [hsource] at hok
      rw [Node.elements, List.mem_cons] at hm
      rcases hm with rfl | hm
      · exact ⟨s, hsource⟩
      · exact exists_sourced_of_mem_all (fun c hc s hok hm => ih c hc hok hm) hok hm

theorem exists_library_of_sourced {src : String} (htag : m.tag = "complib")
    (hsrc : m.attribute? "src" = some src)
    (hok : (inlineSource fetch inlineOne depth m s).outcome = .ok ()) :
    depth < maxInlineDepth ∧ ∃ body root after, (fetch src s).1 = .ok body ∧
      Markup.parse body = .ok root ∧ (inlineOne root after).outcome = .ok () := by
  have hsome : (if isSourceable m.tag then m.attribute? "src" else none) = some src := by
    rw [htag, hsrc]
    rfl
  have hkept : (m.removeAttribute "src").2.tag = "complib" := htag
  unfold inlineSource inlineLibrary at hok
  simp only [hsome] at hok
  split at hok
  next => cases hok
  next body after hf =>
    rw [if_pos hkept] at hok
    split_ifs at hok with hdepth
    split at hok
    next => cases hok
    next root hroot =>
      split at hok
      next => cases hok
      next hinner => exact ⟨Nat.lt_of_not_le hdepth, body, root, after, congrArg Prod.fst hf, hroot, hinner⟩

theorem not_nested_of_inlineOnce (hok : (inlineOnce fetch levels n s).outcome = .ok ()) :
    ¬ Nested fetch (levels + 1) n := by
  intro hn
  induction levels generalizing n s with
  | zero =>
    cases hn with
    | succ hm htag hsrc _ =>
      obtain ⟨s, hs⟩ := exists_sourced hok hm
      exact Nat.lt_irrefl _ (exists_library_of_sourced htag hsrc hs).1
  | succ levels ih =>
    cases hn with
    | succ hm htag hsrc inside =>
      obtain ⟨s, hs⟩ := exists_sourced hok hm
      obtain ⟨-, body, root, after, hbody, hroot, hinner⟩ := exists_library_of_sourced htag hsrc hs
      exact ih hinner (inside s body root hbody hroot)

end bound

/-- Inlining ends for every document and every server whose library roots leave no `src` behind: from
some budget on the result no longer depends on it, every element had its turn once, and a document
whose libraries are nested too deeply is refused. -/
theorem inlineSources_ends (hq : RootsLeaveNoSource fetch) (n : Node) (s : σ) :
    (∃ b, ∀ budget, b ≤ budget →
        inlineSources fetch budget n s = inlineOnce fetch maxInlineDepth n s) ∧
      (inlineOnce fetch maxInlineDepth n s).outcome ≠ .error .outOfBudget ∧
      (Nested fetch (maxInlineDepth + 1) n →
        (inlineOnce fetch maxInlineDepth n s).outcome ≠ .ok ()) := by
  refine ⟨?_, inlineOnce_finishes maxInlineDepth n s, fun hn hok => not_nested_of_inlineOnce hok hn⟩
  have h := inlineWithin_eq_inlineOnce hq (Nat.le_refl _) n s
  rwa [Nat.sub_self] at h

/-- A server with a fixed set of files, which counts what it is asked for. -/
def shelf (files : List (String × String)) : Fetch Nat := fun src asked =>
  match files.lookup src with
  | some body => (.ok body, asked + 1)
  | none => (.error (.network (.transport "no such file")), asked + 1)

/-- An element that refers to a library. -/
def libraryAt (src : String) : Node :=
  .mk "complib" [("src", src)] none [] none

/-- A library that refers to a library from below its root. -/
def libraryOf (src : String) : Node :=
  .mk "lib" [] none [libraryAt src] none

/-- A library that refers to itself. -/
def mirror : List (String × String) :=
  [("/0", "<lib><complib src=\"/0\"/></lib>")]

theorem answer_mirror {src body : String} {asked : Nat}
    (h : (shelf mirror src asked).1 = .ok body) : body = "<lib><complib src=\"/0\"/></lib>" := by
  unfold shelf at h
  split at h
  next found hfound =>
    cases h
    obtain ⟨before, after, heq, -⟩ := List.lookup_eq_some_iff.mp hfound
    have hmem : (src, body) ∈ mirror := heq ▸ List.mem_append_right _ List.mem_cons_self
    exact (Prod.mk.inj (List.mem_singleton.mp hmem)).2
  next => cases h

theorem parse_mirror : Markup.parse "<lib><complib src=\"/0\"/></lib>" =
    .ok (libraryOf "/0") := by
  cbv

theorem rootsLeaveNoSource_mirror : RootsLeaveNoSource (shelf mirror) := by
  intro src s body root hbody hroot
  rw [answer_mirror hbody, parse_mirror] at hroot
  cases hroot
  exact .inr rfl

theorem nested_mirror (k : Nat) (h : libraryAt "/0" ∈ n.elements) : Nested (shelf mirror) k n := by
  induction k generalizing n with
  | zero => exact .zero n
  | succ k ih =>
    refine .succ h rfl rfl fun s body root hbody hroot => ?_
    rw [answer_mirror hbody, parse_mirror] at hroot
    cases hroot
    exact ih (.tail _ (.head _))

theorem inlineSources_mirror :
    RootsLeaveNoSource (shelf mirror) ∧ Nested (shelf mirror) (maxInlineDepth + 1) (libraryAt "/0") ∧
      (∃ b, ∀ budget, b ≤ budget → inlineSources (shelf mirror) budget (libraryAt "/0") 0 =
        inlineOnce (shelf mirror) maxInlineDepth (libraryAt "/0") 0) ∧
      (inlineOnce (shelf mirror) maxInlineDepth (libraryAt "/0") 0).outcome ≠
        .error .outOfBudget ∧
      (inlineOnce (shelf mirror) maxInlineDepth (libraryAt "/0") 0).outcome ≠ .ok () := by
  have hnested := nested_mirror (maxInlineDepth + 1) (n := libraryAt "/0") (.head _)
  obtain ⟨hsame, hends, hbound⟩ := inlineSources_ends rootsLeaveNoSource_mirror (libraryAt "/0") 0
  exact ⟨rootsLeaveNoSource_mirror, hnested, hsame, hends, hbound hnested⟩

/-- Two libraries: the first refers to the second from below its root, and the second to the first at
its root. -/
def circle : List (String × String) :=
  [("/0", "<lib><complib src=\"/1\"/></lib>"), ("/1", "<lib src=\"/0\"/>")]

section libraryAt

variable {files : List (String × String)} {src body : String} {root : Node} {asked : Nat}

theorem inlineWithin_libraryAt (hbody : files.lookup src = some body)
    (hroot : Markup.parse body = .ok root) (hd : depth < maxInlineDepth) :
    inlineWithin (shelf files) (budget + 1) depth (libraryAt src) asked =
      let inlined := inlineWithin (shelf files) budget (depth + 1) root (asked + 1)
      match inlined.outcome with
      | .error stop => ⟨.error stop, .ofTag "complib", inlined.state⟩
      | .ok () =>
        let joined := joinLibrary (.ofTag "complib") inlined.value
        let below := inlineAll (inlineWithin (shelf files) budget depth) joined.children inlined.state
        ⟨below.outcome, joined.withChildren below.value, below.state⟩ := by
  have hsome : (if isSourceable (libraryAt src).tag then (libraryAt src).attribute? "src" else none) =
    some src := rfl
  have hbare : ((libraryAt src).removeAttribute "src").2 = .ofTag "complib" := rfl
  have hshelf : shelf files src asked = (.ok body, asked + 1) := by
    simp only [shelf, hbody]
  simp only [inlineWithin, inlineSource, hsome, hshelf, hbare]
  rw [if_pos (show (Node.ofTag "complib").tag = "complib" from rfl)]
  simp only [inlineLibrary, if_neg (Nat.not_le_of_lt hd), hroot]
  cases (inlineWithin (shelf files) budget (depth + 1) root (asked + 1)).outcome <;> rfl

end libraryAt

/-- Once the second library has joined, the element that referred to it refers to the first. -/
theorem inlineWithin_second (budget : Nat) (hd : depth < maxInlineDepth) (asked : Nat) :
    (inlineWithin (shelf circle) budget depth (libraryAt "/1") asked).outcome = .error .outOfBudget ∨
      inlineWithin (shelf circle) budget depth (libraryAt "/1") asked =
        ⟨.ok (), libraryAt "/0", asked + 1⟩ := by
  have hparse : Markup.parse "<lib src=\"/0\"/>" = .ok (.mk "lib" [("src", "/0")] none [] none) := by
    cbv
  rcases budget with _ | _ | budget
  · exact .inl rfl
  · rw [inlineWithin_libraryAt rfl hparse hd]
    exact .inl rfl
  · rw [inlineWithin_libraryAt rfl hparse hd]
    exact .inr rfl

theorem inlineWithin_libraryOf {src : String} :
    inlineWithin fetch (budget + 1) depth (libraryOf src) s =
      let first := inlineWithin fetch budget depth (libraryAt src) s
      ⟨first.outcome, .mk "lib" [] none [first.value] none, first.state⟩ := by
  have hplain : ¬ isSourceable "lib" := by decide
  have hsettled : Settled (libraryOf src).tag (libraryOf src).attributes := fun h => absurd h hplain
  rw [inlineWithin, inlineSource_of_settled hsettled]
  simp only [libraryOf, Node.children, inlineAll]
  cases (inlineWithin fetch budget depth (libraryAt src) s).outcome <;> rfl

theorem inlineWithin_first (budget : Nat) (hd : depth < maxInlineDepth) (asked : Nat) :
    (inlineWithin (shelf circle) budget depth (libraryOf "/1") asked).outcome = .error .outOfBudget ∨
      inlineWithin (shelf circle) budget depth (libraryOf "/1") asked =
        ⟨.ok (), libraryOf "/0", asked + 1⟩ := by
  cases budget with
  | zero => exact .inl rfl
  | succ budget =>
    rw [inlineWithin_libraryOf]
    rcases inlineWithin_second budget hd asked with hstop | hok
    · exact .inl hstop
    · rw [hok]
      exact .inr rfl

/-- After the two libraries have joined, an element that refers to the first is left below. -/
theorem inlineWithin_circle (hd : depth + 1 < maxInlineDepth) (asked : Nat) :
    (inlineWithin (shelf circle) budget depth (libraryAt "/0") asked).outcome =
      .error .outOfBudget := by
  have hparse : Markup.parse "<lib><complib src=\"/1\"/></lib>" = .ok (libraryOf "/1") := by cbv
  induction budget generalizing asked with
  | zero => rfl
  | succ budget ih =>
    have hjoined : (joinLibrary (.ofTag "complib") (libraryOf "/0")).children = [libraryAt "/0"] := rfl
    rw [inlineWithin_libraryAt rfl hparse (Nat.lt_of_succ_lt hd)]
    rcases inlineWithin_first budget hd (asked + 1) with hstop | hok
    · simp only [hstop]
    · simp only [hok, hjoined, inlineAll, ih (asked + 1 + 1)]

/-- Twenty libraries inside one another: each leads to the next through an element below its root and
the `src` that the root of that element's library leaves behind. -/
def ladder : List (String × String) :=
  ("/40", "<lib/>") :: (List.range 20).flatMap fun i =>
    [("/" ++ decimal (2 * i), "<lib><complib src=\"/" ++ decimal (2 * i + 1) ++ "\"/></lib>"),
      ("/" ++ decimal (2 * i + 1), "<lib src=\"/" ++ decimal (2 * i + 2) ++ "\"/>")]

/-- Elements without attributes inside one another. -/
def nest : Nat → Node
  | 0 => .ofTag "complib"
  | k + 1 => (Node.ofTag "complib").withChildren [nest k]

theorem libraries_unbounded :
    (∀ budget, (inlineSources (shelf circle) budget (libraryAt "/0") 0).outcome =
      .error .outOfBudget) ∧
    inlineSources (shelf ladder) 100 (libraryAt "/0") 0 = ⟨.ok (), nest 20, 41⟩ ∧
    maxInlineDepth < 20 := by
  have hladder : inlineSources (shelf ladder) 100 (libraryAt "/0") 0 = ⟨.ok (), nest 20, 41⟩ := by
    cbv
  exact ⟨fun budget => inlineWithin_circle (by decide) 0, hladder, by decide⟩

end Hypermedia.Session
