import Hypermedia.Markup.Reader
import Mathlib.Data.List.Basic

/-! Event streams: reading one gives a tree exactly if the stream is a way to write that tree, and a stream is read
exactly if it closes what it opens and all in it that counts is one element. -/
namespace Hypermedia.Markup

/-- Character data in pieces one after another, and asides anywhere among them; `none` stands for no piece. -/
inductive Pieces : Option String → List Event → Prop where
  | nil : Pieces none []
  | aside {slot es} (before : Pieces slot es) : Pieces slot (es ++ [.aside])
  | chars {slot es} (before : Pieces slot es) (piece : String) :
      Pieces (addChars slot piece) (es ++ [.chars piece])

mutual

/-- The ways to write an element without its tail; one without text and children may be a single event. -/
inductive Spells : Node → List Event → Prop where
  | single {tag attributes tail} : Spells (.mk tag attributes none [] tail) [.single tag attributes]
  | spread {tag attributes text children tail inner below} (data : Pieces text inner)
      (all : SpellsAll children below) :
      Spells (.mk tag attributes text children tail) (.start tag attributes :: (inner ++ below ++ [.stop]))

/-- The ways to write elements one after another, each with its tail behind it. -/
inductive SpellsAll : List Node → List Event → Prop where
  | nil : SpellsAll [] []
  | snoc {children n es own after} (before : SpellsAll children es) (last : Spells n own)
      (data : Pieces n.tail after) : SpellsAll (children ++ [n]) (es ++ own ++ after)

end

/-- The ways to write a tree; character data before and after the root does not count. -/
inductive Writes (n : Node) : List Event → Prop where
  | mk {left right before own after} (bare : n.tail = none) (front : Pieces left before) (root : Spells n own)
      (back : Pieces right after) : Writes n (before ++ own ++ after)

/-- How many more elements are open after an event. -/
def Event.rise : Event → Int
  | .start _ _ => 1
  | .stop => -1
  | _ => 0

def Event.begins : Event → Bool
  | .start _ _ | .single _ _ => true
  | _ => false

/-- How many more elements a stream opens than it closes. -/
def height : List Event → Int
  | [] => 0
  | e :: es => e.rise + height es

/-- How many elements of a stream begin where no element is open, if `level` elements are open before it. -/
def outermost (level : Int) : List Event → Nat
  | [] => 0
  | e :: es => (if level = 0 ∧ e.begins then 1 else 0) + outermost (level + e.rise) es

variable {n parent : Node} {es own events : List Event} {e : Event} {r after : Reading} {outer : List Node}
  {text slot : Option String} {children : List Node} {root : Option Node}

theorem withTail_self (n : Node) : n.withTail n.tail = n := by
  cases n
  rfl

theorem Reading.step_chars (piece : String) :
    Reading.step ⟨n :: outer, root⟩ (.chars piece) = .ok ⟨addText n piece :: outer, root⟩ :=
  rfl

theorem foldlM_step_append (h : es.foldlM Reading.step r = .ok after) (own : List Event) :
    (es ++ own).foldlM Reading.step r = own.foldlM Reading.step after := by
  rw [List.foldlM_append, h]
  rfl

theorem foldlM_step_concat (h : es.foldlM Reading.step r = .ok after) (e : Event) :
    (es ++ [e]).foldlM Reading.step r = after.step e := by
  rw [foldlM_step_append h]
  exact bind_pure _

section completeness

variable {tag : String} {attributes : List (String × String)} {tail : Option String}

theorem addText_of_empty (piece : String) :
    addText (.mk tag attributes text [] tail) piece = .mk tag attributes (addChars text piece) [] tail :=
  rfl

theorem addText_concat (piece : String) :
    addText (.mk tag attributes text (children ++ [n]) tail) piece =
      .mk tag attributes text (children ++ [n.withTail (addChars n.tail piece)]) tail := by
  simp only [addText, Node.children, List.getLast?_concat, List.dropLast_concat]
  rfl

/-- Character data before the first child is the text of an element. -/
theorem foldlM_text (h : Pieces slot es) :
    es.foldlM Reading.step ⟨.mk tag attributes none [] tail :: outer, root⟩ =
      .ok ⟨.mk tag attributes slot [] tail :: outer, root⟩ := by
  induction h with
  | nil => rfl
  | aside _ ih =>
    rw [foldlM_step_concat ih]
    rfl
  | chars _ piece ih =>
    rw [foldlM_step_concat ih]
    rw [Reading.step_chars, addText_of_empty]

/-- Character data after a child is the tail of that child. -/
theorem foldlM_tail (h : Pieces slot es) :
    es.foldlM Reading.step ⟨.mk tag attributes text (children ++ [n.withTail none]) tail :: outer, root⟩ =
      .ok ⟨.mk tag attributes text (children ++ [n.withTail slot]) tail :: outer, root⟩ := by
  induction h with
  | nil => rfl
  | aside _ ih =>
    rw [foldlM_step_concat ih]
    rfl
  | chars _ piece ih =>
    rw [foldlM_step_concat ih]
    rw [Reading.step_chars, addText_concat]
    rfl

/-- Character data where no element is open is dropped. -/
theorem foldlM_outside (h : Pieces slot es) :
    es.foldlM Reading.step ⟨[], root⟩ = .ok ⟨[], root⟩ := by
  induction h with
  | nil => rfl
  | aside _ ih =>
    rw [foldlM_step_concat ih]
    rfl
  | chars _ _ ih =>
    rw [foldlM_step_concat ih]
    rfl

/-- Reading an element closes it, whatever is open around it; reading elements one after another adds them to the
open element. -/
theorem foldlM_of_spells (h : Spells n own) :
    ∀ r : Reading, own.foldlM Reading.step r = r.close (n.withTail none) := by
  refine @Spells.rec (fun n own _ => ∀ r : Reading, own.foldlM Reading.step r = r.close (n.withTail none))
    (fun children es _ => ∀ tag attributes text tail outer root,
      es.foldlM Reading.step ⟨.mk tag attributes text [] tail :: outer, root⟩ =
        .ok ⟨.mk tag attributes text children tail :: outer, root⟩)
    ?single ?spread ?nil ?snoc n own h
  case single =>
    intro tag attributes tail r
    exact bind_pure _
  case spread =>
    intro tag attributes text children tail inner below data all hall r
    have hbelow : (inner ++ below).foldlM Reading.step ⟨.mk tag attributes none [] none :: r.opened, r.root⟩ =
        .ok ⟨.mk tag attributes text children none :: r.opened, r.root⟩ := by
      rw [foldlM_step_append (foldlM_text data)]
      exact hall _ _ _ _ _ _
    rw [List.foldlM_cons]
    exact foldlM_step_concat hbelow .stop
  case nil =>
    intro tag attributes text tail outer root
    rfl
  case snoc =>
    intro children n es own after before last data hbefore hlast tag attributes text tail outer root
    have hown : (es ++ own).foldlM Reading.step ⟨.mk tag attributes text [] tail :: outer, root⟩ =
        .ok ⟨.mk tag attributes text (children ++ [n.withTail none]) tail :: outer, root⟩ := by
      rw [foldlM_step_append (hbefore _ _ _ _ _ _)]
      exact hlast _
    rw [foldlM_step_append hown, foldlM_tail data, withTail_self]

end completeness

section soundness

/-- The ways to write an element as far as it goes while it is open. -/
inductive Begins : Node → List Event → Prop where
  | mk {tag attributes text children inner below} (data : Pieces text inner) (all : SpellsAll children below) :
      Begins (.mk tag attributes text children none) (.start tag attributes :: (inner ++ below))

/-- What was read when a reading has come to `r`: data outside, perhaps a root, and the elements that are open. -/
inductive Reads : Reading → List Event → Prop where
  | blank {left before} (front : Pieces left before) : Reads ⟨[], none⟩ before
  | root {n left right before own after} (bare : n.tail = none) (front : Pieces left before) (spells : Spells n own)
      (back : Pieces right after) : Reads ⟨[], some n⟩ (before ++ own ++ after)
  | inner {n opened root es own} (around : Reads ⟨opened, root⟩ es) (begun : Begins n own) :
      Reads ⟨n :: opened, root⟩ (es ++ own)

theorem Spells.withTail (h : Spells n own) (tail : Option String) : Spells (n.withTail tail) own := by
  cases h with
  | single => exact .single
  | spread data all => exact .spread data all

theorem Begins.child (h : Begins parent es) (hn : Spells n own) (hbare : n.tail = none) :
    Begins (parent.withChildren (parent.children ++ [n])) (es ++ own) := by
  obtain @⟨tag, attributes, text, children, inner, below, data, all⟩ := h
  have hall := all.snoc hn (hbare ▸ Pieces.nil)
  have hbegins : Begins (.mk tag attributes text (children ++ [n]) none) _ := .mk data hall
  show Begins (.mk tag attributes text (children ++ [n]) none) _
  simpa using hbegins

theorem Begins.chars (h : Begins n es) (piece : String) : Begins (addText n piece) (es ++ [.chars piece]) := by
  obtain ⟨data, all⟩ := h
  cases all with
  | nil =>
    rw [addText_of_empty]
    simpa using Begins.mk (data.chars piece) .nil
  | @snoc _ n _ _ _ before last behind =>
    have hlast := last.withTail (addChars n.tail piece)
    rw [addText_concat]
    simpa using Begins.mk data (before.snoc hlast (behind.chars piece))

theorem Begins.aside (h : Begins n es) : Begins n (es ++ [.aside]) := by
  obtain ⟨data, all⟩ := h
  cases all with
  | nil => simpa using Begins.mk data.aside .nil
  | snoc before last behind => simpa using Begins.mk data (before.snoc last behind.aside)

theorem Begins.stop (h : Begins n es) : Spells n (es ++ [.stop]) ∧ n.tail = none := by
  obtain ⟨data, all⟩ := h
  exact ⟨.spread data all, rfl⟩

theorem Reads.close (h : Reads r es) (hn : Spells n own) (hbare : n.tail = none) (hclose : r.close n = .ok after) :
    Reads after (es ++ own) := by
  cases h with
  | blank front =>
    cases hclose
    simpa using Reads.root hbare front hn .nil
  | root => cases hclose
  | inner around begun =>
    cases hclose
    rw [List.append_assoc]
    exact .inner around (begun.child hn hbare)

/-- Each event takes what was read one event further. -/
theorem Reads.step (h : Reads r es) (hstep : r.step e = .ok after) : Reads after (es ++ [e]) := by
  cases e with
  | start tag attributes =>
    cases hstep
    exact .inner h (.mk .nil .nil)
  | single tag attributes => exact h.close .single rfl hstep
  | stop =>
    cases h with
    | blank | root => cases hstep
    | inner around begun =>
      obtain ⟨hspells, hbare⟩ := begun.stop
      rw [List.append_assoc]
      exact around.close hspells hbare hstep
  | chars piece =>
    cases h with
    | blank front =>
      cases hstep
      exact .blank (front.chars piece)
    | root bare front spells back =>
      cases hstep
      simpa using Reads.root bare front spells (back.chars piece)
    | inner around begun =>
      cases hstep
      rw [List.append_assoc]
      exact .inner around (begun.chars piece)
  | aside =>
    cases hstep
    cases h with
    | blank front => exact .blank front.aside
    | root bare front spells back => simpa using Reads.root bare front spells back.aside
    | inner around begun =>
      rw [List.append_assoc]
      exact .inner around begun.aside

theorem Reads.run (h : Reads r es) (hrun : own.foldlM Reading.step r = .ok after) : Reads after (es ++ own) := by
  induction own generalizing r es with
  | nil =>
    cases hrun
    simpa using h
  | cons e own ih =>
    rw [List.foldlM_cons] at hrun
    cases hstep : r.step e with
    | error fault =>
      rw [hstep] at hrun
      cases hrun
    | ok next =>
      rw [hstep] at hrun
      simpa using ih (h.step hstep) hrun

end soundness

section counts

/-- How many elements began where none was open: the root, and the outermost of those that are open. -/
def Reading.begun (r : Reading) : Nat :=
  r.root.toList.length + if r.opened = [] then 0 else 1

@[simp]
theorem Reading.begun_nil : Reading.begun ⟨[], root⟩ = root.toList.length :=
  rfl

@[simp]
theorem Reading.begun_cons : Reading.begun ⟨n :: outer, root⟩ = root.toList.length + 1 :=
  rfl

theorem height_cons : height (e :: es) = e.rise + height es :=
  rfl

/-- What an event adds to the elements that began where none was open. -/
theorem outermost_cons (opened : List Node) : outermost opened.length (e :: es) =
    (if opened = [] ∧ e.begins then 1 else 0) + outermost (opened.length + e.rise) es := by
  simp [outermost]

theorem counts_close (h : r.close n = .ok after) :
    after.opened.length = r.opened.length ∧ after.begun = if r.opened = [] then 1 else r.begun := by
  obtain ⟨opened, root⟩ := r
  cases opened with
  | cons parent outer =>
    cases h
    simp
  | nil =>
    cases root with
    | none =>
      cases h
      simp
    | some _ => cases h

theorem root_of_close (h : Reading.close ⟨[], root⟩ n = .ok after) : root = none := by
  cases root with
  | none => rfl
  | some _ => cases h

theorem exists_close (h : r.opened ≠ [] ∨ r.root = none) (n : Node) : ∃ after, r.close n = .ok after := by
  obtain ⟨opened, root⟩ := r
  cases opened with
  | cons parent outer => exact ⟨_, rfl⟩
  | nil =>
    obtain rfl : root = none := h.resolve_left fun hne => hne rfl
    exact ⟨_, rfl⟩

/-- An event that is read changes the two counts by what it weighs. -/
theorem counts_step (h : r.step e = .ok after) :
    (after.opened.length : Int) = r.opened.length + e.rise ∧
      after.begun = r.begun + if r.opened = [] ∧ e.begins then 1 else 0 := by
  obtain ⟨opened, root⟩ := r
  cases e with
  | start tag attributes =>
    cases h
    cases opened <;> simp [Event.rise, Event.begins]
  | single tag attributes =>
    obtain ⟨hopened, hbegun⟩ := counts_close h
    cases opened with
    | nil =>
      obtain rfl : root = none := root_of_close h
      simp [hopened, hbegun, Event.rise, Event.begins]
    | cons n outer => simp [hopened, hbegun, Event.rise]
  | stop =>
    cases opened with
    | nil => cases h
    | cons n outer =>
      obtain ⟨hopened, hbegun⟩ := counts_close h
      cases outer with
      | nil =>
        obtain rfl : root = none := root_of_close h
        simp [hopened, hbegun, Event.rise]
      | cons parent outer =>
        refine ⟨?_, by simp [hbegun]⟩
        simp only [hopened, List.length_cons, Event.rise]
        omega
  | chars piece =>
    cases opened with
    | nil =>
      cases h
      simp [Event.rise, Event.begins]
    | cons n outer =>
      cases h
      simp [Event.rise]
  | aside =>
    cases h
    simp [Event.rise, Event.begins]

/-- An event is read if it closes nothing that is not open and begins no second root. -/
theorem exists_step (hrise : 0 ≤ (r.opened.length : Int) + e.rise)
    (hbegun : r.begun + (if r.opened = [] ∧ e.begins then 1 else 0) ≤ 1) :
    ∃ after, r.step e = .ok after := by
  obtain ⟨opened, root⟩ := r
  cases e with
  | start tag attributes => exact ⟨_, rfl⟩
  | single tag attributes =>
    refine exists_close ?_ _
    cases opened with
    | cons n outer => exact .inl (by simp)
    | nil =>
      cases root with
      | none => exact .inr rfl
      | some n => simp [Event.begins] at hbegun
  | stop =>
    cases opened with
    | nil => simp [Event.rise] at hrise
    | cons n outer =>
      refine exists_close ?_ _
      cases root with
      | none => exact .inr rfl
      | some n => simp at hbegun
  | chars piece =>
    cases opened with
    | nil => exact ⟨_, rfl⟩
    | cons n outer => exact ⟨_, rfl⟩
  | aside => exact ⟨_, rfl⟩

theorem counts_run (h : events.foldlM Reading.step r = .ok after) :
    (after.opened.length : Int) = r.opened.length + height events ∧
      after.begun = r.begun + outermost r.opened.length events ∧
      ∀ k, 0 ≤ (r.opened.length : Int) + height (events.take k) := by
  induction events generalizing r with
  | nil =>
    cases h
    simp [height, outermost]
  | cons e events ih =>
    rw [List.foldlM_cons] at h
    cases hstep : r.step e with
    | error fault =>
      rw [hstep] at h
      cases h
    | ok next =>
      rw [hstep] at h
      obtain ⟨hopened, hbegun⟩ := counts_step hstep
      obtain ⟨hopened', hbegun', hnever⟩ := ih h
      rw [hopened] at hopened' hbegun' hnever
      refine ⟨?_, ?_, fun k => ?_⟩
      · rw [hopened', height_cons, Int.add_assoc]
      · rw [hbegun', hbegun, outermost_cons, Nat.add_assoc]
      · cases k with
        | zero => simp [height]
        | succ k =>
          rw [List.take_succ_cons, height_cons, ← Int.add_assoc]
          exact hnever k

theorem exists_run (hrise : ∀ k, 0 ≤ (r.opened.length : Int) + height (events.take k))
    (hbegun : r.begun + outermost r.opened.length events ≤ 1) :
    ∃ after, events.foldlM Reading.step r = .ok after := by
  induction events generalizing r with
  | nil => exact ⟨r, rfl⟩
  | cons e events ih =>
    have hone : 0 ≤ (r.opened.length : Int) + e.rise := by simpa [height] using hrise 1
    rw [outermost_cons] at hbegun
    obtain ⟨next, hstep⟩ := exists_step hone (by omega)
    obtain ⟨hopened, hcount⟩ := counts_step hstep
    obtain ⟨after, hafter⟩ : ∃ after, events.foldlM Reading.step next = .ok after := by
      refine ih (fun k => ?_) ?_
      · have hk := hrise (k + 1)
        rwa [List.take_succ_cons, height_cons, ← Int.add_assoc, ← hopened] at hk
      · rw [hcount, hopened]
        omega
    refine ⟨after, ?_⟩
    rw [List.foldlM_cons, hstep]
    exact hafter

theorem result_eq_ok_iff : r.result = .ok n ↔ r = ⟨[], some n⟩ := by
  obtain ⟨opened, root⟩ := r
  cases opened with
  | cons m outer => simp [Reading.result]
  | nil => cases root <;> simp [Reading.result]

theorem exists_result_iff : (∃ n, r.result = .ok n) ↔ r.opened = [] ∧ r.begun = 1 := by
  obtain ⟨opened, root⟩ := r
  cases opened with
  | cons m outer => simp [result_eq_ok_iff]
  | nil => cases root <;> simp [result_eq_ok_iff, Reading.begun]

end counts

section results

theorem ofEvents_eq_ok_iff : ofEvents events = .ok n ↔ events.foldlM Reading.step {} = .ok ⟨[], some n⟩ := by
  unfold ofEvents
  cases hrun : events.foldlM Reading.step {} with
  | error fault => simp [bind, Except.bind]
  | ok r =>
    rw [Except.ok.injEq, ← result_eq_ok_iff]
    exact Iff.rfl

theorem ofEvents_of_writes (h : Writes n events) : ofEvents events = .ok n := by
  obtain ⟨bare, front, spells, back⟩ := h
  have hroot : n.withTail none = n := bare ▸ withTail_self n
  rw [ofEvents_eq_ok_iff, List.append_assoc, foldlM_step_append (foldlM_outside front)]
  rw [foldlM_step_append ((foldlM_of_spells spells _).trans rfl), hroot]
  exact foldlM_outside back

theorem writes_of_ofEvents (h : ofEvents events = .ok n) : Writes n events := by
  have hrun := Reads.run (.blank .nil) (ofEvents_eq_ok_iff.mp h)
  cases hrun with
  | root bare front spells back => exact .mk bare front spells back

/-- A stream is read if it never closes more than it opened, leaves nothing open and has one root. -/
theorem exists_ofEvents_iff : (∃ n, ofEvents events = .ok n) ↔
    (∀ k, 0 ≤ height (events.take k)) ∧ height events = 0 ∧ outermost 0 events = 1 := by
  constructor
  · rintro ⟨n, h⟩
    obtain ⟨hheight, hbegun, hnever⟩ := counts_run (ofEvents_eq_ok_iff.mp h)
    refine ⟨fun k => by simpa using hnever k, by simpa using hheight.symm, ?_⟩
    simpa [Reading.begun] using hbegun.symm
  · rintro ⟨hnever, hheight, hone⟩
    obtain ⟨after, hrun⟩ := exists_run (r := {}) (fun k => by simpa using hnever k) (by simp [Reading.begun, hone])
    obtain ⟨hopened, hbegun, -⟩ := counts_run hrun
    have hresult : ∃ n, after.result = .ok n :=
      exists_result_iff.mpr ⟨by simpa [hheight] using hopened, by simpa [Reading.begun, hone] using hbegun⟩
    obtain ⟨n, hn⟩ := hresult
    rw [result_eq_ok_iff.mp hn] at hrun
    exact ⟨n, ofEvents_eq_ok_iff.mpr hrun⟩

theorem pieces_charsOf (slot : Option String) : Pieces slot (charsOf slot) := by
  cases slot with
  | none => exact .nil
  | some piece =>
    have hpiece : addChars none piece = some piece := by simp [addChars]
    exact hpiece ▸ Pieces.nil.chars piece

theorem spellsAll_append {more : List Node} {own : List Event} (h : SpellsAll children es)
    (hmore : SpellsAll more own) : SpellsAll (children ++ more) (es ++ own) := by
  cases hmore with
  | nil => simpa using h
  | snoc before last data =>
    have hbefore := spellsAll_append h before
    simpa using hbefore.snoc last data
termination_by more.length

mutual

theorem exists_spells_linear : (n : Node) → ∃ own, Spells n own ∧ linear n = own ++ charsOf n.tail
  | .mk tag attributes text children tail => by
    have hall := spellsAll_linearAll children
    exact ⟨_, .spread (pieces_charsOf text) hall, by simp [linear, Node.tail]⟩

theorem spellsAll_linearAll : (children : List Node) → SpellsAll children (linearAll children)
  | [] => .nil
  | n :: rest => by
    obtain ⟨own, hown, heq⟩ := exists_spells_linear n
    have hfirst := SpellsAll.nil.snoc hown (pieces_charsOf n.tail)
    simpa [linearAll, heq] using spellsAll_append hfirst (spellsAll_linearAll rest)

end

theorem writes_linear (n : Node) : Writes (n.withTail none) (linear (n.withTail none)) := by
  obtain ⟨own, hown, heq⟩ := exists_spells_linear (n.withTail none)
  have htail : (n.withTail none).tail = none := rfl
  simpa [heq, htail, charsOf] using Writes.mk htail .nil hown .nil

/-- A text is read as a tree exactly if it has no fault and its events write that tree. -/
theorem parse_eq_ok_iff {text : String} (hmark : ∀ c ∈ text.toList.head?, c.toNat ≠ 0xFEFF) :
    parse text = .ok n ↔ (scan [] text.toList).2 = false ∧ Writes n (scan [] text.toList).1 := by
  have hwrites : Writes n (scan [] text.toList).1 ↔ ofEvents (scan [] text.toList).1 = .ok n :=
    ⟨ofEvents_of_writes, writes_of_ofEvents⟩
  rw [hwrites, ofEvents, parse]
  cases hchars : text.toList with
  | nil => simp [scan, bind, Except.bind, pure, Except.pure]
  | cons c rest =>
    have hc : c.toNat ≠ 0xFEFF := hmark c (by simp [hchars])
    simp only [hc, if_false]
    obtain ⟨events, fault⟩ := scan [] (c :: rest)
    cases hrun : events.foldlM Reading.step {} with
    | error e => cases fault <;> simp [bind, Except.bind]
    | ok r => cases fault <;> simp [bind, Except.bind]

/-- Reading inverts writing: a tree is what comes of the streams that write it and of no others, and there is one for
each tree whose root has no tail. A stream is turned down if an element of it is left open or closed without being
open, and if it has not one root. -/
theorem reading_inverts_writing :
    (∀ n events, ofEvents events = .ok n ↔ Writes n events) ∧
      (∀ n : Node, Writes (n.withTail none) (linear (n.withTail none))) ∧
      ∀ events, (∃ n, ofEvents events = .ok n) ↔
        (∀ k, 0 ≤ height (events.take k)) ∧ height events = 0 ∧ outermost 0 events = 1 :=
  ⟨fun _ _ => ⟨writes_of_ofEvents, ofEvents_of_writes⟩, writes_linear, fun _ => exists_ofEvents_iff⟩

example : ofEvents [.aside, .start "a" [], .chars "x", .aside, .chars "y", .single "b" [], .chars "z", .stop] =
    .ok (.mk "a" [] (some "xy") [.mk "b" [] none [] (some "z")] none) := by
  rfl

end results

end Hypermedia.Markup
