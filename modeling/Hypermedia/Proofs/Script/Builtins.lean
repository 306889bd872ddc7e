import Hypermedia.Proofs.Script.Operations
import Hypermedia.Script.Interpreter

/-! Functions that come with the program come by no widget on their own. -/
namespace Hypermedia.Script

open Act

variable {P : WidgetId → Prop} {α : Type} [Confinable α] (c : Invocation) (hc : Confined P c.arguments)

namespace Invocation

variable (n : Nat)

include hc in
theorem confined_value : Confined P (c.value n) :=
  confined_getD hc confined_nil _

theorem safe_fail (message : String) : (c.fail message : Act α).Safe P :=
  safe_raiseAt _ _

theorem safe_argumentFault (message : Bytes) : (c.argumentFault n message : Act α).Safe P := by
  unfold argumentFault
  exact safe_raiseAt _ _

theorem safe_typeFault (expected : String) : (c.typeFault n expected : Act α).Safe P := by
  have hfault (got : Bytes) (_ : Confined P got) :
      (c.argumentFault n (Bytes.ofString (expected ++ " expected, got ") ++ got) : Act α).Safe P :=
    c.safe_argumentFault n _
  exact safe_ite (safe_bind (safe_look fun _ _ => trivial) hfault) (safe_bind (safe_pure trivial) hfault)

include hc in
theorem safe_any : (c.any n).Safe P :=
  safe_ite (safe_pure (c.confined_value hc n)) (c.safe_argumentFault n _)

theorem safe_table : (c.table n).Safe P := by
  unfold table
  split
  · exact safe_pure trivial
  · exact c.safe_typeFault n _

theorem safe_number : (c.number n).Safe P := by
  unfold number
  split
  · exact safe_pure trivial
  · exact c.safe_typeFault n _

theorem safe_int : (c.int n).Safe P := by
  refine safe_bind (c.safe_number n) fun x _ => ?_
  split
  · exact safe_pure trivial
  · exact c.safe_argumentFault n _

theorem safe_intOr (d : Int64) : (c.intOr n d).Safe P :=
  safe_ite (safe_pure trivial) (c.safe_int n)

theorem safe_text : (c.text n).Safe P := by
  unfold text
  split
  · exact safe_pure trivial
  · exact c.safe_typeFault n _

theorem safe_textOr (d : Bytes) : (c.textOr n d).Safe P :=
  safe_ite (safe_pure trivial) (c.safe_text n)

theorem safe_conversionFault (target : String) : (c.conversionFault n target : Act α).Safe P :=
  safe_fault _

theorem safe_asText : (c.asText n).Safe P :=
  safe_orFault_textArgument _ _ _

theorem safe_asFunction : (c.asFunction n).Safe P := by
  unfold asFunction
  split
  · exact safe_pure trivial
  · exact c.safe_conversionFault n _

theorem safe_asTable : (c.asTable n).Safe P := by
  unfold asTable
  split
  · exact safe_pure trivial
  · exact c.safe_conversionFault n _

theorem safe_asFloatOr (d : Float) : (c.asFloatOr n d).Safe P := by
  refine safe_ite (safe_pure trivial) ?_
  split
  · exact safe_pure trivial
  · exact c.safe_conversionFault n _

end Invocation

namespace Library

section base

theorem safe_raiseFrom (level : Int64) {error : Value} (h : Confined P error) :
    (raiseFrom level error : Act α).Safe P := by
  unfold raiseFrom
  split
  · exact safe_ite (safe_bind (safe_caller _) fun _ _ => safe_raiseAt _ _) (safe_raise h)
  · exact safe_raise h

include hc

theorem safe_assert : (assert c).Safe P := by
  refine safe_ite (safe_pure hc) ?_
  refine safe_bind (c.safe_any hc 1) fun _ _ => safe_raiseFrom 1 ?_
  split
  · exact c.confined_value hc 2
  · exact nofun

theorem safe_metatableOf : (metatableOf c).Safe P := by
  refine safe_bind (c.safe_any hc 1) fun v hv => ?_
  split
  · exact safe_pure (confined_singleton nofun)
  · refine safe_bind (safe_look fun _ _ _ _ => trivial) fun m _ => ?_
    split
    · exact safe_pure (confined_singleton confined_nil)
    · refine safe_bind (safe_look fun w hw => Table.confined_field (World.confined_table hw _) _) fun shown hshown => ?_
      refine safe_pure (confined_singleton ?_)
      split
      · exact nofun
      · exact hshown

omit hc in
theorem safe_setMetatable : (setMetatable c).Safe P := by
  refine safe_bind (c.safe_table 1) fun t _ => ?_
  extract_lets set
  have hset (m : Option TableId) : (set m).Safe P := by
    refine safe_bind (safe_metamethod _ _) fun guard _ => safe_unless (c.safe_fail _) ?_
    refine safe_bind (safe_change fun w hw => ?_) fun _ _ => safe_pure (confined_singleton nofun)
    exact World.confined_modifyTable (f := fun table => { table with metatable := m }) hw (fun _ ht => ht) t
  split
  · exact hset _
  · exact safe_ite (hset none) (c.safe_typeFault 2 _)
  · exact c.safe_typeFault 2 _

omit hc in
theorem safe_next : (next c).Safe P := by
  refine safe_bind (c.safe_table 1) fun t _ => ?_
  refine safe_bind (safe_look fun w hw => Table.confined_next? (World.confined_table hw t) _) fun found hfound => ?_
  split
  · next key value =>
    obtain ⟨hkey, hvalue⟩ := hfound _ rfl _ rfl
    exact safe_pure (confined_cons hkey (confined_singleton hvalue))
  · exact safe_pure (confined_singleton confined_nil)
  · exact safe_raiseAt _ _

theorem safe_nextItem : (nextItem c).Safe P := by
  refine safe_bind (c.safe_int 2) fun i _ => ?_
  refine safe_bind (safe_index (c.confined_value hc 1) (confined_of_widget? rfl) _ _) fun v hv => safe_pure ?_
  split
  · exact confined_singleton confined_nil
  · exact confined_cons nofun (confined_singleton hv)

theorem safe_pairs : (pairs c).Safe P := by
  refine safe_bind (c.safe_any hc 1) fun v hv => ?_
  refine safe_bind (safe_metamethod _ _) fun m hm => safe_ite (safe_pure ?_) ?_
  · exact confined_cons nofun (confined_cons hv (confined_singleton confined_nil))
  · refine safe_bind (safe_call hm (confined_singleton hv) _) fun vs hvs => safe_pure ?_
    have hvalue (i : Nat) : Confined P (vs.getD i .nil) := confined_getD hvs confined_nil i
    exact confined_cons (hvalue 0) (confined_cons (hvalue 1) (confined_singleton (hvalue 2)))

omit hc in
theorem safe_guardedCall {f : Value} {arguments : List Value} (hf : Confined P f) (h : Confined P arguments) :
    (guardedCall f arguments).Safe P :=
  safe_guarded (safe_bind (safe_call hf h _) fun _ hvs => safe_pure hvs)

theorem safe_protectedCall : (protectedCall c).Safe P := by
  refine safe_bind (c.safe_any hc 1) fun f hf => ?_
  have htail : Confined P c.arguments.tail := confined_of_subset hc (List.tail_sublist _).subset
  refine safe_bind (safe_guardedCall hf htail) fun ended hended => ?_
  split
  · exact safe_pure (confined_cons nofun (hended.2 _ rfl))
  · exact safe_pure (confined_cons nofun (confined_singleton (hended.1 _ rfl)))

omit hc in
theorem safe_handleError {handler e : Value} (hhandler : Confined P handler) (n : Nat) (he : Confined P e) :
    (handleError handler n e).Safe P := by
  induction n generalizing e with
  | zero => exact safe_pure nofun
  | succ n ih =>
    refine safe_bind (safe_guardedCall hhandler (confined_singleton he)) fun ended hended => ?_
    split
    · exact safe_pure (confined_first (hended.2 _ rfl))
    · exact ih (hended.1 _ rfl)

theorem safe_handledCall : (handledCall c).Safe P := by
  unfold handledCall
  split
  · have hrest : Confined P (c.arguments.drop 2) := confined_of_subset hc (List.drop_subset _ _)
    refine safe_bind (safe_guardedCall (c.confined_value hc 1) hrest) fun ended hended => ?_
    split
    · exact safe_pure (confined_cons nofun (hended.2 _ rfl))
    · refine safe_bind (safe_handleError (c.confined_value hc 2) 10 (hended.1 _ rfl)) fun e he => ?_
      exact safe_pure (confined_cons nofun (confined_singleton he))
  · exact c.safe_typeFault 2 _

theorem safe_select : (select c).Safe P := by
  unfold select
  extract_lets count
  have hrest (n : Nat) : Confined P (c.arguments.tail.drop n) :=
    confined_of_subset hc (List.Subset.trans (List.drop_subset _ _) (List.tail_sublist _).subset)
  split
  · exact safe_pure (confined_singleton nofun)
  · refine safe_bind (c.safe_int 1) fun i _ => safe_ite (safe_pure (hrest _)) ?_
    exact safe_ite (safe_pure (hrest _)) (c.safe_argumentFault 1 _)

theorem safe_toNumber : (toNumber c).Safe P := by
  refine safe_ite ?_ ?_
  · split
    · exact safe_pure (confined_singleton nofun)
    · exact safe_bind (c.safe_any hc 1) fun _ _ => safe_pure (confined_singleton confined_nil)
  · refine safe_bind (c.safe_int 2) fun base _ => ?_
    split
    · refine safe_ite ?_ (c.safe_argumentFault 2 _)
      split
      · exact safe_pure (confined_singleton nofun)
      · exact safe_pure (confined_singleton confined_nil)
    · exact c.safe_typeFault 1 _

omit hc in
theorem safe_rawLength : (rawLength c).Safe P := by
  unfold rawLength
  split
  · exact safe_bind (safe_look fun _ _ => trivial) fun _ _ => safe_pure (confined_singleton nofun)
  · exact safe_pure (confined_singleton nofun)
  · exact c.safe_typeFault 1 _

theorem safe_base (f : BaseFunction) : (base c f).Safe P := by
  cases f with
  | assert => exact safe_assert c hc
  | error => exact safe_bind (c.safe_intOr 2 1) fun level _ => safe_raiseFrom level (c.confined_value hc 1)
  | getmetatable => exact safe_metatableOf c hc
  | ipairs =>
    refine safe_bind (c.safe_any hc 1) fun v hv => safe_pure ?_
    exact confined_cons nofun (confined_cons hv (confined_singleton nofun))
  | next => exact safe_next c
  | pairs => exact safe_pairs c hc
  | pcall => exact safe_protectedCall c hc
  | rawequal =>
    refine safe_bind (c.safe_any hc 1) fun _ _ => ?_
    exact safe_bind (c.safe_any hc 2) fun _ _ => safe_pure (confined_singleton nofun)
  | rawget =>
    refine safe_bind (c.safe_table 1) fun t _ => safe_bind (c.safe_any hc 2) fun key _ => ?_
    refine safe_bind (safe_look fun w hw => Table.confined_get (World.confined_table hw t) key) fun v hv => ?_
    exact safe_pure (confined_singleton hv)
  | rawlen => exact safe_rawLength c
  | rawset =>
    refine safe_bind (c.safe_table 1) fun t _ => safe_bind (c.safe_any hc 2) fun key hkey => ?_
    refine safe_bind (c.safe_any hc 3) fun value hvalue => ?_
    exact safe_bind (safe_rawSet t hkey hvalue none) fun _ _ => safe_pure (confined_singleton nofun)
  | select => exact safe_select c hc
  | setmetatable => exact safe_setMetatable c
  | tonumber => exact safe_toNumber c hc
  | tostring =>
    refine safe_bind (c.safe_any hc 1) fun v hv => ?_
    exact safe_bind (safe_toText hv) fun _ _ => safe_pure (confined_singleton nofun)
  | type => exact safe_ite (safe_pure (confined_singleton nofun)) (c.safe_argumentFault 1 _)
  | xpcall => exact safe_handledCall c hc
  | print => exact safe_pure nofun

end base

section sequences

variable {v x y pivot : Value}

theorem safe_item (hv : Confined P v) (i : Int64) : (item v i).Safe P :=
  safe_index hv (confined_of_widget? rfl) _ _

theorem safe_setItem (hv : Confined P v) (i : Int64) (hx : Confined P x) : (setItem v i x).Safe P :=
  safe_setIndex hv (confined_of_widget? rfl) hx _ _

theorem safe_actsAsTable (v : Value) (events : List String) : (actsAsTable v events).Safe P := by
  induction events with
  | nil => exact safe_pure trivial
  | cons event rest ih => exact safe_bind (safe_metamethod _ _) fun _ _ => safe_ite (safe_pure trivial) ih

theorem safe_lengthOf (hv : Confined P v) : (lengthOf c v).Safe P := by
  refine safe_bind (safe_length _ _ hv) fun n _ => ?_
  split
  · split
    · exact safe_pure trivial
    · exact c.safe_fail _
  · split
    · exact safe_pure trivial
    · exact c.safe_fail _
  · exact c.safe_fail _

theorem safe_itemText (hv : Confined P v) (i : Int64) : (itemText c v i).Safe P := by
  refine safe_bind (safe_item hv i) fun x _ => ?_
  split
  · exact safe_pure trivial
  · exact c.safe_fail _

theorem safe_joinFrom (hv : Confined P v) (separator : Bytes) (n : Nat) (i : Int64) :
    (joinFrom c v separator n i).Safe P := by
  induction n generalizing i with
  | zero => exact safe_pure nofun
  | succ n ih =>
    cases n with
    | zero => exact safe_bind (safe_itemText c hv i) fun _ _ => safe_pure fun _ _ => trivial
    | succ n =>
      refine safe_bind (safe_itemText c hv i) fun _ _ => ?_
      exact safe_bind (ih _) fun _ _ => safe_pure fun _ _ => trivial

theorem safe_moveUp (hv : Confined P v) (n : Nat) (i : Int64) : (moveUp v n i).Safe P := by
  induction n generalizing i with
  | zero => exact safe_pure trivial
  | succ n ih => exact safe_bind (safe_item hv _) fun x hx => safe_bind (safe_setItem hv i hx) fun _ _ => ih _

theorem safe_moveDown (hv : Confined P v) (n : Nat) (i : Int64) : (moveDown v n i).Safe P := by
  induction n generalizing i with
  | zero => exact safe_pure trivial
  | succ n ih => exact safe_bind (safe_item hv _) fun x hx => safe_bind (safe_setItem hv i hx) fun _ _ => ih _

theorem safe_itemsFrom (hv : Confined P v) (n : Nat) (i : Int64) : (itemsFrom v n i).Safe P := by
  induction n generalizing i with
  | zero => exact safe_pure nofun
  | succ n ih =>
    refine safe_bind (safe_item hv i) fun x hx => ?_
    exact safe_bind (ih _) fun rest hrest => safe_pure (confined_cons hx hrest)

theorem safe_setTwo (hv : Confined P v) (i j : Int64) (hx : Confined P x) (hy : Confined P y) :
    (setTwo v i j x y).Safe P :=
  safe_bind (safe_setItem hv i hx) fun _ _ => safe_setItem hv j hy

theorem safe_orderFault : (orderFault c : Act α).Safe P :=
  c.safe_fail _

include hc

theorem safe_sequence (n : Nat) (events : List String) : (sequence c n events).Safe P := by
  have hv := c.confined_value hc n
  have hlength : (do return (c.value n, ← lengthOf c (c.value n))).Safe P :=
    safe_bind (safe_lengthOf c hv) fun _ _ => safe_pure ⟨hv, trivial⟩
  unfold sequence
  dsimp only
  split
  · exact hlength
  · exact c.safe_typeFault n _
  · exact c.safe_typeFault n _
  · exact c.safe_typeFault n _
  · exact c.safe_typeFault n _
  · exact safe_bind (safe_actsAsTable _ _) fun _ _ => safe_ite hlength (c.safe_typeFault n _)

theorem safe_concatenation : (concat c).Safe P := by
  refine safe_bind (safe_sequence c hc 1 _) fun found hfound => ?_
  refine safe_bind (c.safe_textOr 2 _) fun separator _ => ?_
  refine safe_bind (c.safe_intOr 3 _) fun i _ => safe_bind (c.safe_intOr 4 _) fun last _ => ?_
  exact safe_bind (safe_joinFrom c hfound.1 _ _ _) fun _ _ => safe_pure (confined_singleton nofun)

theorem safe_insert : (insert c).Safe P := by
  refine safe_bind (safe_sequence c hc 1 _) fun found hfound => ?_
  dsimp only
  split
  · next x heq =>
    have hx : Confined P x := hc x (by simp [heq])
    exact safe_bind (safe_setItem hfound.1 _ hx) fun _ _ => safe_pure nofun
  · next x heq =>
    have hx : Confined P x := hc x (by simp [heq])
    refine safe_bind (c.safe_int 2) fun i _ => ?_
    have hplaced : (do
        moveUp found.1 ((found.2 + 1).toInt - i.toInt).toNat (found.2 + 1)
        setItem found.1 i x
        return [] : Act (List Value)).Safe P := by
      refine safe_bind (safe_moveUp hfound.1 _ _) fun _ _ => ?_
      exact safe_bind (safe_setItem hfound.1 _ hx) fun _ _ => safe_pure nofun
    exact safe_unless (c.safe_argumentFault 2 _) hplaced
  · exact c.safe_fail _

theorem safe_remove : (remove c).Safe P := by
  refine safe_bind (safe_sequence c hc 1 _) fun found hfound => ?_
  dsimp only
  refine safe_bind (c.safe_intOr 2 _) fun i _ => ?_
  refine safe_unless (c.safe_argumentFault 2 _) ?_
  refine safe_bind (safe_item hfound.1 i) fun removed hremoved => ?_
  refine safe_bind (safe_moveDown hfound.1 _ _) fun _ _ => ?_
  exact safe_bind (safe_setItem hfound.1 _ confined_nil) fun _ _ => safe_pure (confined_singleton hremoved)

theorem safe_unpack : (unpack c).Safe P := by
  have hv := c.confined_value hc 1
  refine safe_bind (c.safe_intOr 2 _) fun i _ => ?_
  extract_lets go
  have hgo (last : Int64) : (go last).Safe P := safe_unless (c.safe_fail _) (safe_itemsFrom hv _ _)
  exact safe_ite (safe_bind (safe_lengthOf c hv) fun last _ => hgo last)
    (safe_bind (c.safe_int 3) fun last _ => hgo last)

omit hc in
theorem safe_comesBefore (hx : Confined P x) (hy : Confined P y) : (comesBefore c x y).Safe P := by
  unfold comesBefore
  split
  · refine safe_bind (safe_callFunction _ (confined_cons hx (confined_singleton hy)) _) fun _ _ => ?_
    exact safe_pure trivial
  · exact safe_less _ _ hx hy

omit hc in
theorem safe_skipSmaller (hv : Confined P v) (hpivot : Confined P pivot) (last : Int64) (n : Nat) (i : Int64) :
    (skipSmaller c v pivot last n i).Safe P := by
  induction n generalizing i with
  | zero => exact safe_orderFault c
  | succ n ih =>
    refine safe_bind (safe_item hv _) fun x hx => ?_
    refine safe_bind (safe_comesBefore c hx hpivot) fun _ _ => ?_
    exact safe_ite (safe_ite (safe_orderFault c) (ih _)) (safe_pure ⟨trivial, hx⟩)

omit hc in
theorem safe_skipLarger (hv : Confined P v) (hpivot : Confined P pivot) (i : Int64) (n : Nat) (j : Int64) :
    (skipLarger c v pivot i n j).Safe P := by
  induction n generalizing j with
  | zero => exact safe_orderFault c
  | succ n ih =>
    refine safe_bind (safe_item hv _) fun x hx => ?_
    refine safe_bind (safe_comesBefore c hpivot hx) fun _ _ => ?_
    exact safe_ite (safe_ite (safe_orderFault c) (ih _)) (safe_pure ⟨trivial, hx⟩)

omit hc in
theorem safe_partition (hv : Confined P v) (hpivot : Confined P pivot) (hi : Int64) (n : Nat) (i j : Int64) :
    (partition c v pivot hi n i j).Safe P := by
  induction n generalizing i j with
  | zero => exact safe_orderFault c
  | succ n ih =>
    refine safe_bind (safe_skipSmaller c hv hpivot _ _ _) fun found hfound => ?_
    dsimp only
    refine safe_bind (safe_skipLarger c hv hpivot _ _ _) fun found' hfound' => ?_
    refine safe_ite ?_ ?_
    · exact safe_bind (safe_setTwo hv _ _ hfound.2 hpivot) fun _ _ => safe_pure trivial
    · exact safe_bind (safe_setTwo hv _ _ hfound'.2 hfound.2) fun _ _ => ih _ _

omit hc in
theorem safe_sortWithin (hv : Confined P v) (n : Nat) (lo hi : Int64) : (sortWithin c v n lo hi).Safe P := by
  induction n generalizing lo hi with
  | zero => exact safe_pure trivial
  | succ n ih =>
    have hcompare := fun x (hx : Confined P x) y (hy : Confined P y) => safe_comesBefore c hx hy
    unfold sortWithin
    refine safe_ite (safe_pure trivial) ?_
    refine safe_bind (safe_item hv lo) fun a ha => safe_bind (safe_item hv hi) fun b hb => ?_
    refine safe_bind (hcompare b hb a ha) fun _ _ => safe_unless (safe_setTwo hv _ _ hb ha) ?_
    refine safe_ite (safe_pure trivial) ?_
    refine safe_bind (safe_item hv _) fun m hm => safe_bind (safe_item hv lo) fun a ha => ?_
    refine safe_bind (hcompare m hm a ha) fun _ _ => ?_
    extract_lets go
    have hgo : (go ()).Safe P := by
      refine safe_ite (safe_pure trivial) ?_
      refine safe_bind (safe_item hv _) fun pivot hpivot => safe_bind (safe_item hv _) fun b hb => ?_
      refine safe_bind (safe_setTwo hv _ _ hb hpivot) fun _ _ => ?_
      refine safe_bind (safe_partition c hv hpivot _ _ _ _) fun p _ => ?_
      exact safe_ite (safe_bind (ih _ _) fun _ _ => ih _ _) (safe_bind (ih _ _) fun _ _ => ih _ _)
    refine safe_ite (safe_bind (safe_setTwo hv _ _ ha hm) fun _ _ => hgo) ?_
    refine safe_bind (safe_item hv hi) fun b hb => safe_bind (hcompare b hb m hm) fun _ _ => ?_
    exact safe_unless (safe_setTwo hv _ _ hb hm) hgo

theorem safe_sort : (sort c).Safe P := by
  refine safe_bind (safe_sequence c hc 1 _) fun found hfound => ?_
  dsimp only
  refine safe_ite (safe_unless (c.safe_argumentFault 1 _) ?_) (safe_pure nofun)
  have hsorted : (do sortWithin c found.1 found.2.toInt.toNat 1 found.2; return [] : Act (List Value)).Safe P :=
    safe_bind (safe_sortWithin c hfound.1 _ _ _) fun _ _ => safe_pure nofun
  split
  · exact hsorted
  · exact hsorted
  · exact safe_bind (c.safe_typeFault 2 _) fun _ _ => hsorted

theorem safe_sequenceFunction (f : SequenceFunction) : (sequenceFunction c f).Safe P := by
  cases f with
  | concat => exact safe_concatenation c hc
  | insert => exact safe_insert c hc
  | remove => exact safe_remove c hc
  | sort => exact safe_sort c hc
  | unpack => exact safe_unpack c hc

end sequences

end Library

end Hypermedia.Script
