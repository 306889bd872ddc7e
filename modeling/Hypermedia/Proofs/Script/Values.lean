import Hypermedia.Proofs.Script.Builtins

/-! Functions on numbers, times and strings come by no widget on their own. -/
namespace Hypermedia.Script

open Act

variable {P : WidgetId → Prop} {α : Type} [Confinable α] (c : Invocation) (hc : Confined P c.arguments)

namespace Library

section numbers

theorem safe_onFloat (f : Float → Float) : (onFloat c f).Safe P :=
  safe_bind (c.safe_number 1) fun _ _ => safe_pure (confined_singleton nofun)

theorem confined_whole (x : Float) : Confined P (whole x) := by
  unfold whole
  split <;> exact nofun

theorem safe_rounded (f : Float → Float) : (rounded c f).Safe P := by
  unfold rounded
  split
  · exact safe_pure (confined_singleton nofun)
  · exact safe_bind (c.safe_number 1) fun _ _ => safe_pure (confined_singleton (confined_whole _))

theorem safe_absolute : (absolute c).Safe P := by
  unfold absolute
  split
  · exact safe_pure (confined_singleton nofun)
  · exact safe_onFloat c _

theorem safe_remainder : (remainder c).Safe P := by
  unfold remainder
  split
  · exact safe_ite (c.safe_argumentFault 2 _) (safe_pure (confined_singleton nofun))
  · refine safe_bind (c.safe_number 1) fun _ _ => safe_bind (c.safe_number 2) fun _ _ => ?_
    exact safe_pure (confined_singleton nofun)

theorem safe_logarithm : (logarithm c).Safe P := by
  refine safe_bind (c.safe_number 1) fun x _ => safe_ite (safe_pure (confined_singleton nofun)) ?_
  exact safe_bind (c.safe_number 2) fun b _ => safe_pure (confined_singleton nofun)

theorem safe_unbeaten {beats : Value → Value → Act Bool}
    (hbeats : ∀ a b, Confined P a → Confined P b → (beats a b).Safe P) {best : Value} (hbest : Confined P best)
    {vs : List Value} (hvs : Confined P vs) : (unbeaten beats best vs).Safe P := by
  induction vs generalizing best with
  | nil => exact safe_pure hbest
  | cons v rest ih =>
    obtain ⟨hv, hrest⟩ := List.forall_mem_cons.mp hvs
    exact safe_bind (hbeats v best hv hbest) fun _ _ => safe_ite (ih hv hrest) (ih hbest hrest)

include hc in
theorem safe_unbeatenArgument {beats : Value → Value → Act Bool}
    (hbeats : ∀ a b, Confined P a → Confined P b → (beats a b).Safe P) : (unbeatenArgument c beats).Safe P := by
  have hrest : Confined P c.arguments.tail := confined_of_subset hc (List.tail_sublist _).subset
  refine safe_bind (c.safe_any hc 1) fun best hbest => ?_
  exact safe_bind (safe_unbeaten hbeats hbest hrest) fun _ hv => safe_pure (confined_singleton hv)

theorem safe_parts : (parts c).Safe P := by
  unfold parts
  split
  · exact safe_pure (confined_cons nofun (confined_singleton nofun))
  · refine safe_bind (c.safe_number 1) fun x _ => safe_pure ?_
    exact confined_cons (confined_whole _) (confined_singleton nofun)

theorem safe_randomNumber : (randomNumber c).Safe P := by
  refine safe_bind (safe_update fun w hw => ⟨trivial, { hw with }⟩) fun x _ => ?_
  extract_lets between
  have hbetween (lo hi : Int64) : (between lo hi).Safe P :=
    safe_ite (c.safe_argumentFault 2 _) (safe_pure (confined_singleton nofun))
  split
  · exact safe_pure (confined_singleton nofun)
  · exact safe_bind (c.safe_int 1) fun hi _ => safe_ite (safe_pure (confined_singleton nofun)) (hbetween 1 hi)
  · exact safe_bind (c.safe_int 1) fun lo _ => safe_bind (c.safe_int 2) fun hi _ => hbetween lo hi
  · exact c.safe_fail _

section

include hc

theorem safe_toInteger : (toInteger c).Safe P := by
  unfold toInteger
  split
  · exact safe_pure (confined_singleton nofun)
  · exact safe_bind (c.safe_any hc 1) fun _ _ => safe_pure (confined_singleton confined_nil)

theorem safe_kindOf : (kindOf c).Safe P := by
  unfold kindOf
  split
  · exact safe_pure (confined_singleton nofun)
  · exact safe_pure (confined_singleton nofun)
  · exact safe_bind (c.safe_any hc 1) fun _ _ => safe_pure (confined_singleton confined_nil)

theorem safe_math (f : MathFunction) : (math c f).Safe P := by
  cases f with
  | abs => exact safe_absolute c
  | ceil | floor => exact safe_rounded c _
  | fmod => exact safe_remainder c
  | log => exact safe_logarithm c
  | max => exact safe_unbeatenArgument c hc fun a b ha hb => safe_less _ _ hb ha
  | min => exact safe_unbeatenArgument c hc fun a b ha hb => safe_less _ _ ha hb
  | modf => exact safe_parts c
  | random => exact safe_randomNumber c
  | tointeger => exact safe_toInteger c hc
  | type => exact safe_kindOf c hc
  | ult =>
    refine safe_bind (c.safe_int 1) fun _ _ => safe_bind (c.safe_int 2) fun _ _ => ?_
    exact safe_pure (confined_singleton nofun)
  | deg => exact safe_onFloat c (· * (180.0 / pi))
  | rad => exact safe_onFloat c (· * (pi / 180.0))
  | cos | exp | sin | sqrt | tan => exact safe_onFloat c _

end

end numbers

section times

theorem safe_dateField (t : TableId) (name : String) (default : Option Int) (delta : Int) :
    (dateField c t name default delta).Safe P := by
  refine safe_bind (safe_index nofun nofun _ _) fun v _ => ?_
  split
  · exact safe_ite (safe_pure trivial) (c.safe_fail _)
  · refine safe_unless (c.safe_fail _) ?_
    split
    · exact safe_pure trivial
    · exact c.safe_fail _

theorem confined_dateFields (m : Moment) : Confined P (dateFields m) := by
  simp [dateFields, Confined, Value.int, Value.ofNat, Value.widget?]

theorem safe_setFields (t : TableId) {fields : List (String × Value)} (h : Confined P fields) :
    (setFields t fields).Safe P := by
  induction fields with
  | nil => exact safe_pure trivial
  | cons field rest ih =>
    obtain ⟨hfield, hrest⟩ := List.forall_mem_cons.mp h
    exact safe_bind (safe_setIndex nofun nofun hfield.2 _ _) fun _ _ => ih hrest

theorem safe_time : (time c).Safe P := by
  refine safe_ite ?_ ?_
  · exact safe_bind (safe_look fun _ _ => trivial) fun _ _ => safe_pure (confined_singleton nofun)
  · refine safe_bind (c.safe_table 1) fun t _ => ?_
    have hfield := safe_dateField (P := P) c t
    refine safe_bind (hfield "year" none 1900) fun year _ => safe_bind (hfield "month" none 1) fun month _ => ?_
    refine safe_bind (hfield "day" none 0) fun day _ => safe_bind (hfield "hour" (some 12) 0) fun hour _ => ?_
    refine safe_bind (hfield "min" (some 0) 0) fun minute _ => safe_bind (hfield "sec" (some 0) 0) fun second _ => ?_
    refine safe_bind (safe_setFields t (confined_dateFields _)) fun _ _ => ?_
    exact safe_unless (c.safe_fail _) (safe_pure (confined_singleton nofun))

theorem safe_date : (date c).Safe P := by
  refine safe_bind (c.safe_textOr 1 _) fun pattern _ => ?_
  extract_lets rest go
  have hgo (seconds : Int) : (go seconds).Safe P := by
    refine safe_ite (safe_bind (safe_newTable ?_) fun t ht => safe_pure (confined_singleton ht)) ?_
    · exact Table.confined_setFields Table.confined_empty (confined_dateFields _)
    · clear_value rest
      split
      · exact safe_pure (confined_singleton (confined_of_widget? rfl))
      · exact c.safe_argumentFault 1 _
  exact safe_ite (safe_bind (safe_look fun _ _ => trivial) fun n _ => hgo n)
    (safe_bind (safe_bind (c.safe_int 2) fun _ _ => safe_pure trivial) fun n _ => hgo n)

theorem safe_timeFunction (f : TimeFunction) : (timeFunction c f).Safe P := by
  cases f with
  | clock => exact safe_pure (confined_singleton nofun)
  | date => exact safe_date c
  | difftime =>
    refine safe_bind (c.safe_int 1) fun _ _ => safe_bind (c.safe_int 2) fun _ _ => ?_
    exact safe_pure (confined_singleton nofun)
  | time => exact safe_time c

end times

section texts

theorem safe_byteValues : (byteValues c).Safe P := by
  refine safe_bind (c.safe_text 1) fun s _ => safe_bind (c.safe_intOr 2 1) fun i _ => ?_
  refine safe_bind (c.safe_intOr 3 i) fun j _ => safe_pure fun v hv => ?_
  obtain ⟨b, -, rfl⟩ := List.mem_map.mp hv
  exact nofun

theorem safe_substring : (substring c).Safe P := by
  refine safe_bind (c.safe_text 1) fun s _ => safe_bind (c.safe_int 2) fun i _ => ?_
  exact safe_bind (c.safe_intOr 3 (-1)) fun j _ => safe_pure (confined_singleton nofun)

theorem safe_bytesFrom (i : Nat) (vs : List Value) : (bytesFrom c i vs).Safe P := by
  induction vs generalizing i with
  | nil => exact safe_pure trivial
  | cons v rest ih =>
    refine safe_bind (c.safe_int i) fun b _ => ?_
    exact safe_ite (safe_bind (ih (i + 1)) fun _ _ => safe_pure trivial) (c.safe_argumentFault i _)

theorem safe_repeated : (repeated c).Safe P := by
  refine safe_bind (c.safe_text 1) fun s _ => safe_bind (c.safe_int 2) fun n _ => ?_
  refine safe_bind (c.safe_textOr 3 []) fun separator _ => ?_
  refine safe_ite (safe_pure (confined_singleton nofun)) (safe_ite (c.safe_fail _) ?_)
  exact safe_ite (safe_raise (confined_of_widget? rfl)) (safe_pure (confined_singleton nofun))

/-- What a pattern comes to names no widgets. -/
theorem gives_matched {β : Type} (r : Except String β) : (matched c r).Gives P fun _ => True := by
  unfold matched
  split
  · exact gives_pure trivial
  · exact c.safe_fail _

theorem safe_captureValues (subject : Array UInt8) (start stop : Nat) (captures : List Pattern.Capture)
    (whole : Bool) : (captureValues c subject start stop captures whole).Safe P := by
  refine gives_bind (gives_matched c _) fun captured _ => safe_pure fun v hv => ?_
  obtain ⟨captured, -, rfl⟩ := List.mem_map.mp hv
  cases captured <;> exact nofun

theorem safe_search (places : Bool) : (search c places).Safe P := by
  have hnil : (pure [Value.nil] : Act (List Value)).Safe P := safe_pure (confined_singleton confined_nil)
  refine safe_bind (c.safe_text 1) fun s _ => safe_bind (c.safe_text 2) fun pattern _ => ?_
  refine safe_bind (c.safe_intOr 3 1) fun start _ => safe_ite hnil (safe_ite ?_ ?_)
  · split
    · exact safe_pure (confined_cons (confined_of_widget? rfl) (confined_singleton (confined_of_widget? rfl)))
    · exact hnil
  · refine gives_bind (gives_matched c _) fun found _ => ?_
    split
    · exact hnil
    · refine safe_bind (safe_captureValues c _ _ _ _ _) fun captured hcaptured => safe_pure ?_
      split
      · exact confined_cons (confined_of_widget? rfl) (confined_cons (confined_of_widget? rfl) hcaptured)
      · exact hcaptured

theorem safe_allMatches : (allMatches c).Safe P := by
  refine safe_bind (c.safe_text 1) fun s _ => safe_bind (c.safe_text 2) fun pattern _ => ?_
  refine safe_bind (c.safe_intOr 3 1) fun start _ => safe_bind (safe_newCell (confined_of_widget? rfl)) fun position _ => ?_
  refine safe_bind (safe_newCell confined_nil) fun _ _ => ?_
  exact safe_bind (safe_newFunction nofun) fun f hf => safe_pure (confined_singleton hf)

theorem safe_nextMatch (s pattern : Bytes) (position : Nat) : (nextMatch c s pattern position).Safe P := by
  refine safe_bind (safe_look fun w hw => World.confined_cell hw _) fun place _ => ?_
  refine safe_bind (safe_look fun w hw => World.confined_cell hw _) fun last _ => ?_
  refine gives_bind (gives_matched c _) fun found _ => ?_
  split
  · exact safe_pure (confined_singleton confined_nil)
  · refine safe_bind (safe_change fun w hw => ?_) fun _ _ => safe_captureValues c _ _ _ _ _
    exact World.confined_setCell (World.confined_setCell hw (confined_of_widget? rfl) _) (confined_of_widget? rfl) _

theorem safe_replacement (subject : Array UInt8) (start stop : Nat) (captures : List Pattern.Capture) :
    (replacement c subject start stop captures).Safe P := by
  unfold replacement
  extract_lets whole accept
  have haccept (v : Value) : (accept v).Safe P := by
    refine safe_ite ?_ (safe_pure trivial)
    split
    · exact safe_pure trivial
    · exact c.safe_fail _
  have hcaptured (whole : Bool) := safe_captureValues (P := P) c subject start stop captures whole
  split
  · refine safe_bind (hcaptured true) fun captured h => ?_
    exact safe_bind (safe_callFunction _ h _) fun vs _ => haccept _
  · refine safe_bind (hcaptured true) fun captured h => ?_
    exact safe_bind (safe_index (confined_of_widget? rfl) (confined_first h) _ _) fun v _ => haccept v
  · exact safe_bind (hcaptured false) fun captured _ => gives_matched c _

theorem safe_replaceFrom (subject : Array UInt8) (pattern : Bytes) (isBound : Bool) (limit n i : Nat)
    (last : Option Nat) (count : Nat) (done : List Bytes) :
    (replaceFrom c subject pattern isBound limit n i last count done).Safe P := by
  have hend (parts : List Bytes × Nat) : (pure parts : Act (List Bytes × Nat)).Safe P :=
    safe_pure ⟨fun _ _ => trivial, trivial⟩
  induction n generalizing i last count done with
  | zero => exact hend _
  | succ n ih =>
    refine safe_ite (hend _) (gives_bind (gives_matched c _) fun found _ => ?_)
    split
    · refine safe_ite (safe_ite (ih _ _ _ _) (hend _)) ?_
      exact safe_bind (safe_replacement c _ _ _ _) fun _ _ => safe_ite (hend _) (ih _ _ _ _)
    · exact safe_ite (ih _ _ _ _) (hend _)

theorem safe_replaceAll : (replaceAll c).Safe P := by
  refine safe_bind (c.safe_text 1) fun s _ => safe_bind (c.safe_text 2) fun pattern _ => ?_
  refine safe_bind (c.safe_intOr 4 _) fun limit _ => ?_
  extract_lets go
  have hgo : (go ()).Safe P := by
    refine safe_bind (safe_replaceFrom c _ _ _ _ _ _ _ _ _) fun found _ => safe_pure ?_
    exact confined_cons nofun (confined_singleton (confined_of_widget? rfl))
  split
  · exact hgo
  · exact hgo
  · exact hgo
  · exact hgo
  · exact safe_bind (c.safe_typeFault 3 _) fun _ _ => hgo

theorem safe_literal (n : Nat) : (literal c n).Safe P := by
  unfold literal
  split
  · exact safe_pure trivial
  · exact safe_pure trivial
  · exact safe_pure trivial
  · exact safe_pure trivial
  · exact c.safe_argumentFault n _

include hc in
theorem safe_formatted (n : Nat) (modifiers : Bytes) (letter : Option UInt8) :
    (formatted c n modifiers letter).Safe P := by
  unfold formatted
  extract_lets directive
  have hdirective (flags : String) (precise : Bool) : (directive flags precise).Safe P := by
    dsimp only [directive]
    split
    · exact safe_pure trivial
    · exact safe_raiseAt _ _
  have hint (flags : String) (precise : Bool) (text : Directive → Int64 → Bytes) :
      (do let i ← c.int n; return text (← directive flags precise) i : Act Bytes).Safe P :=
    safe_bind (c.safe_int n) fun _ _ => safe_bind (hdirective _ _) fun _ _ => safe_pure trivial
  split
  · exact hint _ _ fun d i => d.text [UInt8.ofNat i.toBitVec.toNat]
  · exact hint _ _ Directive.signedInt
  · exact hint _ _ Directive.signedInt
  · exact hint _ _ fun d i => d.unsignedInt 10 false i
  · exact hint _ _ fun d i => d.unsignedInt 8 false i
  · exact hint _ _ fun d i => d.unsignedInt 16 false i
  · exact hint _ _ fun d i => d.unsignedInt 16 true i
  · exact safe_ite (safe_literal c n) (c.safe_fail _)
  · refine safe_bind (hdirective _ _) fun d _ => ?_
    split <;> exact safe_pure trivial
  · refine safe_bind (safe_toText (c.confined_value hc n)) fun s _ => safe_ite (safe_pure trivial) ?_
    exact safe_ite (c.safe_argumentFault n _) (safe_bind (hdirective _ _) fun _ _ => safe_pure trivial)
  · refine safe_ite ?_ (safe_raiseAt _ _)
    exact safe_bind (c.safe_number n) fun _ _ => safe_bind (hdirective _ _) fun _ _ => safe_pure trivial
  · exact safe_raiseAt _ _

include hc in
/-- What a directive comes to once its argument and the number of its modifiers are in order. -/
theorem safe_directive (k n : Nat) (modifiers directive : Bytes) :
    (∀ rest, (formatFrom c k (n + 1) rest).Safe P) → (match directive with
      | [] => do let s ← formatted c (n + 1) modifiers none; return [s]
      | letter :: rest => do
        let s ← formatted c (n + 1) modifiers (some letter)
        return s :: (← formatFrom c k (n + 1) rest) : Act (List Bytes)).Safe P := by
  intro hrest
  split
  · exact safe_bind (safe_formatted c hc _ _ _) fun _ _ => safe_pure fun _ _ => trivial
  · refine safe_bind (safe_formatted c hc _ _ _) fun _ _ => ?_
    exact safe_bind (hrest _) fun _ _ => safe_pure fun _ _ => trivial

include hc in
theorem safe_formatFrom (k n : Nat) (format : Bytes) : (formatFrom c k n format).Safe P := by
  fun_induction formatFrom c k n format with
  | case1 => exact safe_pure confined_empty
  | case2 => exact safe_pure confined_empty
  | case3 k n rest ih => exact safe_bind ih fun _ _ => safe_pure fun _ _ => trivial
  | case4 k n rest _ go _ ih =>
    refine safe_bind (c.safe_argumentFault _ _) fun _ _ => ?_
    exact safe_unless (c.safe_fail _) (safe_directive c hc k n _ _ ih)
  | case5 k n rest _ go _ ih => exact safe_unless (c.safe_fail _) (safe_directive c hc k n _ _ ih)
  | case6 k n b rest _ _ ih => exact safe_bind ih fun _ _ => safe_pure fun _ _ => trivial

include hc in
theorem safe_textFunction (f : TextFunction) : (text c f).Safe P := by
  have hs := c.safe_text (P := P) 1
  cases f with
  | byte => exact safe_byteValues c
  | char => exact safe_bind (safe_bytesFrom c 1 _) fun _ _ => safe_pure (confined_singleton (confined_of_widget? rfl))
  | find => exact safe_search c true
  | format =>
    refine safe_bind hs fun s _ => ?_
    exact safe_bind (safe_formatFrom c hc _ _ _) fun _ _ => safe_pure (confined_singleton (confined_of_widget? rfl))
  | gmatch => exact safe_allMatches c
  | gsub => exact safe_replaceAll c
  | matching => exact safe_search c false
  | rep => exact safe_repeated c
  | sub => exact safe_substring c
  | len | lower | reverse | upper => exact safe_bind hs fun _ _ => safe_pure (confined_singleton (confined_of_widget? rfl))

theorem safe_secondMetamethod (event : String) : (secondMetamethod c event).Safe P := by
  unfold secondMetamethod
  split
  · exact safe_pure confined_nil
  · exact safe_metamethod _ _

include hc in
theorem safe_textArithmetic (op : BinaryOp) : (textArithmetic c op).Safe P := by
  unfold textArithmetic
  split
  · exact safe_bind (safe_arithmetic _ _ _ op (confined_of_widget? rfl) (confined_of_widget? rfl)) fun v hv => safe_pure (confined_singleton hv)
  · refine safe_bind (safe_secondMetamethod c _) fun m hm => safe_ite (c.safe_fail _) ?_
    have hboth : Confined P [c.value 1, c.value 2] :=
      confined_cons (c.confined_value hc 1) (confined_singleton (c.confined_value hc 2))
    exact safe_bind (safe_call hm hboth _) fun vs hvs => safe_pure (confined_singleton (confined_first hvs))

theorem safe_textNegation : (textNegation c).Safe P := by
  unfold textNegation
  split
  · exact safe_bind (safe_negate _ _ (confined_of_widget? rfl)) fun v hv => safe_pure (confined_singleton hv)
  · exact c.safe_fail _

end texts

end Library

end Hypermedia.Script
