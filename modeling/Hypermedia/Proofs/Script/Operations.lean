import Hypermedia.Proofs.Script.Safe

/-! Operations on values come by no widget on their own. -/
namespace Hypermedia.Script.Act

variable {P : WidgetId → Prop} {α : Type} [Confinable α] {v a b key value m : Value} {vs : List Value}

theorem confined_first (h : Confined P vs) : Confined P (first vs) :=
  confined_headD h confined_nil

theorem safe_typeFault (position : Option Position) (what : String) (v : Value) (naming : Option Naming) :
    (typeFault position what v naming : Act α).Safe P :=
  safe_bind (safe_look fun _ _ => trivial) fun _ _ => safe_raiseAt _ _

theorem safe_metamethod (v : Value) (event : String) : (metamethod v event).Safe P :=
  safe_look fun _ hw => World.confined_metamethod hw v event

theorem safe_binaryMetamethod (a b : Value) (event : String) : (binaryMetamethod a b event).Safe P := by
  refine safe_bind (safe_metamethod a event) fun m hm => ?_
  split
  · exact safe_metamethod b event
  · exact safe_pure hm

section calls

theorem safe_callWithin (n : Nat) {f : Value} {arguments : List Value} (hf : Confined P f)
    (h : Confined P arguments) (site : Site) : (callWithin n f arguments site).Safe P := by
  induction n generalizing f arguments with
  | zero => exact safe_raiseAt _ _
  | succ n ih =>
    unfold callWithin
    split
    · exact safe_callFunction _ h site
    · refine safe_bind (safe_metamethod f "__call") fun m hm => ?_
      split
      · exact safe_typeFault _ _ _ _
      · exact ih hm (confined_cons hf h)

theorem safe_call {f : Value} {arguments : List Value} (hf : Confined P f) (h : Confined P arguments)
    (site : Site) : (call f arguments site).Safe P :=
  safe_callWithin 200 hf h site

/-- The first of the values that a call gives. -/
theorem safe_firstOf {m : Act (List Value)} (h : m.Safe P) : (do return first (← m)).Safe P :=
  safe_bind h fun _ hvs => safe_pure (confined_first hvs)

end calls

section answers

theorem safe_orFault {r : Except Bytes α} (h : Confined P r) : (orFault r).Safe P := by
  cases r with
  | ok a => exact safe_pure (h.2 a rfl)
  | error e => exact safe_fault e

theorem safe_ofField {field : Field} (h : Confined P field) : (ofField field).Safe P := by
  have hhandle (id : WidgetId) (hid : P id) : (newHandle (.widget id)).Safe P :=
    safe_newHandle fun _ heq => Object.widget.inj heq ▸ hid
  cases field with
  | nothing => exact safe_pure confined_nil
  | value a => exact safe_pure (by cases a <;> exact nofun)
  | widget id => exact hhandle id (h.1 id rfl)
  | widgets ids =>
    refine safe_bind (safe_mapM fun id hid => hhandle id (h.2 ids rfl id hid)) fun handles hhandles => ?_
    exact safe_newTable ⟨fun v hv => hhandles v (List.mem_toArray.mp hv), Array.confined_empty⟩
  | words ws =>
    refine safe_newTable ⟨fun v hv => ?_, Array.confined_empty⟩
    obtain ⟨word, -, rfl⟩ := List.mem_map.mp (List.mem_toArray.mp hv)
    exact nofun
  | scope id => exact safe_newHandle nofun

theorem safe_ask {service : Service} (h : Confined P service) : (ask service).Safe P := by
  refine safe_bind (safe_request h) fun answer hanswer => ?_
  split
  · exact safe_ofField (hanswer.2 _ rfl)
  · exact safe_fault _

theorem safe_orFault_textArgument (n : Nat) (owner : Option String) (v : Value) :
    (orFault (textArgument n owner v)).Safe P :=
  safe_orFault ⟨fun _ _ => trivial, fun _ _ => trivial⟩

end answers

section listeners

theorem safe_hold (scopes : List ScopeId) : (hold scopes).Safe P :=
  safe_change fun _ hw => { hw with }

theorem safe_errorText {toText : Value → Act Bytes} (htext : ∀ v, Confined P v → (toText v).Safe P)
    (hv : Confined P v) : (errorText toText v).Safe P := by
  unfold errorText
  split
  · exact safe_pure trivial
  · exact htext _ hv

theorem safe_tellAll {toText : Value → Act Bytes} (htext : ∀ v, Confined P v → (toText v).Safe P) {c : Change}
    (hc : Confined P c) (held : List ScopeId) (listeners : List (ScopeId × Value)) :
    (tellAll toText c held listeners).Safe P := by
  induction listeners with
  | nil => exact safe_hold held
  | cons listener rest ih =>
    obtain ⟨id, listener⟩ := listener
    refine safe_bind (safe_hold _) fun _ _ => ?_
    split
    · have harguments : Confined P [c.new, c.old] := confined_cons hc.2 (confined_singleton hc.1)
      refine safe_bind (safe_guarded ?_) fun told htold => ?_
      · exact safe_bind (safe_callFunction _ harguments _) fun _ _ => safe_pure nofun
      split
      · exact ih
      · refine safe_bind (safe_hold _) fun _ _ => ?_
        exact safe_bind (safe_errorText htext (htold.1 _ rfl)) fun _ _ => safe_fault _
    · exact ih

theorem safe_notify {toText : Value → Act Bytes} (htext : ∀ v, Confined P v → (toText v).Safe P) {c : Change}
    (hc : Confined P c) : (notify toText c).Safe P := by
  refine safe_bind safe_living fun isAlive _ => ?_
  refine safe_bind (safe_look fun w hw => Scopes.confined_listenersFor hw.scopes isAlive c) fun listeners _ => ?_
  exact safe_bind (safe_look fun _ _ _ _ => trivial) fun held _ => safe_tellAll htext hc held listeners

theorem safe_aliveScope (id : ScopeId) : (aliveScope id).Safe P := by
  refine safe_bind safe_living fun isAlive _ => ?_
  split
  · exact safe_fault _
  · exact safe_pure trivial

theorem safe_toText (hv : Confined P v) : (toText v).Safe P := by
  refine safe_bind (safe_metamethod v "__tostring") fun m hm => ?_
  extract_lets plain
  have hplain : (plain ()).Safe P := by
    unfold plain
    split
    case h_6 =>
      refine safe_bind safe_living fun _ _ => safe_pure trivial
    case h_8 => exact safe_bind (safe_look fun _ _ => trivial) fun _ _ => safe_pure trivial
    all_goals exact safe_pure trivial
  split
  · refine safe_bind (safe_caller 1) fun position _ => ?_
    refine safe_bind (safe_call hm (confined_singleton hv) _) fun vs _ => ?_
    split
    · exact safe_pure trivial
    · exact safe_pure trivial
    · exact safe_bind (safe_raiseAt _ _) fun _ _ => hplain
  · exact hplain

end listeners

section fields

theorem safe_widgetField (id : WidgetId) (hid : P id) (key : Value) : (widgetField id key).Safe P := by
  refine safe_bind (safe_orFault_textArgument _ _ _) fun name _ => ?_
  split
  · exact safe_newFunction nofun
  · exact safe_ask (confined_singleton hid : Confined P [id])

theorem safe_scopeField (id : ScopeId) (key : Value) : (scopeField id key).Safe P := by
  refine safe_bind (safe_orFault_textArgument _ _ _) fun name _ => ?_
  refine safe_bind (safe_aliveScope id) fun _ _ => ?_
  split
  · refine safe_bind (safe_look fun _ _ _ _ => trivial) fun outer _ => ?_
    split
    · exact safe_newHandle nofun
    · exact safe_pure confined_nil
  · refine safe_bind (safe_look fun w hw => Scopes.confined_read hw.scopes id name) fun found hfound => ?_
    refine safe_pure ?_
    cases found with
    | none => exact confined_nil
    | some v => exact hfound v rfl

theorem confined_tableLookup {w : World} (hw : Confined P w) (t : TableId) (key : Value) (event : String) :
    Confined P (tableLookup t key event w) := by
  have hfound := Table.confined_get (World.confined_table hw t) key
  unfold tableLookup
  dsimp only
  split
  · split
    · exact ⟨hfound, Table.confined_field (World.confined_table hw _) event⟩
    · exact ⟨hfound, confined_nil⟩
  · exact ⟨hfound, confined_nil⟩

theorem safe_indexWithin (n : Nat) (hv : Confined P v) (hkey : Confined P key) (position : Option Position)
    (naming : Option Naming) : (indexWithin n v key position naming).Safe P := by
  induction n generalizing v naming with
  | zero => exact safe_raiseAt _ _
  | succ n ih =>
    have harguments : Confined P [v, key] := confined_cons hv (confined_singleton hkey)
    have hcall (f : FunctionId) : (do return first (← callFunction f [v, key] (eventSite position "index"))).Safe P :=
      safe_firstOf (safe_callFunction f harguments _)
    unfold indexWithin
    split
    · next t =>
      refine safe_bind (safe_look fun w hw => confined_tableLookup hw t key "__index") fun found hfound => ?_
      dsimp only
      split
      · exact safe_pure hfound.1
      · split
        · exact hcall _
        · exact ih hfound.2 none
    · exact safe_widgetField _ (hv _ rfl) key
    · exact safe_scopeField _ key
    · refine safe_bind (safe_metamethod _ _) fun m hm => ?_
      split
      · exact safe_typeFault _ _ _ _
      · split
        · exact hcall _
        · exact ih hm none

theorem safe_index (hv : Confined P v) (hkey : Confined P key) (position : Option Position)
    (naming : Option Naming) : (index v key position naming).Safe P :=
  safe_indexWithin 2000 hv hkey position naming

theorem safe_writeScope (id : ScopeId) (key : Value) (hvalue : Confined P value) :
    (writeScope id key value).Safe P := by
  refine safe_bind (safe_orFault_textArgument _ _ _) fun name _ => ?_
  refine safe_bind (safe_aliveScope id) fun _ _ => ?_
  refine safe_bind (safe_assign id name hvalue) fun change hchange => ?_
  split
  · exact safe_pure trivial
  · refine safe_bind (safe_look fun _ _ _ _ => trivial) fun held _ => ?_
    refine safe_bind (safe_hold _) fun _ _ => ?_
    refine safe_bind (safe_notify (fun _ => safe_toText) (hchange _ rfl)) fun _ _ => ?_
    exact safe_hold held

theorem safe_writeWidget (id : WidgetId) (hid : P id) (key value : Value) : (writeWidget id key value).Safe P := by
  refine safe_bind (safe_orFault_textArgument _ _ _) fun name _ => ?_
  refine safe_bind safe_living fun isAlive _ => ?_
  refine safe_bind (safe_look fun _ _ => trivial) fun offer _ => ?_
  exact safe_bind (safe_ask (confined_singleton hid : Confined P [id])) fun _ _ => safe_pure trivial

theorem safe_rawSet (t : TableId) (hkey : Confined P key) (hvalue : Confined P value)
    (position : Option Position) : (rawSet t key value position).Safe P := by
  unfold rawSet
  split
  · exact safe_raiseAt _ _
  · exact safe_change fun w hw => World.confined_modifyTable hw (fun _ ht => Table.confined_set ht hkey hvalue) t

theorem safe_setIndexWithin (n : Nat) (hv : Confined P v) (hkey : Confined P key) (hvalue : Confined P value)
    (position : Option Position) (naming : Option Naming) :
    (setIndexWithin n v key value position naming).Safe P := by
  induction n generalizing v naming with
  | zero => exact safe_raiseAt _ _
  | succ n ih =>
    have harguments : Confined P [v, key, value] :=
      confined_cons hv (confined_cons hkey (confined_singleton hvalue))
    have hcall (f : FunctionId) : (do
        let _ ← callFunction f [v, key, value] (eventSite position "newindex")).Safe P :=
      safe_bind (safe_callFunction f harguments _) fun _ _ => safe_pure trivial
    unfold setIndexWithin
    split
    · next t =>
      refine safe_bind (safe_look fun w hw => confined_tableLookup hw t key "__newindex") fun found hfound => ?_
      dsimp only
      split
      · exact safe_rawSet t hkey hvalue position
      · split
        · exact hcall _
        · exact ih hfound.2 none
    · exact safe_writeWidget _ (hv _ rfl) key value
    · exact safe_writeScope _ key hvalue
    · refine safe_bind (safe_metamethod _ _) fun m hm => ?_
      split
      · exact safe_typeFault _ _ _ _
      · split
        · exact hcall _
        · exact ih hm none

theorem safe_setIndex (hv : Confined P v) (hkey : Confined P key) (hvalue : Confined P value)
    (position : Option Position) (naming : Option Naming) : (setIndex v key value position naming).Safe P :=
  safe_setIndexWithin 2000 hv hkey hvalue position naming

end fields

section operators

variable (position : Option Position) (na nb : Option Naming)

/-- The first value that a function on two operands gives. -/
theorem safe_callTwo (hm : Confined P m) (ha : Confined P a) (hb : Confined P b) (site : Site) :
    (do return first (← call m [a, b] site)).Safe P :=
  safe_firstOf (safe_call hm (confined_cons ha (confined_singleton hb)) site)

theorem safe_equal (ha : Confined P a) (hb : Confined P b) : (equal a b position).Safe P := by
  unfold equal
  split
  · exact safe_pure trivial
  split
  · refine safe_bind (safe_binaryMetamethod _ _ _) fun m hm => ?_
    split
    · exact safe_pure trivial
    · exact safe_bind (safe_call hm (confined_cons ha (confined_singleton hb)) _) fun _ _ => safe_pure trivial
  · exact safe_pure trivial
  · exact safe_pure trivial
  · exact safe_fault _
  · exact safe_pure trivial

theorem safe_arithmeticFault (op : BinaryOp) (a b : Value) :
    (arithmeticFault op a b position na nb : Act α).Safe P := by
  unfold arithmeticFault
  split
  · exact safe_raiseAt _ _
  · exact safe_typeFault _ _ _ _
  · exact safe_typeFault _ _ _ _

theorem safe_arithmetic (op : BinaryOp) (ha : Confined P a) (hb : Confined P b) :
    (arithmetic op a b position na nb).Safe P := by
  unfold arithmetic
  extract_lets computed
  clear_value computed
  split
  · exact safe_raiseAt _ _
  · exact safe_pure nofun
  · refine safe_bind (safe_binaryMetamethod _ _ _) fun m hm => ?_
    split
    · exact safe_arithmeticFault _ _ _ _ _ _
    · exact safe_callTwo hm ha hb _

theorem safe_negate (naming : Option Naming) (hv : Confined P v) : (negate v position naming).Safe P := by
  unfold negate
  split
  · exact safe_pure nofun
  · exact safe_pure nofun
  · refine safe_bind (safe_metamethod _ _) fun m hm => ?_
    split
    · exact safe_typeFault _ _ _ _
    · exact safe_callTwo hm hv hv _

theorem safe_invert (naming : Option Naming) (hv : Confined P v) : (invert v position naming).Safe P := by
  unfold invert
  split
  · split
    · exact safe_pure nofun
    · exact safe_arithmeticFault _ _ _ _ _ _
  · refine safe_bind (safe_metamethod _ _) fun m hm => ?_
    split
    · exact safe_typeFault _ _ _ _
    · exact safe_callTwo hm hv hv _

theorem safe_length (naming : Option Naming) (hv : Confined P v) : (length v position naming).Safe P := by
  unfold length
  split
  · exact safe_pure nofun
  · refine safe_bind (safe_metamethod _ _) fun m hm => ?_
    split
    · exact safe_firstOf (safe_call hm (confined_singleton hv) _)
    · split
      · exact safe_bind (safe_look fun _ _ => trivial) fun _ _ => safe_pure nofun
      · exact safe_typeFault _ _ _ _

theorem safe_concat (ha : Confined P a) (hb : Confined P b) : (concat a b position na nb).Safe P := by
  unfold concat
  split
  · exact safe_pure nofun
  · refine safe_bind (safe_binaryMetamethod _ _ _) fun m hm => ?_
    split
    · exact safe_callTwo hm ha hb _
    · split <;> exact safe_typeFault _ _ _ _

theorem safe_orderFault (a b : Value) : (orderFault a b position : Act α).Safe P := by
  refine safe_bind (safe_look fun _ _ => trivial) fun s _ => ?_
  exact safe_bind (safe_look fun _ _ => trivial) fun t _ => safe_raiseAt _ _

theorem safe_less (orEqual : Bool) (ha : Confined P a) (hb : Confined P b) : (less a b orEqual position).Safe P := by
  unfold less
  split
  · exact safe_pure trivial
  · exact safe_pure trivial
  · refine safe_bind (safe_binaryMetamethod _ _ _) fun m hm => ?_
    split
    · exact safe_orderFault _ _ _
    · exact safe_bind (safe_call hm (confined_cons ha (confined_singleton hb)) _) fun _ _ => safe_pure trivial

end operators

end Hypermedia.Script.Act
