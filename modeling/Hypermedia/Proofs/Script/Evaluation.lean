import Hypermedia.Proofs.Script.Operations

/-! Expressions and statements come by no widget on their own. -/
namespace Hypermedia.Script

variable {P : WidgetId → Prop} {α : Type} [Confinable α] {v : Value} {vs : List Value}

namespace Act

theorem safe_readVar (env : Environment) (place : Nat) : (readVar env place).Safe P :=
  safe_look fun _ hw => World.confined_cell hw _

theorem safe_writeVar (env : Environment) (place : Nat) (hv : Confined P v) : (writeVar env place v).Safe P :=
  safe_change fun _ hw => World.confined_setCell hw hv _

theorem safe_declareAll (env : Environment) (hvs : Confined P vs) : (declareAll env vs).Safe P := by
  induction vs generalizing env with
  | nil => exact safe_pure fun _ _ => trivial
  | cons v vs ih =>
    obtain ⟨hv, hvs⟩ := List.forall_mem_cons.mp hvs
    exact safe_bind (safe_newCell hv) fun cell _ => ih (cell :: env) hvs

theorem confined_adjust (n : Nat) (hvs : Confined P vs) : Confined P (adjust n vs) := by
  refine confined_of_subset (confined_append hvs fun v hv => ?_) (List.take_subset _ _)
  exact (List.eq_of_mem_replicate hv) ▸ confined_nil

section loops

variable {env : Environment}

/-- What a loop makes of the end of its body: all but the next turn. -/
theorem safe_afterBody {body next : Act Flow} (hbody : body.Safe P) (hnext : next.Safe P) : (do
    match ← body with
    | .next _ => next
    | .leave => return .next env
    | .jump label _ => return .jump label env
    | .giveBack vs => return .giveBack vs : Act Flow).Safe P := by
  refine safe_bind hbody fun flow hflow => ?_
  split
  · exact hnext
  · exact safe_pure nofun
  · exact safe_pure nofun
  · exact safe_pure hflow

theorem safe_whileTrue {condition : Act Bool} {body : Act Flow} (hcondition : condition.Safe P)
    (hbody : body.Safe P) (n : Nat) : (whileTrue condition body env n).Safe P := by
  induction n with
  | zero => exact safe_raise nofun
  | succ n ih =>
    refine safe_bind hcondition fun b _ => ?_
    split
    · exact safe_afterBody hbody ih
    · exact safe_pure nofun

theorem safe_untilTrue {body : Act (Flow × Bool)} (hbody : body.Safe P) (n : Nat) :
    (untilTrue body env n).Safe P := by
  induction n with
  | zero => exact safe_raise nofun
  | succ n ih =>
    refine safe_bind hbody fun ended hended => ?_
    split
    · split
      · exact safe_pure nofun
      · exact ih
    · exact safe_pure nofun
    · exact safe_pure nofun
    · exact safe_pure hended.1

theorem safe_countInts {body : Value → Act Flow} (hbody : ∀ v, Confined P v → (body v).Safe P) (step : Int64)
    (n : Nat) (i : Int64) : (countInts body env step n i).Safe P := by
  induction n generalizing i with
  | zero => exact safe_pure nofun
  | succ n ih => exact safe_afterBody (hbody _ nofun) (ih _)

theorem safe_countFloats {body : Value → Act Flow} (hbody : ∀ v, Confined P v → (body v).Safe P)
    (limit step : Float) (n : Nat) (x : Float) : (countFloats body env limit step n x).Safe P := by
  induction n generalizing x with
  | zero => exact safe_raise nofun
  | succ n ih =>
    unfold countFloats
    exact safe_ite (safe_afterBody (hbody _ nofun) (ih _)) (safe_pure nofun)

theorem safe_iterate {body : List Value → Act Flow} (hbody : ∀ vs, Confined P vs → (body vs).Safe P)
    {f state control : Value} (hf : Confined P f) (hstate : Confined P state) (site : Site) (n : Nat)
    (hcontrol : Confined P control) : (iterate body env f state site n control).Safe P := by
  induction n generalizing control with
  | zero => exact safe_raise nofun
  | succ n ih =>
    refine safe_bind (safe_call hf (confined_cons hstate (confined_singleton hcontrol)) site) fun vs hvs => ?_
    extract_lets control
    have hcontrol : Confined P control := confined_first hvs
    split
    · exact safe_pure nofun
    · exact safe_afterBody (hbody vs hvs) (ih hcontrol)

theorem safe_loopFault (what : String) (v : Value) (position : Option Position) :
    (loopFault what v position : Act α).Safe P :=
  safe_bind (safe_look fun _ _ => trivial) fun _ _ => safe_raiseAt _ _

theorem safe_loopNumber (what : String) (v : Value) (position : Option Position) :
    (loopNumber what v position).Safe P := by
  unfold loopNumber
  split
  · exact safe_pure trivial
  · exact safe_loopFault _ _ _

theorem safe_countLoop {body : Value → Act Flow} (hbody : ∀ v, Confined P v → (body v).Safe P) (turns : Nat)
    (start limit step : Value) (position : Option Position) :
    (countLoop body env turns start limit step position).Safe P := by
  unfold countLoop
  split
  · refine safe_unless (safe_raiseAt _ _) ?_
    refine safe_bind (safe_loopNumber _ _ _) fun limit _ => ?_
    split
    · exact safe_pure nofun
    · exact safe_countInts hbody _ _ _
  · refine safe_bind (safe_loopNumber _ _ _) fun limit _ => ?_
    refine safe_bind (safe_loopNumber _ _ _) fun step _ => ?_
    refine safe_bind (safe_loopNumber _ _ _) fun start _ => ?_
    exact safe_unless (safe_raiseAt _ _) (safe_countFloats hbody _ _ _ _)

end loops

section blocks

theorem safe_tail {f : Value} {arguments : List Value} (hf : Confined P f) (h : Confined P arguments) (site : Site) :
    (tail f arguments site).Safe P := by
  cases f with
  | function id => exact fun _ _ => .tailCall h
  | _ => exact safe_bind (safe_call hf h site) fun _ hvs => safe_pure hvs

theorem safe_closing {body : Act Flow} (hv : Confined P v) (hbody : body.Safe P) : (closing v body).Safe P := by
  refine safe_bind (safe_guarded hbody) fun ended hended => ?_
  extract_lets close
  have hclose (error : Value) (h : Confined P error) : (close error).Safe P := by
    refine safe_ite ?_ (safe_pure trivial)
    refine safe_bind (safe_metamethod v "__close") fun m hm => ?_
    exact safe_bind (safe_call hm (confined_cons hv (confined_singleton h)) _) fun _ _ => safe_pure trivial
  split
  · exact safe_bind (hclose _ confined_nil) fun _ _ => safe_pure (hended.2 _ rfl)
  · exact safe_bind (hclose _ (hended.1 _ rfl)) fun _ _ => safe_raise (hended.1 _ rfl)

theorem safe_checkClosable (v : Value) (name : Bytes) (position : Option Position) :
    (checkClosable v name position).Safe P :=
  safe_bind (safe_metamethod v "__close") fun _ _ => safe_ite (safe_raiseAt _ _) (safe_pure trivial)

theorem safe_follow {labels : List (Bytes × (Environment → Act Flow))}
    (hlabels : ∀ l ∈ labels, ∀ env, (l.2 env).Safe P) (n : Nat) {flow : Flow} (hflow : Confined P flow) :
    (follow labels n flow).Safe P := by
  induction n generalizing flow with
  | zero => exact safe_raise nofun
  | succ n ih =>
    cases flow with
    | jump label env =>
      rw [follow]
      split
      · next hfind =>
        exact safe_bind (hlabels _ (List.mem_of_find?_eq_some hfind) env) fun _ hnext => ih hnext
      · exact safe_pure nofun
    | _ => exact safe_pure hflow

end blocks

end Act

theorem Flow.confined_within {flow : Flow} (h : Confined P flow) (env : Environment) :
    Confined P (flow.within env) := by
  cases flow with
  | giveBack vs => exact h
  | _ => exact nofun

theorem Expr.safe_apply (op : BinaryOp) {a b : Value} (ha : Confined P a) (hb : Confined P b)
    (position : Option Position) (na nb : Option Naming) : (Expr.apply op a b position na nb).Safe P := by
  unfold Expr.apply
  split
  · exact Act.safe_concat _ _ _ ha hb
  · exact Act.safe_bind (Act.safe_equal _ ha hb) fun _ _ => Act.safe_pure nofun
  · exact Act.safe_bind (Act.safe_equal _ ha hb) fun _ _ => Act.safe_pure nofun
  · exact Act.safe_bind (Act.safe_less _ _ ha hb) fun _ _ => Act.safe_pure nofun
  · exact Act.safe_bind (Act.safe_less _ _ ha hb) fun _ _ => Act.safe_pure nofun
  · exact Act.safe_bind (Act.safe_less _ _ hb ha) fun _ _ => Act.safe_pure nofun
  · exact Act.safe_bind (Act.safe_less _ _ hb ha) fun _ _ => Act.safe_pure nofun
  · exact Act.safe_arithmetic _ _ _ _ ha hb

section expressions

open Act

variable {a : Activation} (env : Environment)

mutual

theorem Expr.safe_value (ha : Confined P a.varargs) : ∀ e : Expr, (e.value a env).Safe P
  | .nil => safe_pure nofun
  | .bool _ => safe_pure nofun
  | .number _ => safe_pure nofun
  | .str _ => safe_pure nofun
  | .varargs => safe_pure (confined_first ha)
  | .var place _ _ => safe_readVar env place
  | .index object key line => by
    unfold Expr.value
    split
    · next place _ =>
      refine safe_bind (Expr.safe_value ha key) fun k hk => ?_
      exact safe_bind (safe_readVar env place) fun o ho => safe_index ho hk _ _
    · refine safe_bind (Expr.safe_value ha object) fun o ho => ?_
      exact safe_bind (Expr.safe_value ha key) fun k hk => safe_index ho hk _ _
  | .call function arguments line => by
    unfold Expr.value
    refine safe_bind (Expr.safe_value ha function) fun f hf => ?_
    refine safe_bind (safe_valuesOf ha arguments) fun args hargs => ?_
    exact safe_firstOf (safe_call hf hargs _)
  | .method object name line arguments callLine => by
    unfold Expr.value
    refine safe_bind (Expr.safe_value ha object) fun o ho => ?_
    refine safe_bind (safe_index ho (confined_of_widget? rfl) _ _) fun f hf => ?_
    refine safe_bind (safe_valuesOf ha arguments) fun args hargs => ?_
    exact safe_firstOf (safe_call hf (confined_cons ho hargs) _)
  | .function _ _ _ _ => safe_newFunction nofun
  | .binary op left right line => by
    unfold Expr.value
    split
    · next place _ =>
      refine safe_bind (Expr.safe_value ha right) fun r hr => ?_
      exact safe_bind (safe_readVar env place) fun l hl => Expr.safe_apply _ hl hr _ _ _
    · refine safe_bind (Expr.safe_value ha left) fun l hl => ?_
      exact safe_bind (Expr.safe_value ha right) fun r hr => Expr.safe_apply _ hl hr _ _ _
  | .unary op operand line => by
    unfold Expr.value
    refine safe_bind (Expr.safe_value ha operand) fun v hv => ?_
    split
    · exact safe_pure nofun
    · exact safe_negate _ _ hv
    · exact safe_length _ _ hv
    · exact safe_invert _ _ hv
  | .both left right => by
    unfold Expr.value
    exact safe_bind (Expr.safe_value ha left) fun l hl => safe_ite (Expr.safe_value ha right) (safe_pure hl)
  | .either left right => by
    unfold Expr.value
    exact safe_bind (Expr.safe_value ha left) fun l hl => safe_ite (safe_pure hl) (Expr.safe_value ha right)
  | .table items _ => by
    unfold Expr.value
    refine safe_bind (safe_newTable (Table.confined_sized _ _)) fun table htable => ?_
    refine safe_bind (safe_itemsOf ha table items) fun positional hpositional => ?_
    split
    · refine safe_bind (safe_change fun w hw => ?_) fun _ _ => safe_pure htable
      exact World.confined_modifyTable hw (fun _ ht => Table.confined_setItems ht hpositional) _
    · exact safe_pure htable
  | .group inner => by
    unfold Expr.value
    exact Expr.safe_value ha inner
termination_by structural e => e

theorem Expr.safe_allValues (ha : Confined P a.varargs) : ∀ e : Expr, (e.allValues a env).Safe P
  | .varargs => safe_pure ha
  | .call function arguments line => by
    unfold Expr.allValues
    refine safe_bind (Expr.safe_value ha function) fun f hf => ?_
    exact safe_bind (safe_valuesOf ha arguments) fun args hargs => safe_call hf hargs _
  | .method object name line arguments callLine => by
    unfold Expr.allValues
    refine safe_bind (Expr.safe_value ha object) fun o ho => ?_
    refine safe_bind (safe_index ho (confined_of_widget? rfl) _ _) fun f hf => ?_
    exact safe_bind (safe_valuesOf ha arguments) fun args hargs => safe_call hf (confined_cons ho hargs) _
  | .nil | .bool _ | .number _ | .str _ | .var _ _ _ | .index _ _ _ | .function _ _ _ _ | .binary _ _ _ _
  | .unary _ _ _ | .both _ _ | .either _ _ | .table _ _ | .group _ => safe_pure nofun
termination_by structural e => e

theorem safe_valuesOf (ha : Confined P a.varargs) : ∀ es : List Expr, (valuesOf a env es).Safe P
  | [] => safe_pure nofun
  | e :: rest => by
    unfold valuesOf
    refine safe_ite (Expr.safe_allValues ha e) ?_
    refine safe_bind (Expr.safe_value ha e) fun v hv => ?_
    exact safe_bind (safe_valuesOf ha rest) fun vs hvs => safe_pure (confined_cons hv hvs)
termination_by structural es => es

theorem safe_itemsOf (ha : Confined P a.varargs) (table : Value) : ∀ items : List Item, (itemsOf a env table items).Safe P
  | [] => safe_pure nofun
  | .positional e :: rest => by
    unfold itemsOf
    refine safe_ite (Expr.safe_allValues ha e) ?_
    refine safe_bind (Expr.safe_value ha e) fun v hv => ?_
    exact safe_bind (safe_itemsOf ha table rest) fun vs hvs => safe_pure (confined_cons hv hvs)
  | .keyed key value line :: rest => by
    unfold itemsOf
    refine safe_bind (Expr.safe_value ha key) fun k hk => ?_
    refine safe_bind (Expr.safe_value ha value) fun v hv => ?_
    split
    · exact safe_bind (safe_rawSet _ hk hv _) fun _ _ => safe_itemsOf ha _ rest
    · exact safe_itemsOf ha _ rest
termination_by structural items => items

end

/-- An operand that is known, or is read when it is used. -/
theorem safe_operand (ha : Confined P a.varargs) (written : List Nat) (e : Expr) :
    (operand a env written e).Gives P (Act.Safe P) := by
  have hknown {m : Act Value} (hm : m.Safe P) : (do let v ← m; return (pure v : Act Value)).Gives P (Act.Safe P) :=
    gives_bind hm fun _ hv => gives_pure (safe_pure hv)
  unfold operand
  split
  · split
    · exact hknown (safe_readVar env _)
    · exact gives_pure (safe_readVar env _)
  · exact hknown (Expr.safe_value env ha e)

end expressions

section assignments

open Act

/-- A slot whose operands come by no widget on their own. -/
def Slot.Safe (P : WidgetId → Prop) : Slot → Prop
  | .var _ => True
  | .entry object key _ => object.Safe P ∧ key.Safe P

variable {a : Activation} (env : Environment)

theorem safe_slots (ha : Confined P a.varargs) (targets : List Target) :
    (slots a env targets).Gives P fun slots => ∀ slot ∈ slots, slot.Safe P := by
  induction targets with
  | nil => exact gives_pure nofun
  | cons target rest ih =>
    cases target with
    | var place =>
      exact gives_bind ih fun slots hslots => gives_pure (List.forall_mem_cons.mpr ⟨trivial, hslots⟩)
    | index object key =>
      refine gives_bind (safe_operand env ha _ object) fun o ho => ?_
      refine gives_bind (safe_operand env ha _ key) fun k hk => ?_
      exact gives_bind ih fun slots hslots => gives_pure (List.forall_mem_cons.mpr ⟨⟨ho, hk⟩, hslots⟩)

theorem safe_storeAll (line : Nat) {writes : List (Slot × Value)}
    (h : ∀ w ∈ writes, w.1.Safe P ∧ Confined P w.2) : (storeAll env line writes).Safe P := by
  induction writes with
  | nil => exact safe_pure trivial
  | cons write rest ih =>
    obtain ⟨⟨hslot, hv⟩, hrest⟩ := List.forall_mem_cons.mp h
    obtain ⟨slot, v⟩ := write
    refine safe_bind (ih hrest) fun _ _ => ?_
    cases slot with
    | var place => exact safe_writeVar env place hv
    | entry object key naming =>
      exact safe_bind hslot.1 fun o ho => safe_bind hslot.2 fun k hk => safe_setIndex ho hk hv _ _

end assignments

section statements

open Act

variable {a : Activation}

section bodies

variable {labels : List (Bytes × (Environment → Act Flow))} {body : Act Flow} (hbody : body.Safe P)
  (hlabels : ∀ l ∈ labels, ∀ env, (l.2 env).Safe P) (turns : Nat)

include hbody hlabels

/-- A body, and what it jumps to in itself. -/
theorem safe_followed : (do follow labels turns (← body)).Safe P :=
  safe_bind hbody fun _ hflow => safe_follow hlabels turns hflow

theorem safe_followed_within (env : Environment) :
    (do return (← follow labels turns (← body)).within env).Safe P := by
  refine safe_bind hbody fun flow hflow => ?_
  exact safe_bind (safe_follow hlabels turns hflow) fun _ hflow => safe_pure (Flow.confined_within hflow env)

end bodies

mutual

theorem Stmt.safe_run (ha : Confined P a.varargs) (env : Environment) : ∀ s : Stmt, (s.run a env).Safe P
  | .declare count closed values name line => by
    unfold Stmt.run
    refine safe_bind (safe_valuesOf env ha values) fun vs hvs => ?_
    have hdeclared : (do return Flow.next (← declareAll env (adjust count vs))).Safe P :=
      safe_bind (safe_declareAll env (confined_adjust count hvs)) fun _ _ => safe_pure nofun
    dsimp only
    split
    · exact safe_bind (safe_checkClosable _ _ _) fun _ _ => hdeclared
    · exact hdeclared
  | .declareFunction function => by
    unfold Stmt.run
    refine safe_bind (safe_declareAll env (confined_singleton confined_nil)) fun inner _ => ?_
    refine safe_bind (Expr.safe_value inner ha function) fun f hf => ?_
    exact safe_bind (safe_writeVar inner 0 hf) fun _ _ => safe_pure nofun
  | .assign targets values line => by
    unfold Stmt.run
    refine gives_bind (safe_slots env ha targets) fun slots hslots => ?_
    refine safe_bind (safe_valuesOf env ha values) fun vs hvs => ?_
    refine safe_bind (safe_storeAll env line fun w hw => ?_) fun _ _ => safe_pure nofun
    obtain ⟨hslot, hv⟩ := List.of_mem_zip hw
    exact ⟨hslots _ hslot, confined_adjust _ hvs _ hv⟩
  | .call expression => by
    unfold Stmt.run
    exact safe_bind (Expr.safe_allValues env ha expression) fun _ _ => safe_pure nofun
  | .block body => by
    unfold Stmt.run
    exact safe_followed_within (safe_runList ha env body) (safe_labelsOf ha body) _ env
  | .whileLoop condition body => by
    unfold Stmt.run
    refine safe_whileTrue (safe_bind (Expr.safe_value env ha condition) fun _ _ => safe_pure trivial) ?_ _
    exact safe_followed (safe_runList ha env body) (safe_labelsOf ha body) _
  | .repeatLoop body condition => by
    unfold Stmt.run
    refine safe_untilTrue (safe_bind (safe_runList ha env body) fun _ hflow => ?_) _
    refine safe_bind (safe_follow (safe_labelsOf ha body) _ hflow) fun flow hflow => ?_
    split
    · exact safe_bind (Expr.safe_value _ ha condition) fun _ _ => safe_pure ⟨nofun, trivial⟩
    · exact safe_pure ⟨hflow, trivial⟩
  | .branch condition body otherwise => by
    unfold Stmt.run
    refine safe_bind (Expr.safe_value env ha condition) fun _ _ => safe_ite ?_ ?_
    · exact safe_followed_within (safe_runList ha env body) (safe_labelsOf ha body) _ env
    · exact safe_followed_within (safe_runList ha env otherwise) (safe_labelsOf ha otherwise) _ env
  | .numericFor start limit step body line => by
    unfold Stmt.run
    refine safe_bind (Expr.safe_value env ha start) fun i _ => ?_
    refine safe_bind (Expr.safe_value env ha limit) fun l _ => ?_
    refine safe_bind (Expr.safe_value env ha step) fun s _ => ?_
    refine safe_countLoop (fun v hv => ?_) _ _ _ _ _
    refine safe_bind (safe_declareAll env (confined_singleton hv)) fun inner _ => ?_
    exact safe_followed (safe_runList ha inner body) (safe_labelsOf ha body) _
  | .genericFor count values body line => by
    unfold Stmt.run
    refine safe_bind (safe_valuesOf env ha values) fun vs hvs => ?_
    have hvalue (i : Nat) : Confined P ((adjust 4 vs).getD i .nil) :=
      confined_getD (confined_adjust 4 hvs) confined_nil i
    have hbody (vs : List Value) (hvs : Confined P vs) : (do
        let inner ← declareAll env (adjust count vs)
        follow (labelsOf a body) a.turns (← runList a inner body)).Safe P := by
      refine safe_bind (safe_declareAll env (confined_adjust count hvs)) fun inner _ => ?_
      exact safe_followed (safe_runList ha inner body) (safe_labelsOf ha body) _
    have hloop (site : Site) : (iterate _ env _ _ site a.turns _).Safe P :=
      safe_iterate hbody (hvalue 0) (hvalue 1) site a.turns (hvalue 2)
    refine safe_ite (hloop _) ?_
    exact safe_bind (safe_checkClosable _ _ _) fun _ _ => safe_closing (hvalue 3) (hloop _)
  | .tailCall expression => by
    unfold Stmt.run
    split
    · refine safe_bind (Expr.safe_value env ha _) fun f hf => ?_
      exact safe_bind (safe_valuesOf env ha _) fun args hargs => safe_tail hf hargs _
    · refine safe_bind (Expr.safe_value env ha _) fun o ho => ?_
      refine safe_bind (safe_index ho (confined_of_widget? rfl) _ _) fun f hf => ?_
      exact safe_bind (safe_valuesOf env ha _) fun args hargs => safe_tail hf (confined_cons ho hargs) _
    · exact safe_bind (Expr.safe_value env ha _) fun v hv => safe_pure (confined_singleton hv)
  | .giveBack values => by
    unfold Stmt.run
    exact safe_bind (safe_valuesOf env ha values) fun _ hvs => safe_pure hvs
  | .leave => safe_pure nofun
  | .jump _ => safe_pure nofun
  | .label _ _ => safe_pure nofun
termination_by structural s => s

theorem safe_runList (ha : Confined P a.varargs) (env : Environment) :
    ∀ body : List Stmt, (runList a env body).Safe P
  | [] => safe_pure nofun
  | s :: rest => by
    unfold runList
    refine safe_bind (Stmt.safe_run ha env s) fun flow hflow => ?_
    split
    · next inner =>
      split
      · refine safe_bind (safe_readVar inner _) fun v hv => safe_closing hv ?_
        exact safe_followed (safe_runList ha inner rest) (safe_labelsOf ha rest) _
      · exact safe_runList ha inner rest
    · exact safe_pure nofun
    · exact safe_pure hflow
termination_by structural body => body

theorem safe_labelsOf (ha : Confined P a.varargs) :
    ∀ body : List Stmt, ∀ l ∈ labelsOf a body, ∀ env, (l.2 env).Safe P
  | [] => nofun
  | .label name depth :: rest => by
    unfold labelsOf
    exact List.forall_mem_cons.mpr ⟨fun env => safe_runList ha _ rest, safe_labelsOf ha rest⟩
  | .declare _ _ _ _ _ :: rest | .declareFunction _ :: rest | .assign _ _ _ :: rest | .call _ :: rest
  | .block _ :: rest | .whileLoop _ _ :: rest | .repeatLoop _ _ :: rest | .branch _ _ _ :: rest
  | .numericFor _ _ _ _ _ :: rest | .genericFor _ _ _ _ :: rest | .tailCall _ :: rest | .giveBack _ :: rest
  | .leave :: rest | .jump _ :: rest => by
    unfold labelsOf
    exact safe_labelsOf ha rest
termination_by structural body => body

end

theorem safe_runBlock (ha : Confined P a.varargs) (env : Environment) (body : List Stmt) :
    (runBlock a env body).Safe P :=
  safe_followed (safe_runList ha env body) (safe_labelsOf ha body) _

end statements

end Hypermedia.Script
