import Hypermedia.Proofs.Script.Evaluation
import Hypermedia.Proofs.Script.Values

/-! Whole runs of scripts come by no widget on their own: neither does any function that comes with the
program, nor a chunk, nor what either leaves in the world. -/
namespace Hypermedia.Script

open Act

variable {P : WidgetId → Prop} {α : Type} [Confinable α] (c : Invocation) (hc : Confined P c.arguments)

namespace Library

open Widget (Blueprint)

theorem safe_enteredScope : enteredScope.Safe P := by
  refine safe_bind (safe_look fun _ _ _ _ => trivial) fun entered _ => ?_
  split
  · exact safe_pure trivial
  · exact safe_fault _

theorem safe_callOut (f : FunctionId) {arguments : List Value} (h : Confined P arguments) :
    (callOut f arguments).Safe P := by
  have hcall := safe_guarded (safe_bind (safe_callFunction f h .inner) fun _ _ => safe_pure (a := Flow.giveBack []) nofun)
  refine safe_bind hcall fun ended hended => ?_
  split
  · exact safe_pure trivial
  · refine safe_bind (safe_errorText (fun _ hv => safe_toText hv) (hended.1 _ rfl)) fun _ _ => safe_fault _

section blueprints

variable {b : Blueprint} {v : Value} (isAlive : ScopeId → Bool)

theorem confined_withItem (h : Confined P b) (hv : Confined P v) : Confined P (withItem isAlive b v) := by
  unfold withItem
  split
  · next child hchild => exact confined_append h (confined_singleton (hv child hchild))
  · exact h

theorem confined_withItems {items : List Value} (h : Confined P b) (hitems : Confined P items) :
    Confined P (items.foldl (withItem isAlive) b) := by
  induction items generalizing b with
  | nil => exact h
  | cons v rest ih =>
    obtain ⟨hv, hrest⟩ := List.forall_mem_cons.mp hitems
    exact ih (confined_withItem isAlive h hv) hrest

theorem children_withEntry {b' : Blueprint} {w : World} {name : String}
    (h : withEntry isAlive w b name v = .ok b') : b'.children = b.children := by
  unfold withEntry at h
  extract_lets keep at h
  have hkeep (h : keep b = .ok b') : b'.children = b.children := by
    dsimp only [keep] at h
    split at h
    · cases h
      rfl
    · cases h
  split at h
  · cases h
    rfl
  split at h
  · cases hgroups : w.toWords isAlive v with
    | error e =>
      rw [hgroups] at h
      cases h
    | ok groups =>
      rw [hgroups] at h
      cases h
      rfl
  split at h
  · cases h
    rfl
  split at h
  · split at h
    · cases h
      rfl
    · split at h
      · cases h
        rfl
      · cases h
    · exact hkeep h
  · exact hkeep h

theorem confined_blueprint {w : World} {kind : Widget.Kind} {t : Table} (ht : Confined P t)
    (h : blueprint isAlive w kind t = .ok b) : Confined P b := by
  have hitems : Confined P (t.sequence.foldl (withItem isAlive) { kind }) :=
    confined_withItems isAlive nofun (Table.confined_sequence ht)
  have hentries (entries : List (String × Value)) : ∀ b' : Blueprint, Confined P b' →
      entries.foldlM (fun b e => withEntry isAlive w b e.1 e.2) b' = .ok b → Confined P b := by
    induction entries with
    | nil =>
      intro b' hb' h
      cases h
      exact hb'
    | cons e rest ih =>
      intro b' hb' h
      rw [List.foldlM_cons] at h
      cases hnext : withEntry isAlive w b' e.1 e.2 with
      | error e =>
        rw [hnext] at h
        cases h
      | ok b'' =>
        rw [hnext] at h
        have hchildren := children_withEntry isAlive hnext
        exact ih b'' (show Confined P b''.children from hchildren ▸ hb') h
  exact hentries _ _ hitems h

end blueprints

theorem safe_build {b : Blueprint} (h : Confined P b) : (build b).Safe P :=
  safe_ask h

theorem safe_buildText (group text : String) : (buildText group text).Safe P :=
  safe_build nofun

theorem safe_buildButton (label : String) {callback : Option (FunctionId × Value)}
    (h : ∀ entry ∈ callback, Confined P entry.2) : (buildButton label callback).Safe P := by
  have hf : Confined P (FunctionValue.native (.close callback)) := by
    cases callback with
    | none => exact nofun
    | some entry => exact confined_some (h entry rfl)
  refine safe_bind (safe_newFunction hf) fun v hv => ?_
  split
  · exact safe_build nofun
  · exact safe_pure hv

theorem confined_widgets {vs : List Value} (h : Confined P vs) : Confined P (widgets vs) := by
  intro id hid
  obtain ⟨v, hv, hid⟩ := List.mem_filterMap.mp hid
  exact h v hv id hid

theorem safe_showDialogue {content buttons : List Value} (hcontent : Confined P content)
    (hbuttons : Confined P buttons) : (showDialogue content buttons).Safe P := by
  refine safe_bind (safe_build (confined_widgets hbuttons)) fun row hrow => ?_
  refine safe_bind (safe_build (confined_widgets (confined_append hcontent (confined_singleton hrow)))) ?_
  intro dialogue hdialogue
  split
  · next id hid =>
    have hpin : Confined P (Service.pin id) := confined_singleton (hdialogue id hid)
    exact safe_bind (safe_ask hpin) fun _ _ => safe_pure confined_empty
  · exact safe_fault _

theorem safe_alert : (alert c).Safe P := by
  refine safe_bind safe_living fun isAlive _ => safe_bind (safe_ask nofun) fun _ _ => ?_
  refine safe_bind (safe_buildText _ _) fun body hbody => safe_bind (safe_buildButton _ nofun) fun close hclose => ?_
  exact safe_showDialogue (confined_singleton hbody) (confined_singleton hclose)

theorem safe_confirm : (confirm c).Safe P := by
  have hanswer (f : FunctionId) (answer : Bool) :
      ∀ entry ∈ some (f, Value.bool answer), Confined P entry.2 := by
    rintro _ ⟨⟩
    exact nofun
  refine safe_bind (c.safe_asText 1) fun title _ => safe_bind (c.safe_asText 2) fun message _ => ?_
  refine safe_bind (c.safe_asFunction 3) fun f _ => safe_bind (safe_buildText _ _) fun heading hheading => ?_
  refine safe_bind (safe_buildText _ _) fun body hbody => ?_
  refine safe_bind (safe_buildButton _ (hanswer f true)) fun accept haccept => ?_
  refine safe_bind (safe_buildButton _ (hanswer f false)) fun deny hdeny => ?_
  exact safe_showDialogue (confined_cons hheading (confined_singleton hbody))
    (confined_cons haccept (confined_singleton hdeny))

theorem safe_prompt : (prompt c).Safe P := by
  refine safe_bind (c.safe_asText 1) fun title _ => safe_bind (c.safe_asTable 2) fun t _ => ?_
  refine safe_bind (c.safe_asFunction 3) fun f _ => safe_bind (safe_buildText _ _) fun heading hheading => ?_
  refine safe_bind safe_living fun isAlive _ => ?_
  refine safe_bind (safe_look fun w hw => Table.confined_sequence (World.confined_table hw t)) fun items hitems => ?_
  have hb : Confined P (items.foldl (withItem isAlive) { kind := .tower }) :=
    confined_withItems isAlive nofun hitems
  refine safe_bind (safe_build hb) fun body hbody => ?_
  refine safe_bind (safe_buildButton _ ?_) fun submit hsubmit => ?_
  · rintro _ ⟨⟩
    exact hbody
  · exact safe_showDialogue (confined_cons hheading (confined_singleton hbody)) (confined_singleton hsubmit)

theorem safe_find : (find c).Safe P := by
  refine safe_bind (c.safe_asText 1) fun selector _ => safe_bind (safe_request nofun) fun answer hanswer => ?_
  split
  · exact safe_fault _
  · have hfield := hanswer.2 _ rfl
    refine safe_ite (safe_bind (safe_ofField hfield) fun v hv => safe_pure (confined_singleton hv)) ?_
    split
    · exact safe_pure (confined_singleton confined_nil)
    · next id rest =>
      refine safe_bind (safe_newHandle ?_) fun v hv => safe_pure (confined_singleton hv)
      rintro _ ⟨⟩
      exact hfield.2 _ rfl id List.mem_cons_self
  · exact safe_bind (safe_ofField (hanswer.2 _ rfl)) fun v hv => safe_pure (confined_singleton hv)

include hc in
theorem safe_style : (style c).Safe P := by
  refine safe_bind (c.safe_asText 2) fun property _ => ?_
  split
  · exact safe_fault _
  · next id hid =>
    refine safe_bind safe_living fun isAlive _ => safe_bind (safe_look fun _ _ _ _ => trivial) fun value? _ => ?_
    split
    · next value _ =>
      have hservice : Confined P (Service.style id property value) := confined_singleton (c.confined_value hc 1 id hid)
      exact safe_bind (safe_ask hservice) fun _ _ => safe_pure confined_empty
    · exact safe_fault _

theorem safe_onChange : (onChange c).Safe P := by
  refine safe_bind (c.safe_asText 1) fun name _ => safe_bind (c.safe_asFunction 2) fun f _ => ?_
  exact safe_bind safe_enteredScope fun id _ => safe_bind (safe_listen _ _ (confined_of_widget? rfl)) fun _ _ => safe_pure confined_empty

theorem safe_timeout : (timeout c).Safe P := by
  refine safe_bind (c.safe_asFunction 1) fun f _ => safe_bind (c.safe_asFloatOr 2 _) fun milliseconds _ => ?_
  exact safe_bind safe_enteredScope fun id _ => safe_bind (safe_ask confined_empty) fun _ _ => safe_pure confined_empty

theorem safe_chocl : (chocl c).Safe P := by
  refine safe_bind (c.safe_asText 1) fun text _ => ?_
  split
  · exact safe_fault _
  · refine safe_bind safe_enteredScope fun id _ => ?_
    -- The function acts for the widget of the scope, which no value names.
    have howner : (look fun w => (w.scopes.get? id).bind (·.widget)).Gives P fun _ => True :=
      gives_look fun _ _ => trivial
    refine gives_bind howner fun owner _ => ?_
    exact safe_bind (safe_newFunction nofun) fun f hf => safe_pure (confined_singleton hf)

theorem safe_start (actions : List Action.Instruction) (owner : Option WidgetId) : (start c actions owner).Safe P := by
  unfold start
  split
  · exact safe_bind (safe_ask nofun) fun _ _ => safe_pure (confined_singleton nofun)
  · exact safe_fault _

include hc in
theorem safe_close {callback : Option (FunctionId × Value)} (h : ∀ entry ∈ callback, Confined P entry.2) :
    (close c callback).Safe P := by
  unfold close
  split
  · exact safe_fault _
  · next button hbutton =>
    have hservice : Confined P (Service.dismiss button) := confined_singleton (c.confined_value hc 1 button hbutton)
    have hdismissed : (do let _ ← ask (.dismiss button); return [.bool false] : Act (List Value)).Safe P :=
      safe_bind (safe_ask hservice) fun _ _ => safe_pure (confined_singleton nofun)
    split
    · exact safe_bind (safe_callOut _ (confined_singleton (h _ rfl))) fun _ _ => hdismissed
    · exact hdismissed

include hc in
theorem safe_append : (append c).Safe P := by
  unfold append
  split
  · next parent child hparent hchild =>
    have hservice : Confined P (Service.append parent child) :=
      confined_cons (c.confined_value hc 1 _ hparent) (confined_singleton (c.confined_value hc 2 _ hchild))
    exact safe_bind (safe_ask hservice) fun _ _ => safe_pure confined_empty
  · exact safe_fault _

theorem safe_construct (kind : Widget.Kind) : (construct c kind).Safe P := by
  unfold construct
  extract_lets make
  have hmake (t : Table) (ht : Confined P t) : (make t).Safe P := by
    refine safe_bind safe_living fun isAlive _ => ?_
    have hlook : (look fun w => blueprint isAlive w kind t).Safe P := by
      refine safe_look fun w _ => ⟨fun _ _ => trivial, fun b hb => confined_blueprint isAlive ht hb⟩
    refine safe_bind hlook fun made hmade => ?_
    split
    · exact safe_bind (safe_build (hmade.2 _ rfl)) fun v hv => safe_pure (confined_singleton hv)
    · exact safe_fault _
  refine safe_ite (hmake _ Table.confined_empty) (safe_bind (c.safe_asTable 1) fun t _ => ?_)
  exact safe_bind (safe_look fun w hw => World.confined_table hw t) fun t ht => hmake t ht

include hc in
theorem safe_session (f : SessionFunction) : (session c f).Safe P := by
  cases f with
  | onChange => exact safe_onChange c
  | find => exact safe_find c
  | style => exact safe_style c hc
  | timeout => exact safe_timeout c
  | chocl => exact safe_chocl c
  | alert => exact safe_alert c
  | confirm => exact safe_confirm c
  | prompt => exact safe_prompt c

end Library

include hc in
theorem Invocation.safe_results (hkept : Confined P (FunctionValue.native c.builtin)) : c.results.Safe P := by
  unfold results
  split
  · exact Library.safe_base c hc _
  · exact Library.safe_textFunction c hc _
  · exact Library.safe_sequenceFunction c hc _
  · exact Library.safe_math c hc _
  · exact Library.safe_timeFunction c _
  · exact Library.safe_session c hc _
  · exact Library.safe_nextItem c hc
  · exact Library.safe_nextMatch c _ _ _
  · exact Library.safe_textArithmetic c hc _
  · exact Library.safe_textNegation c
  · exact c.safe_fail _
  · exact safe_pure (confined_cons nofun (confined_cons nofun (confined_singleton confined_nil)))
  · exact safe_bind (safe_look fun _ _ => trivial) fun _ _ => safe_pure (confined_singleton (confined_of_widget? rfl))
  · exact Library.safe_construct c _
  · exact Library.safe_append c hc
  · exact Library.safe_start c _ _
  · next callback heq =>
    refine Library.safe_close c hc ?_
    rintro ⟨f, v⟩ ⟨⟩
    rw [heq] at hkept
    exact hkept v rfl

theorem safe_apply {f : FunctionValue} {arguments : List Value} (site : Site) (hf : Confined P f)
    (h : Confined P arguments) : (apply f arguments site).Safe P := by
  refine safe_code ?_
  split
  · next parameters isVariadic body environment =>
    refine safe_bind (safe_declareAll environment (confined_adjust parameters h)) fun env _ => safe_runBlock ?_ env body
    split
    · exact confined_of_subset h (List.drop_subset _ _)
    · exact nofun
  · exact safe_bind (Invocation.safe_results _ h hf) fun vs hvs => safe_pure hvs

theorem Act.safe_chunk (scope : ScopeId) (body : List Stmt) : (Act.chunk scope body).Safe P := by
  refine safe_bind (safe_newHandle fun _ h => by cases h) fun handle hhandle => safe_bind (safe_newTable ?_) fun access _ => ?_
  · exact Table.confined_setField (Table.confined_setField Table.confined_empty _ hhandle) _ hhandle
  · split
    · refine safe_bind (safe_newTable Table.confined_empty) fun globals hglobals => ?_
      exact safe_bind (safe_newCell hglobals) fun cell _ => safe_runBlock confined_empty _ _
    · exact safe_pure confined_empty

theorem Act.safe_withErrorText {body : Act Flow} (h : body.Safe P) : body.withErrorText.Safe P := by
  refine safe_bind (safe_guarded h) fun ended hended => ?_
  split
  · exact safe_pure (hended.2 _ rfl)
  · refine safe_bind (safe_errorText (fun _ hv => safe_toText hv) (hended.1 _ rfl)) fun _ _ => ?_
    exact safe_raise (confined_of_widget? rfl)

namespace World

variable {σ : Type} {host : Host σ} {I J : σ → Prop} {w : World} {s : σ}

/-- What holds of the world and of the session after a script has run. -/
def Settled (P : WidgetId → Prop) (I : σ → Prop) (r : Except Failure (List Value) × World × σ) : Prop :=
  Confined P r.2.1 ∧ I r.2.2

theorem settled_perform (h : host.Discreet P I J) (scope : ScopeId) {body : Act Flow} (hbody : body.Safe P)
    (hw : Confined P w) (hs : I s) (hend : J (w.perform host s scope body).2.2) :
    Settled P I (w.perform host s scope body) := by
  have hinside : Confined P { w with entered := some scope, held := scope :: w.held } := { hw with }
  have hrun := run_discreet h (fun f arguments site hf ha => safe_apply site hf ha) maxSteps
    (safe_code (safe_withErrorText hbody)) (show Stack.Safe P {} from nofun) hinside hs hend
  exact ⟨{ hrun.world with }, hrun.state⟩

theorem settled_execute (h : host.Discreet P I J) (scope : ScopeId) (source : String) (hw : Confined P w)
    (hs : I s) (hend : J (w.execute host s scope source).2.2) : Settled P I (w.execute host s scope source) := by
  unfold execute at hend ⊢
  split at hend
  · exact ⟨hw, hs⟩
  · exact settled_perform h scope (safe_chunk scope _) hw hs hend

theorem settled_callFunction (h : host.Discreet P I J) (scope : ScopeId) (f : FunctionId) {arguments : List Value}
    (ha : Confined P arguments) (hw : Confined P w) (hs : I s)
    (hend : J (w.callFunction host s scope f arguments).2.2) :
    Settled P I (w.callFunction host s scope f arguments) :=
  settled_perform h scope (safe_bind (safe_callFunction f ha .inner) fun _ hvs => safe_pure hvs) hw hs hend

end World

end Hypermedia.Script
