import Hypermedia.Proofs.Script.Safe

/-! Activities that leave all of the world as it is, however they end. -/
namespace Hypermedia.Script

variable {α β : Type} {w : World} {P : α → Prop} {Q : β → Prop}

theorem Stack.pop?_push (stack : Stack) (f : Frame) : (stack.push f).pop? = some (f, stack) := by
  cases hf : Stack.Frame.isNested f <;> simp [Stack.push, Stack.pop?, hf]

namespace Act

/-- In a world an activity goes on with what fits `P` or fails, and leaves the world as it was. One that
runs out of steps counts as failing. -/
def Settles (w : World) (P : α → Prop) (m : Act α) : Prop :=
  ∀ (σ : Type) (host : Host σ) (s : σ) (stack : Stack) (n : Nat) (k : α → Code), ∃ n',
    (∃ a, P a ∧ run host apply n (m k) stack w s = run host apply n' (k a) stack w s) ∨
      ∃ e, run host apply n (m k) stack w s = run host apply n' (.fail e) stack w s

section settles

theorem settles_bind {m : Act α} {f : α → Act β} (hm : m.Settles w P)
    (hf : ∀ a, P a → (f a).Settles w Q) : (m >>= f).Settles w Q := by
  intro σ host s stack n k
  obtain ⟨n', ⟨a, ha, heq⟩ | ⟨e, heq⟩⟩ := hm σ host s stack n fun a => f a k
  · obtain ⟨n'', hlater⟩ := hf a ha σ host s stack n' k
    rw [← heq] at hlater
    exact ⟨n'', hlater⟩
  · exact ⟨n', .inr ⟨e, heq⟩⟩

/-- What comes after an activity that only fails does not matter. -/
theorem Settles.bind_of_fails {m : Act α} (h : m.Settles w fun _ => False) (f : α → Act β) :
    (m >>= f).Settles w Q :=
  settles_bind h fun _ => False.elim

theorem settles_pure {a : α} (h : P a) : (pure a : Act α).Settles w P :=
  fun _ _ _ _ n _ => ⟨n, .inl ⟨a, h, rfl⟩⟩

theorem settles_raise (error : Value) : (raise error : Act α).Settles w P :=
  fun _ _ _ _ n _ => ⟨n, .inr ⟨error, rfl⟩⟩

/-- What takes a step on the world. -/
theorem settles_step {m : Act α} {f : World → World} {a : World → α}
    (hm : ∀ k, m k = .step fun w => (f w, k (a w))) (hf : f w = w) (ha : P (a w)) : m.Settles w P := by
  intro σ host s stack n k
  cases n with
  | zero => exact ⟨0, .inr ⟨.nil, rfl⟩⟩
  | succ n =>
    refine ⟨n, .inl ⟨_, ha, ?_⟩⟩
    rw [hm, run]
    dsimp only
    rw [hf]

theorem settles_look {f : World → α} (h : P (f w)) : (look f).Settles w P :=
  settles_step (fun _ => rfl) rfl h

theorem settles_look_bind {f : World → α} {g : α → Act β} (h : (g (f w)).Settles w Q) :
    (look f >>= g).Settles w Q :=
  settles_bind (settles_look (P := (· = f w)) rfl) fun _ heq => heq ▸ h

theorem settles_change {f : World → World} {P : Unit → Prop} (h : f w = w) (hP : P ()) :
    (change f).Settles w P :=
  settles_step (a := fun _ => ()) (fun _ => rfl) h hP

theorem settles_raiseAt (position : Option Position) (message : Bytes) :
    (raiseAt position message : Act α).Settles w P :=
  settles_raise _

/-- A call of a function that comes with the program is what that function does. -/
theorem settles_callFunction {P : List Value → Prop} {f : FunctionId} {b : Builtin}
    {arguments : List Value} {site : Site} (hf : w.functions.getD f.index default = .native b)
    (h : (Invocation.results ⟨b, site, arguments⟩).Settles w P) :
    (callFunction f arguments site).Settles w P := by
  intro σ host s stack n k
  cases n with
  | zero => exact ⟨0, .inr ⟨.nil, rfl⟩⟩
  | succ n =>
    rw [callFunction, run]
    split
    · exact ⟨n, .inr ⟨_, rfl⟩⟩
    · dsimp only
      rw [hf]
      obtain ⟨n', hbody⟩ := h σ host s (stack.push (.await site k)) n fun vs => .done (.giveBack vs)
      cases n' with
      | zero =>
        refine ⟨0, .inr ⟨.nil, ?_⟩⟩
        rcases hbody with ⟨vs, -, heq⟩ | ⟨e, heq⟩ <;> exact heq
      | succ n' =>
        refine ⟨n', ?_⟩
        rcases hbody with ⟨vs, hvs, heq⟩ | ⟨e, heq⟩
        · refine .inl ⟨vs, hvs, heq.trans ?_⟩
          rw [run, Stack.pop?_push]
          rfl
        · refine .inr ⟨e, heq.trans ?_⟩
          rw [run, Stack.pop?_push]

/-- However it ends, an activity that settles leaves the world as it was. -/
theorem Settles.world {m : Act Flow} {P : Flow → Prop} (h : m.Settles w P) {σ : Type} (host : Host σ)
    (s : σ) (n : Nat) : (run host apply n m.code {} w s).world = w := by
  obtain ⟨n', ⟨flow, -, heq⟩ | ⟨e, heq⟩⟩ := h σ host s {} n .done
  · rw [Act.code, heq]
    cases n' <;> rfl
  · rw [Act.code, heq]
    cases n' <;> rfl

end settles

section yields

/-- In a world an activity gives a value, without failing, and changes nothing. -/
def Yields (w : World) (m : Act α) (a : α) : Prop :=
  ∃ d, ∀ (σ : Type) (host : Host σ) (s : σ) (stack : Stack) (n : Nat) (k : α → Code),
    run host apply (n + d) (m k) stack w s = run host apply n (k a) stack w s

theorem yields_pure (a : α) : Yields w (pure a) a :=
  ⟨0, fun _ _ _ _ _ _ => rfl⟩

theorem yields_look (f : World → α) : Yields w (look f) (f w) :=
  ⟨1, fun _ _ _ _ _ _ => rfl⟩

theorem yields_bind {m : Act α} {f : α → Act β} {a : α} {b : β} (hm : Yields w m a)
    (hf : Yields w (f a) b) : Yields w (m >>= f) b := by
  obtain ⟨d, hd⟩ := hm
  obtain ⟨e, he⟩ := hf
  refine ⟨e + d, fun σ host s stack n k => ?_⟩
  rw [← Nat.add_assoc]
  exact (hd σ host s stack (n + e) fun a => f a k).trans (he σ host s stack n k)

end yields

end Act

end Hypermedia.Script
