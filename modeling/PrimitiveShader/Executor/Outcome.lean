import PrimitiveShader.Executor.Error

/-!
# Outcomes of a run

A step of the executor works on a state. It ends with a value, or with an error that leaves the
state as far as it got, or with a fault that leaves nothing. `Exec σ α` is such a step; steps are
chained in `do` blocks, where the first error or fault ends the whole.
-/

namespace PrimitiveShader

/-- How a step ends. -/
inductive Outcome (σ α : Type) where
  | done (value : α) (state : σ)
  | failed (error : RunError) (state : σ)
  | faulted (fault : Fault)

/-- A step on a state. -/
def Exec (σ α : Type) : Type := σ → Outcome σ α

namespace Exec

variable {σ α β : Type}

/-- Ends with a value and leaves the state alone. -/
@[inline] def pure (a : α) : Exec σ α := fun s => .done a s

/-- Goes on with the value of a step that succeeds. -/
@[inline] def bind (step : Exec σ α) (next : α → Exec σ β) : Exec σ β := fun s =>
  match step s with
  | .done a s => next a s
  | .failed error s => .failed error s
  | .faulted fault => .faulted fault

instance : Monad (Exec σ) where
  pure := pure
  bind := bind

instance : LawfulMonad (Exec σ) := LawfulMonad.mk' (Exec σ)
  (fun x => by
    funext s
    change Exec.bind x _ s = x s
    unfold Exec.bind
    cases x s <;> rfl)
  (fun _ _ => rfl)
  (fun x f g => by
    funext s
    change Exec.bind (Exec.bind x f) g s = Exec.bind x (fun a => Exec.bind (f a) g) s
    unfold Exec.bind
    cases x s <;> rfl)

/-- Two steps in a row succeed when both succeed, the second from where the first ends. -/
theorem bind_eq_done_iff {step : Exec σ α} {next : α → Exec σ β} {s s' : σ} {b : β} :
    (step >>= next) s = .done b s' ↔ ∃ a s₁, step s = .done a s₁ ∧ next a s₁ = .done b s' := by
  change Exec.bind step next s = _ ↔ _
  unfold Exec.bind
  cases step s with
  | done a s₁ =>
    exact ⟨fun h => ⟨a, s₁, rfl, h⟩, fun ⟨_, _, h, h'⟩ => by
      cases h
      exact h'⟩
  | failed error s₁ => simp
  | faulted fault => simp

/-- Two steps in a row fail where the first one fails, or where the second one does. -/
theorem bind_eq_failed_iff {step : Exec σ α} {next : α → Exec σ β} {s s' : σ} {error : RunError} :
    (step >>= next) s = .failed error s' ↔
      step s = .failed error s' ∨ ∃ a s₁, step s = .done a s₁ ∧ next a s₁ = .failed error s' := by
  change Exec.bind step next s = _ ↔ _
  unfold Exec.bind
  cases step s with
  | done a s₁ =>
    exact ⟨fun h => .inr ⟨a, s₁, rfl, h⟩, fun h => by
      obtain h | ⟨_, _, h, h'⟩ := h
      · cases h
      · cases h
        exact h'⟩
  | failed error s₁ => simp
  | faulted fault => simp

/-- Ends with an error. -/
@[inline] def fail (error : RunError) : Exec σ α := fun s => .failed error s

/-- Ends with a fault. -/
@[inline] def fault (fault : Fault) : Exec σ α := fun _ => .faulted fault

/-- Looks at the state. -/
@[inline] def get : Exec σ σ := fun s => .done s s

/-- Changes the state. -/
@[inline] def update (f : σ → σ) : Exec σ Unit := fun s => .done () (f s)

/-- A computation that may fault, as a step. -/
@[inline] def lift (result : Except Fault α) : Exec σ α := fun s =>
  match result with
  | .ok a => .done a s
  | .error fault => .faulted fault

instance : MonadLift (Except Fault) (Exec σ) where
  monadLift := lift

end Exec

end PrimitiveShader
