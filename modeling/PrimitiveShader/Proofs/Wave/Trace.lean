import PrimitiveShader.Proofs.Wave.Execute

/-!
# Steps that are watched

Seen from outside, a wave runs one instruction after the other, each on some of its lanes (`Issue`).
A `Traced` step reports the instructions it has run together with how it ends; unlike the state, this
record is not lost when the step ends with an error or with a fault.
-/

namespace PrimitiveShader

/-- An instruction that is run, and the lanes that run it. -/
structure Issue where
  value : Value
  exec : LaneMask
deriving DecidableEq, Repr

/-- What is seen of a step: the instructions it has run, in order, and how it ends. -/
@[ext] structure Report (σ α : Type) where
  issues : List Issue
  outcome : Outcome σ α

/-- A step that reports the instructions it runs. -/
def Traced (σ α : Type) : Type := σ → Report σ α

namespace Report

variable {σ α β : Type}

/-- The report with other instructions before its own. -/
def after (issues : List Issue) (r : Report σ α) : Report σ α := ⟨issues ++ r.issues, r.outcome⟩

/-- Changes the value of a successful report. -/
def map (f : α → β) (r : Report σ α) : Report σ β := ⟨r.issues, r.outcome.map f⟩

@[simp] theorem after_nil (r : Report σ α) : r.after [] = r := rfl

@[simp] theorem outcome_after (issues : List Issue) (r : Report σ α) :
    (r.after issues).outcome = r.outcome := rfl

theorem after_append (a b : List Issue) (r : Report σ α) : r.after (a ++ b) = (r.after b).after a := by
  simp only [after, List.append_assoc]

theorem map_congr {f g : α → β} {r : Report σ α}
    (h : ∀ a s, r.outcome = .done a s → f a = g a) : r.map f = r.map g := by
  simp only [map, Outcome.map_congr h]

theorem outcome_map_eq_faulted_iff {f : α → β} {r : Report σ α} {fault : Fault} :
    (r.map f).outcome = .faulted fault ↔ r.outcome = .faulted fault := by
  rcases r with ⟨issues, ⟨a, s⟩ | ⟨error, s⟩ | fault⟩ <;> simp [map, Outcome.map]

end Report

namespace Traced

variable {σ α β : Type}

/-- Ends with a value and runs nothing. -/
def pure (a : α) : Traced σ α := fun s => ⟨[], .done a s⟩

/-- Goes on with the value of a step that succeeds. -/
def bind (step : Traced σ α) (next : α → Traced σ β) : Traced σ β := fun s =>
  match step s with
  | ⟨issues, .done a s⟩ => (next a s).after issues
  | ⟨issues, .failed error s⟩ => ⟨issues, .failed error s⟩
  | ⟨issues, .faulted fault⟩ => ⟨issues, .faulted fault⟩

instance : Monad (Traced σ) where
  pure := pure
  bind := bind

instance : LawfulMonad (Traced σ) := LawfulMonad.mk' (Traced σ)
  (fun x => by
    funext s
    change bind x _ s = x s
    unfold bind
    rcases x s with ⟨issues, ⟨a, t⟩ | ⟨error, t⟩ | fault⟩
    · simp [Report.after, pure]
    · rfl
    · rfl)
  (fun _ _ => rfl)
  (fun x f g => by
    funext s
    change bind (bind x f) g s = bind x (fun a => bind (f a) g) s
    unfold bind
    rcases x s with ⟨issues, ⟨a, t⟩ | ⟨error, t⟩ | fault⟩
    · dsimp only
      rcases f a t with ⟨issues', ⟨b, u⟩ | ⟨error, u⟩ | fault⟩
      · simp [Report.after]
      · rfl
      · rfl
    · rfl
    · rfl)

theorem pure_apply (a : α) (s : σ) : (Pure.pure a : Traced σ α) s = ⟨[], .done a s⟩ := rfl

theorem bind_apply (step : Traced σ α) (next : α → Traced σ β) (s : σ) : (step >>= next) s = match step s with
      | ⟨issues, .done a s⟩ => (next a s).after issues
      | ⟨issues, .failed error s⟩ => ⟨issues, .failed error s⟩
      | ⟨issues, .faulted fault⟩ => ⟨issues, .faulted fault⟩ := rfl

variable {step : Traced σ α} {next : α → Traced σ β} {s : σ}

/-- Two steps in a row succeed when both succeed, the second from where the first ends. -/
theorem bind_outcome_eq_done {s' : σ} {b : β} (h : ((step >>= next) s).outcome = .done b s') :
    ∃ a s₁, (step s).outcome = .done a s₁ ∧ (next a s₁).outcome = .done b s' := by
  rw [bind_apply] at h
  rcases hs : step s with ⟨issues, ⟨a, t⟩ | ⟨error, t⟩ | fault⟩ <;> rw [hs] at h
  · exact ⟨a, t, rfl, h⟩
  · cases h
  · cases h

/-- A step of which nothing is seen but how it ends. -/
def quietly (step : Exec σ α) : Traced σ α := fun s => ⟨[], step s⟩

/-- Runs an instruction. -/
def issue (i : Issue) : Traced σ Unit := fun s => ⟨[i], .done () s⟩

theorem quietly_bind (step : Exec σ α) (next : α → Exec σ β) :
    quietly (step >>= next) = quietly step >>= fun a => quietly (next a) := by
  funext s
  rw [bind_apply]
  simp only [quietly, Exec.bind_apply]
  cases step s <;> rfl

end Traced

end PrimitiveShader
