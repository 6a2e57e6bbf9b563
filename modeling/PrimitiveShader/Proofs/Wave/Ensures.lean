import PrimitiveShader.Proofs.Wave.Execute

/-!
# What a step ensures

`Outcome.Ensures F Q` holds of an outcome that is a value with `Q`, or that has hit the step limit,
or that is a fault when `F` admits one. No other error is allowed. The rules follow the ways in which
steps are put together. `Outcome.Ends E F Q` is the same for code that may end with other errors, those
that `E` admits.
-/

namespace PrimitiveShader

section

variable {σ α β : Type} {F F' : Prop}

/-- A value with `Q`, or a fault that is admitted. -/
def Yields (F : Prop) (Q : α → Prop) : Except Fault α → Prop
  | .ok a => Q a
  | .error _ => F

/-- The value of a step that has succeeded. -/
def Outcome.value? : Outcome σ α → Option α
  | .done a _ => some a
  | _ => none

theorem Outcome.exists_done_of_value? {o : Outcome σ α} {a : α} (h : o.value? = some a) : ∃ s, o = .done a s := by
  cases o with
  | done b s =>
    cases h
    exact ⟨s, rfl⟩
  | failed error s => cases h
  | faulted fault => cases h

/-- A value with `Q`, the step limit, or a fault that is admitted. -/
def Outcome.Ensures (F : Prop) (Q : α → σ → Prop) : Outcome σ α → Prop
  | .done a s => Q a s
  | .failed (.stepLimit _) _ => True
  | .failed _ _ => False
  | .faulted _ => F

/-- A value with `Q`, an error with `E`, or a fault that is admitted. -/
def Outcome.Ends (E : RunError → Prop) (F : Prop) (Q : α → σ → Prop) : Outcome σ α → Prop
  | .done a s => Q a s
  | .failed error _ => E error
  | .faulted _ => F

variable {r : Except Fault α} {xs : List α} {Q : α → Prop} {b : β} {f : β → α → Except Fault β}

theorem Yields.mono {Q' : α → Prop} (h : Yields F Q r) (hQ : ∀ a, r = .ok a → Q a → Q' a) : Yields F Q' r := by
  cases r with
  | ok a => exact hQ a rfl h
  | error fault => exact h

/-- All that matters where faults are admitted is what is known of a value. -/
theorem Yields.of_admitted (hF : F) (h : ∀ a, Q a) : Yields F Q r := by
  cases r with
  | ok a => exact h a
  | error fault => exact hF

theorem Yields.bind_iff {Q : β → Prop} {k : α → Except Fault β} :
    Yields F Q (r >>= k) ↔ Yields F (fun a => Yields F Q (k a)) r := by
  cases r with
  | ok a => exact Iff.rfl
  | error fault => exact Iff.rfl

/-- Something done for every element of a list is a fold that builds nothing up. -/
theorem forM_eq_foldlM (xs : List α) (f : α → Exec σ PUnit) : xs.forM f = xs.foldlM (fun _ => f) ⟨⟩ := by
  induction xs with
  | nil => rfl
  | cons x rest ih =>
    rw [List.foldlM_cons]
    change (f x >>= fun _ => rest.forM f) = _
    rw [ih]

namespace Outcome

section

variable {E : RunError → Prop} {o : Outcome σ α} {f : α → Exec σ PUnit} {Q : α → σ → Prop} {s : σ}

theorem Ends.mono {Q' : α → σ → Prop} (h : o.Ends E F Q)
    (hQ : ∀ a s, o = .done a s → Q a s → Q' a s) : o.Ends E F Q' := by
  cases o with
  | done a s => exact hQ a s rfl h
  | failed error s => exact h
  | faulted fault => exact h

/-- An action with nothing else to end in succeeds. -/
theorem Ends.exists_done (h : o.Ends (fun _ => False) False Q) : ∃ a s, o = .done a s ∧ Q a s := by
  cases o with
  | done a s => exact ⟨a, s, rfl, h⟩
  | failed error s => exact h.elim
  | faulted fault => exact h.elim

theorem Ends.bind {Q : β → σ → Prop} {x : Exec σ α} {k : α → Exec σ β} {s : σ}
    (h : (x s).Ends E F fun a t => (k a t).Ends E F Q) : ((x >>= k) s).Ends E F Q := by
  rw [Exec.bind_apply]
  cases hx : x s with
  | done a t =>
    rw [hx] at h
    exact h
  | failed error t =>
    rw [hx] at h
    exact h
  | faulted fault =>
    rw [hx] at h
    exact h

theorem Ends.map {Q : β → σ → Prop} {f : α → β} (h : o.Ends E F fun a s => Q (f a) s) : (o.map f).Ends E F Q := by
  cases o with
  | done a s => exact h
  | failed error s => exact h
  | faulted fault => exact h

theorem Ends.lift {r : Except Fault α} (h : Yields F (fun a => Q a s) r) : ((Exec.lift r : Exec σ α) s).Ends E F Q := by
  cases r with
  | ok a => exact h
  | error fault => exact h

/-- A fold over a list, with an invariant that knows which elements are done. -/
theorem Ends.foldlM {f : β → α → Exec σ β} {I : List α → β → σ → Prop}
    (h : ∀ before x after b s, xs = before ++ x :: after → I before b s →
      (f b x s).Ends E F (I (before ++ [x]))) {b : β} (hI : I [] b s) : (xs.foldlM f b s).Ends E F (I xs) := by
  induction xs generalizing b s I with
  | nil => exact hI
  | cons x rest ih =>
    rw [List.foldlM_cons]
    refine .bind ((h [] x rest b s rfl hI).mono fun b' t _ ht => ?_)
    exact ih (I := fun before => I (x :: before))
      (fun before y after b s hrest => h (x :: before) y after b s (by rw [hrest]; rfl)) ht

/-- Something done for every element of a list. -/
theorem Ends.forM {I : List α → σ → Prop} (h : ∀ before x after s, xs = before ++ x :: after → I before s →
      (f x s).Ends E F fun _ => I (before ++ [x])) (hI : I [] s) : (xs.forM f s).Ends E F fun _ => I xs := by
  rw [forM_eq_foldlM]
  exact .foldlM (I := fun before _ => I before) (fun before x after _ s => h before x after s) hI

/-- Something done for every element of a list, of which only the ending matters. -/
theorem Ends.forM_mem (h : ∀ x ∈ xs, ∀ s, (f x s).Ends E F fun _ _ => True) (s : σ) :
    (xs.forM f s).Ends E F fun _ _ => True :=
  .forM (I := fun _ _ => True) (fun _ x _ s hxs _ => h x (by simp [hxs]) s) trivial

end

variable {o : Outcome σ α} {E : RunError → Prop} {Q : α → σ → Prop} {s : σ}

/-- What happens to memory leaves the result alone. -/
theorem Ends.onMemory {x : Exec SharedMemory α} {s : Shared} {P : α → Prop} (h : (x s.memory).Ends E F fun a _ => P a) :
    (Shared.onMemory x s).Ends E F fun a t => P a ∧ t.result = s.result := by
  unfold Shared.onMemory
  cases hx : x s.memory <;> simpa [hx, Ends] using h

/-! ## No other error -/

theorem ensures_iff : o.Ensures F Q ↔ o.Ends (fun error => ∃ wave, error = .stepLimit wave) F Q := by
  cases o with
  | done a s => exact Iff.rfl
  | failed error s => cases error <;> simp [Ensures, Ends]
  | faulted fault => exact Iff.rfl

theorem Ensures.ends (h : o.Ensures F Q) (hE : ∀ wave, E (.stepLimit wave)) (hF : F → F') : o.Ends E F' Q := by
  have hends := ensures_iff.mp h
  cases o with
  | done a s => exact h
  | faulted fault => exact hF h
  | failed error s =>
    obtain ⟨wave, rfl⟩ := hends
    exact hE wave

theorem Ensures.mono {Q' : α → σ → Prop} (h : o.Ensures F Q)
    (hQ : ∀ a s, o = .done a s → Q a s → Q' a s) : o.Ensures F Q' :=
  ensures_iff.mpr ((ensures_iff.mp h).mono hQ)

theorem Ensures.mono_faults (h : o.Ensures F Q) (hF : F → F') : o.Ensures F' Q :=
  ensures_iff.mpr (h.ends (fun wave => ⟨wave, rfl⟩) hF)

theorem Ensures.bind {Q : β → σ → Prop} {x : Exec σ α} {k : α → Exec σ β} {s : σ}
    (h : (x s).Ensures F fun a t => (k a t).Ensures F Q) : ((x >>= k) s).Ensures F Q := by
  simp only [ensures_iff] at h ⊢
  exact h.bind

theorem Ensures.lift {r : Except Fault α}
    (h : Yields F (fun a => Q a s) r) : ((Exec.lift r : Exec σ α) s).Ensures F Q :=
  ensures_iff.mpr (.lift h)

end Outcome

theorem Yields.foldlM {I : List α → β → Prop} (h : ∀ before x after b, xs = before ++ x :: after → I before b →
      Yields F (I (before ++ [x])) (f b x)) (hI : I [] b) : Yields F (I xs) (xs.foldlM f b) := by
  induction xs generalizing b I with
  | nil => exact hI
  | cons x rest ih =>
    rw [List.foldlM_cons]
    refine Yields.bind_iff.mpr ((h [] x rest b rfl hI).mono fun b' _ hb => ?_)
    exact ih (I := fun before => I (x :: before))
      (fun before y after b hrest => h (x :: before) y after b (by rw [hrest]; rfl)) hb

/-- A fold over a list, with a property of what is built up. -/
theorem Yields.foldlM_keeps {P : β → Prop}
    (h : ∀ b, ∀ x ∈ xs, P b → Yields F P (f b x)) (hb : P b) : Yields F P (xs.foldlM f b) :=
  Yields.foldlM (I := fun _ => P) (fun _ x _ b hxs => h b x (by simp [hxs])) hb

/-- A fold over a list, with a relation that each step keeps. -/
theorem Yields.foldlM_relates {R : β → β → Prop} (hrefl : ∀ b, R b b) (htrans : ∀ {a b c}, R a b → R b c → R a c)
    (h : ∀ b x, x ∈ xs → Yields F (R b) (f b x)) (b : β) : Yields F (R b) (xs.foldlM f b) :=
  Yields.foldlM_keeps (fun c x hx hbc => (h c x hx).mono fun _ _ => htrans hbc) (hrefl b)

end

end PrimitiveShader
