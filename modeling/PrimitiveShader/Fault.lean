/-!
# Faults

Every operation of the library states what its caller must guarantee: sizes that fit 32 bits,
element numbers inside their region, balanced control flow. A broken guarantee is a `Fault`. It is
kept apart from the reported errors (of a configuration, a program, a lowering or a run), which are
answers to well-formed questions: a fault ends the computation and leaves no state behind.
-/

namespace PrimitiveShader

/-- A broken guarantee of a caller. -/
inductive Fault where
  /-- A builder was finished while an `if` or a `loop` was still open. -/
  | unbalancedControlFlow
  /-- An `else` was opened where no `if` branch is open. -/
  | elseWithoutIf
  /-- An `if` was closed where none is open. -/
  | closeWithoutIf
  /-- A loop was closed where none is open. -/
  | closeWithoutLoop
  /-- A vertex index does not fit its field of an export word. -/
  | indexTooWide (index : UInt32)
  /-- An element of a region, here given by its text, lies beyond the region's end. -/
  | elementOutOfBounds (region : String) (index : Nat)
  /-- An export word holds one to three vertices. -/
  | vertexCount
  /-- A field does not fit the elements it should be part of. -/
  | fieldOutsideElement
  /-- A sum or product leaves its word. -/
  | overflow
  /-- A shift amount is not below the width of the shifted word. -/
  | shiftTooWide
  /-- A number names no entry of its table. -/
  | outOfRange
  /-- A number names no declared variable. -/
  | unknownVariable
  /-- A branch or loop operation meets a control stack that does not match it. -/
  | controlStack
  /-- A region that the layout should hold is missing. -/
  | missingRegion
deriving DecidableEq, Repr

/-- The text of a fault. Faults of plain arithmetic and of table look-ups have none. -/
def Fault.message? : Fault → Option String
  | .unbalancedControlFlow => some "unbalanced control flow in builder"
  | .elseWithoutIf => some "push_else without push_if"
  | .closeWithoutIf => some "pop_if without push_if"
  | .closeWithoutLoop => some "pop_loop without push_loop"
  | .indexTooWide index => some s!"vertex index {index.toNat} does not fit 10 bits"
  | .elementOutOfBounds region index => some s!"{region}: element {index} out of bounds"
  | .vertexCount | .fieldOutsideElement | .overflow | .shiftTooWide | .outOfRange
  | .unknownVariable | .controlStack | .missingRegion => none

/-! ## Sizes that fit 32 bits -/

/-- Sizes and offsets are 32-bit quantities: a larger result is a fault. -/
def fits32 (n : Nat) : Except Fault Nat :=
  if n < 4294967296 then .ok n else .error .overflow

theorem fits32_of_lt {n : Nat} (h : n < 4294967296) : fits32 n = .ok n := if_pos h

theorem fits32_eq_ok_iff {n m : Nat} : fits32 n = .ok m ↔ n < 4294967296 ∧ m = n := by
  by_cases h : n < 4294967296
  · rw [fits32_of_lt h]
    exact ⟨fun he => ⟨h, (Except.ok.inj he).symm⟩, fun he => congrArg Except.ok he.2.symm⟩
  · have he : fits32 n = .error .overflow := if_neg h
    rw [he]
    exact ⟨fun hc => (nomatch hc), fun hc => absurd hc.1 h⟩

/-- The least multiple of `align` that is not below `n`. -/
def alignUp (n align : Nat) : Nat := (n + align - 1) / align * align

theorem le_alignUp {n align : Nat} (h : 0 < align) : n ≤ alignUp n align := by
  have hd := Nat.div_add_mod (n + align - 1) align
  have hm := Nat.mod_lt (n + align - 1) h
  have hc := Nat.mul_comm align ((n + align - 1) / align)
  simp only [alignUp]
  omega

theorem alignUp_lt {n align : Nat} (h : 0 < align) : alignUp n align < n + align := by
  have hle : alignUp n align ≤ n + align - 1 := Nat.div_mul_le_self _ _
  omega

theorem dvd_alignUp (n align : Nat) : align ∣ alignUp n align :=
  Nat.dvd_mul_left align _

/-! ## Checks -/

/-- A computation that succeeds has succeeded step by step. -/
theorem except_bind_eq_ok {ε α β : Type} {x : Except ε α} {f : α → Except ε β} {b : β} :
    (x >>= f) = .ok b ↔ ∃ a, x = .ok a ∧ f a = .ok b := by
  cases x with
  | error e => simp [bind, Except.bind]
  | ok a => simp [bind, Except.bind]

theorem except_map_eq_ok {ε α β : Type} {x : Except ε α} {f : α → β} {b : β} :
    x.map f = .ok b ↔ ∃ a, x = .ok a ∧ f a = b := by
  cases x with
  | error e => simp [Except.map]
  | ok a => simp [Except.map]

theorem except_seq_eq_ok {ε α : Type} {x : Except ε Unit} {y : Except ε α} {b : α} :
    (x >>= fun _ => y) = .ok b ↔ x = .ok () ∧ y = .ok b := by
  rw [except_bind_eq_ok]
  exact ⟨fun ⟨_, h⟩ => h, fun h => ⟨(), h⟩⟩

/-- A list is read if each of its members is. -/
theorem exists_mapM_eq_ok {ε α β : Type} {f : α → Except ε β} {xs : List α} (h : ∀ x ∈ xs, ∃ y, f x = .ok y) :
    ∃ ys, xs.mapM f = .ok ys := by
  induction xs with
  | nil => exact ⟨[], rfl⟩
  | cons x rest ih =>
    obtain ⟨y, hy⟩ := h x List.mem_cons_self
    obtain ⟨ys, hys⟩ := ih fun x' hx' => h x' (List.mem_cons_of_mem _ hx')
    refine ⟨y :: ys, ?_⟩
    rw [List.mapM_cons, hy, hys]
    rfl

theorem mapError_eq_ok {ε ε' α : Type} {x : Except ε α} {f : ε → ε'} {a : α} : x.mapError f = .ok a ↔ x = .ok a := by
  cases x with
  | error e => exact ⟨fun h => (by cases h), fun h => (by cases h)⟩
  | ok b => exact ⟨fun h => (by cases h; rfl), fun h => (by cases h; rfl)⟩

section

variable {ε α : Type} {c : Prop} [Decidable c] {error : ε}

/-- A check with more to do behind it. -/
theorem guard_eq_ok {x : Except ε α} {a : α} :
    (if c then x else throw error >>= fun _ : Unit => x) = .ok a ↔ c ∧ x = .ok a := by
  by_cases h : c
  · simp [h]
  · simp [h, bind, Except.bind, throw, throwThe, MonadExceptOf.throw]

theorem refuse_eq_ok {x : Except ε α} {a : α} :
    (if c then throw error >>= fun _ : Unit => x else x) = .ok a ↔ ¬ c ∧ x = .ok a := by
  rw [← ite_not, guard_eq_ok]

/-- A check at the end. -/
theorem guard_end_eq_ok {u : Unit} : (if c then pure () else throw error : Except ε Unit) = .ok u ↔ c := by
  by_cases h : c
  · simp [h, pure, Except.pure]
  · simp [h, throw, throwThe, MonadExceptOf.throw]

theorem refuse_end_eq_ok {u : Unit} : (if c then throw error else pure () : Except ε Unit) = .ok u ↔ ¬ c := by
  rw [← ite_not, guard_end_eq_ok]

end

end PrimitiveShader
