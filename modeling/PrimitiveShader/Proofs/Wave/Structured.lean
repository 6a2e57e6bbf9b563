import PrimitiveShader.Proofs.Wave.Lockstep
import PrimitiveShader.Proofs.Wave.Trace

/-!
# Structured control flow

`Block.perform` runs the tree of a program on the lanes of a wave, whatever running a single
instruction means. A branch runs its first side on the lanes that take it and its second side on the
others, and goes on with the lanes that entered it and have not left the loop around it. A loop is
repeated on the lanes that have not left it until there are none, and all lanes that entered it go
on. Leaving a loop moves the lanes that are on to those that have left.

At every point of a block the lanes that are on are those that were on at its start and have not left
the loop around it since (`Block.continues_of_perform`). `Block.lockstep` is the special case in which
the instructions are run without a record and without barriers (`Block.perform_lockstep`).
-/

namespace PrimitiveShader

/-! ## The semantics -/

section

variable {σ : Type}

namespace Formation

/-- Runs `block` on the lanes `mask`, if there are any. -/
def narrowed (block : Formation → Traced σ Formation) (mask : LaneMask) (φ : Formation) :
    Traced σ Formation :=
  if mask.isEmpty then pure { φ with exec := mask } else block { φ with exec := mask }

/-- Repeats the body of a loop on those of the lanes `entered` that have not left it, until there are
none or the passes run out. -/
def repeated (id : Nat) (entered : LaneMask) (body : Formation → Traced σ Formation) :
    Nat → Formation → Traced σ Formation
  | 0, _ => .quietly (Exec.fail (.stepLimit id))
  | n + 1, φ => do
    let φ ← body φ
    if (entered.diff φ.gone).isEmpty then return φ
    else repeated id entered body n { φ with exec := entered.diff φ.gone }

end Formation

mutual

/-- Runs a node of the tree, each loop in it for at most `fuel` passes. -/
def Node.perform (instr : Value → Formation → Traced σ Formation) (id fuel : Nat) :
    Node → Formation → Traced σ Formation
  | .instr value, φ => instr value φ
  | .branch cond thenBlock elseBlock, φ => do
    let taken ← .quietly (Exec.lift ((φ.toWave id).maskOf cond))
    let φ₁ ← Formation.narrowed (Block.perform instr id fuel thenBlock) taken φ
    let φ₂ ← Formation.narrowed (Block.perform instr id fuel elseBlock) (φ.exec.diff taken) φ₁
    return { φ₂ with exec := φ.exec.diff φ₂.gone }
  | .loop body, φ => do
    let ψ ← Formation.repeated id φ.exec (Block.perform instr id fuel body) fuel
      { φ with left := some .empty }
    return { φ with lanes := ψ.lanes }
  | .leave, φ =>
    match φ.left with
    | some left => pure { φ with exec := .empty, left := some (left.union φ.exec) }
    | none => .quietly (Exec.fault .controlStack)

/-- Runs a block, node by node. -/
def Block.perform (instr : Value → Formation → Traced σ Formation) (id fuel : Nat) :
    List Node → Formation → Traced σ Formation
  | [], φ => pure φ
  | node :: rest, φ => do
    let φ ← node.perform instr id fuel φ
    Block.perform instr id fuel rest φ

end

/-! ## Which lanes are on -/

/-- What running code keeps of a formation: there is a loop around it or not, lanes that have left
the loop stay out, and the lanes that are on are those that were on and have not left. -/
structure Formation.Continues (φ φ' : Formation) : Prop where
  left : φ'.left.isSome = φ.left.isSome
  gone : ∀ lane ∈ φ.gone.lanes, lane ∈ φ'.gone.lanes
  exec : (∀ lane ∈ φ.exec.lanes, lane ∉ φ.gone.lanes) → φ'.exec = φ.exec.diff φ'.gone

namespace Formation.Continues

variable {φ φ₁ φ₂ φ' : Formation}

/-- A step that switches no lane on or off. -/
theorem of_same (hexec : φ'.exec = φ.exec) (hleft : φ'.left = φ.left) : φ.Continues φ' where
  left := by rw [hleft]
  gone lane h := by rwa [Formation.gone, hleft]
  exec h := by
    rw [hexec, Formation.gone, hleft]
    exact (LaneMask.diff_eq_self h).symm

/-- The lanes that have not left stay those of a larger set that have not left. -/
theorem exec_eq_diff (h : φ.Continues φ') {entered : LaneMask}
    (hexec : φ.exec = entered.diff φ.gone) : φ'.exec = entered.diff φ'.gone := by
  rw [h.exec fun lane hl => ?_, hexec, LaneMask.diff_diff_of_subset h.gone]
  rw [hexec, LaneMask.mem_lanes_diff] at hl
  exact hl.2

theorem trans (h : φ.Continues φ₁) (h' : φ₁.Continues φ₂) : φ.Continues φ₂ where
  left := h'.left.trans h.left
  gone lane hl := h'.gone lane (h.gone lane hl)
  exec hd := h'.exec_eq_diff (h.exec hd)

end Formation.Continues

/-- Running an instruction switches no lane on or off. -/
def KeepsLanes (instr : Value → Formation → Traced σ Formation) : Prop :=
  ∀ value φ s φ' s', (instr value φ s).outcome = .done φ' s' →
    φ'.exec = φ.exec ∧ φ'.left = φ.left

theorem Formation.continues_of_narrowed {block : Formation → Traced σ Formation}
    (h : ∀ φ s φ' s', (block φ s).outcome = .done φ' s' → φ.Continues φ') {mask : LaneMask}
    {φ φ' : Formation} {s s' : σ} (hr : (narrowed block mask φ s).outcome = .done φ' s') :
    Continues { φ with exec := mask } φ' := by
  unfold narrowed at hr
  split at hr
  · cases hr
    exact .of_same rfl rfl
  · exact h _ _ _ _ hr

/-- The passes of a loop end with the lanes that have not left it, and there are none. -/
theorem Formation.repeated_outcome_eq_done {id n : Nat} {entered : LaneMask} {body : Formation → Traced σ Formation}
    (h : ∀ φ s φ' s', (body φ s).outcome = .done φ' s' → φ.Continues φ') {φ φ' : Formation}
    {s s' : σ} (hexec : φ.exec = entered.diff φ.gone) (hr : (repeated id entered body n φ s).outcome = .done φ' s') :
    φ.Continues φ' ∧ φ'.exec = entered.diff φ'.gone ∧ φ'.exec.isEmpty := by
  induction n generalizing φ s with
  | zero => cases hr
  | succ n ih =>
    unfold repeated at hr
    obtain ⟨φ₁, s₁, h₁, hr⟩ := Traced.bind_outcome_eq_done hr
    have hc := h _ _ _ _ h₁
    have hexec₁ := hc.exec_eq_diff hexec
    split at hr
    · rename_i hempty
      cases hr
      exact ⟨hc, hexec₁, hexec₁ ▸ hempty⟩
    · have heta : { φ₁ with exec := entered.diff φ₁.gone } = φ₁ := by rw [← hexec₁]
      rw [heta] at hr
      obtain ⟨hc', hend⟩ := ih hexec₁ hr
      exact ⟨hc.trans hc', hend⟩

mutual

theorem Node.continues_of_perform {instr : Value → Formation → Traced σ Formation} {id fuel : Nat}
    (hinstr : KeepsLanes instr) : ∀ (node : Node) (φ : Formation) (s : σ) (φ' : Formation) (s' : σ),
    (node.perform instr id fuel φ s).outcome = .done φ' s' → φ.Continues φ'
  | .instr value, φ, s, φ', s', h => by
    obtain ⟨hexec, hleft⟩ := hinstr value φ s φ' s' h
    exact .of_same hexec hleft
  | .branch cond thenBlock elseBlock, φ, s, φ', s', h => by
    unfold Node.perform at h
    obtain ⟨taken, s₁, -, h⟩ := Traced.bind_outcome_eq_done h
    obtain ⟨φ₁, s₂, h₁, h⟩ := Traced.bind_outcome_eq_done h
    obtain ⟨φ₂, s₃, h₂, h⟩ := Traced.bind_outcome_eq_done h
    cases h
    have hthen := Formation.continues_of_narrowed (Block.continues_of_perform hinstr thenBlock) h₁
    have helse := Formation.continues_of_narrowed (Block.continues_of_perform hinstr elseBlock) h₂
    exact ⟨helse.left.trans hthen.left, fun lane hl => helse.gone lane (hthen.gone lane hl), fun _ => rfl⟩
  | .loop body, φ, s, φ', s', h => by
    unfold Node.perform at h
    obtain ⟨ψ, s₁, -, h⟩ := Traced.bind_outcome_eq_done h
    cases h
    exact .of_same rfl rfl
  | .leave, φ, s, φ', s', h => by
    simp only [Node.perform] at h
    cases hl : φ.left with
    | none =>
      rw [hl] at h
      cases h
    | some left =>
      rw [hl] at h
      cases h
      refine ⟨by rw [hl]; rfl, fun lane hlane => ?_, fun _ => ?_⟩
      · rw [Formation.gone, hl] at hlane
        exact LaneMask.mem_lanes_union.mpr (.inl hlane)
      · refine LaneMask.eq_of_mem_lanes fun lane => ?_
        rw [LaneMask.mem_lanes_diff, Formation.gone]
        constructor
        · intro hlane
          exact absurd hlane (LaneMask.not_mem_lanes_empty lane)
        · rintro ⟨hon, hnot⟩
          exact absurd (LaneMask.mem_lanes_union.mpr (.inr hon)) hnot

/-- The lanes that are on after a block are those that were on and have not left the loop. -/
theorem Block.continues_of_perform {instr : Value → Formation → Traced σ Formation} {id fuel : Nat}
    (hinstr : KeepsLanes instr) : ∀ (block : Block) (φ : Formation) (s : σ) (φ' : Formation) (s' : σ),
    (Block.perform instr id fuel block φ s).outcome = .done φ' s' → φ.Continues φ'
  | [], φ, s, φ', s', h => by
    unfold Block.perform at h
    cases h
    exact .of_same rfl rfl
  | node :: rest, φ, s, φ', s', h => by
    unfold Block.perform at h
    obtain ⟨φ₁, s₁, h₁, h⟩ := Traced.bind_outcome_eq_done h
    exact (Node.continues_of_perform hinstr node _ _ _ _ h₁).trans (Block.continues_of_perform hinstr rest _ _ _ _ h)

end

end

/-! ## Lockstep -/

section

variable (group : Workgroup) (id fuel : Nat)

/-- An instruction other than a barrier, without a record. -/
def Value.perform (value : Value) (φ : Formation) : Traced Shared Formation :=
  .quietly (value.lockstep group id φ)

theorem Value.keepsLanes_perform : KeepsLanes (Value.perform group id) := by
  intro value φ s φ' s' h
  change value.lockstep group id φ s = .done φ' s' at h
  unfold Value.lockstep at h
  split at h
  · cases h
    exact ⟨rfl, rfl⟩
  · obtain ⟨instr, s₁, -, h⟩ := Exec.bind_eq_done_iff.mp h
    obtain ⟨wave, s₂, -, h⟩ := Exec.bind_eq_done_iff.mp h
    cases h
    exact ⟨rfl, rfl⟩

theorem Formation.narrowed_quietly (block : Formation → Exec Shared Formation) (mask : LaneMask)
    (φ : Formation) : narrowed (fun φ => .quietly (block φ)) mask φ = .quietly (onLanes block mask φ) := by
  unfold narrowed onLanes
  split <;> rfl

/-- Passes that go on with the lanes that have not left are passes that go on with the lanes that are
on. -/
theorem Formation.repeated_quietly {body : Formation → Exec Shared Formation} {entered : LaneMask}
    (h : ∀ φ s φ' s', body φ s = .done φ' s' → φ.Continues φ') (n : Nat) {φ : Formation}
    (hexec : φ.exec = entered.diff φ.gone) :
    repeated id entered (fun φ => .quietly (body φ)) n φ = .quietly (passes id body n φ) := by
  induction n generalizing φ with
  | zero => rfl
  | succ n ih =>
    funext s
    rw [repeated, passes, Traced.quietly_bind, Traced.bind_apply, Traced.bind_apply]
    simp only [Traced.quietly]
    cases hb : body φ s with
    | failed error t => rfl
    | faulted fault => rfl
    | done φ₁ t =>
      have hc := h _ _ _ _ hb
      have hexec₁ := hc.exec_eq_diff hexec
      have heta : { φ₁ with exec := entered.diff φ₁.gone } = φ₁ := by rw [← hexec₁]
      dsimp only
      rw [heta, ← hexec₁, ih hexec₁]
      split <;> rfl

mutual

theorem Node.perform_lockstep : ∀ (node : Node) (φ : Formation),
    node.perform (Value.perform group id) id fuel φ = .quietly (node.lockstep group id fuel φ)
  | .instr value, φ => rfl
  | .branch cond thenBlock elseBlock, φ => by
    have hthen : Block.perform (Value.perform group id) id fuel thenBlock = _ :=
      funext (Block.perform_lockstep thenBlock)
    have helse : Block.perform (Value.perform group id) id fuel elseBlock = _ :=
      funext (Block.perform_lockstep elseBlock)
    unfold Node.perform Node.lockstep
    simp only [hthen, helse, Formation.narrowed_quietly, Traced.quietly_bind]
    rfl
  | .loop body, φ => by
    have hbody : Block.perform (Value.perform group id) id fuel body = _ :=
      funext (Block.perform_lockstep body)
    have hcont (φ : Formation) (s : Shared) (φ' : Formation) (s' : Shared)
        (h : Block.lockstep group id fuel body φ s = .done φ' s') : φ.Continues φ' := by
      apply Block.continues_of_perform (Value.keepsLanes_perform group id) body φ s φ' s'
      rw [Block.perform_lockstep body φ]
      exact h
    have hstart : φ.exec = φ.exec.diff (Formation.gone { φ with left := some .empty }) :=
      (LaneMask.diff_eq_self fun lane _ => LaneMask.not_mem_lanes_empty lane).symm
    unfold Node.perform Node.lockstep
    rw [hbody, Formation.repeated_quietly id hcont fuel hstart, Traced.quietly_bind]
    rfl
  | .leave, φ => by
    simp only [Node.perform, Node.lockstep]
    cases φ.left <;> rfl

/-- Lockstep is structured control flow with instructions that leave no record. -/
theorem Block.perform_lockstep : ∀ (block : Block) (φ : Formation),
    Block.perform (Value.perform group id) id fuel block φ = .quietly (Block.lockstep group id fuel block φ)
  | [], φ => rfl
  | node :: rest, φ => by
    have hrest : Block.perform (Value.perform group id) id fuel rest = _ :=
      funext (Block.perform_lockstep rest)
    unfold Block.perform Block.lockstep
    rw [Node.perform_lockstep node φ, hrest, Traced.quietly_bind]

end

end

end PrimitiveShader
