import Mathlib.Algebra.Ring.Nat
import PrimitiveShader.Executor.Launch
import PrimitiveShader.Program.Validity

/-!
# What valid programs and launches have been checked for

For programs there is one lemma per form of node: when the check of a node succeeds, what has been
found, and which checks of its parts have succeeded.
-/

namespace PrimitiveShader

variable {launch : Launch} {wave : WaveWidth}

/-- What a valid launch has been checked for. -/
structure Launch.Valid (launch : Launch) (wave : WaveWidth) : Prop where
  lanes : 1 ≤ launch.numLanes
  waves : launch.numWaves wave ≤ Hardware.maxWaves
  vertices : launch.inputVertices ≤ launch.numLanes
  primitives : launch.primitives.size ≤ launch.numLanes

theorem Launch.valid_of_validate (h : launch.validate wave = .ok ()) : launch.Valid wave := by
  simp only [validate, guard_eq_ok, guard_end_eq_ok] at h
  exact ⟨h.1, h.2.1, h.2.2.1, h.2.2.2⟩

theorem Launch.Valid.numLanes_le (h : launch.Valid wave) : launch.numLanes ≤ 512 := by
  have hwaves : (launch.numLanes + wave.size - 1) / wave.size ≤ 8 := h.waves
  cases wave <;> simp only [WaveWidth.size] at hwaves <;> omega

namespace Program

variable {program : Program} {inLoop : Bool} {visible placed : List Value}

theorem checkOperand_eq_ok_iff {user operand : Value} : program.checkOperand visible user operand = .ok () ↔
      operand ∈ visible ∧ (program.definition? operand).isSome := by
  simp only [checkOperand, guard_eq_ok, guard_end_eq_ok, and_comm]

theorem forM_eq_ok_iff {α ε : Type} {xs : List α} {f : α → Except ε Unit} :
    xs.forM f = .ok () ↔ ∀ x ∈ xs, f x = .ok () := by
  induction xs with
  | nil => exact ⟨fun _ _ hx => absurd hx List.not_mem_nil, fun _ => rfl⟩
  | cons x rest ih =>
    change (f x >>= fun _ => rest.forM f) = .ok () ↔ _
    rw [except_seq_eq_ok, ih, List.forall_mem_cons]

/-- A value is defined, its operands are defined and may be used, and its type is the one that its
instruction gives it. -/
structure Supports (program : Program) (visible : Value → Prop) (value : Value) (d : Definition) : Prop where
  definition : program.definition? value = some d
  operands : ∀ o ∈ d.instr.operands, visible o ∧ (program.definition? o).isSome
  type : program.resultType? d.instr = some d.type

variable {value cond : Value}

theorem checkInstr_eq_ok_iff : program.checkInstr visible placed value = .ok () ↔
    value ∉ placed ∧ ∃ d, program.Supports (· ∈ visible) value d := by
  unfold checkInstr
  cases hd : program.definition? value with
  | none =>
    refine ⟨fun h => ?_, fun ⟨_, _, h⟩ => ?_⟩
    · cases h
    · cases hd.symm.trans h.definition
  | some d =>
    have hoperands : d.instr.operands.forM (program.checkOperand visible value) = .ok () ↔
        ∀ o ∈ d.instr.operands, o ∈ visible ∧ (program.definition? o).isSome := by
      simp only [forM_eq_ok_iff, checkOperand_eq_ok_iff]
    simp only [refuse_eq_ok, except_seq_eq_ok, hoperands, guard_end_eq_ok]
    refine and_congr_right fun _ => ⟨fun ⟨ho, ht⟩ => ⟨d, hd, ho, ht⟩, fun ⟨d', h⟩ => ?_⟩
    obtain rfl : d = d' := Option.some.inj (hd.symm.trans h.definition)
    exact ⟨h.operands, h.type⟩

theorem checkCondition_eq_ok_iff : program.checkCondition visible cond = .ok () ↔
    cond ∈ visible ∧ program.valueType? cond = some .bool := by
  unfold checkCondition
  cases program.valueType? cond with
  | none => simp [throw, throwThe, MonadExceptOf.throw]
  | some type => simp [guard_eq_ok, guard_end_eq_ok]

/-! ## Nodes -/

variable {visible' placed' : List Value}

theorem checkBlock_cons_eq_ok {node : Node} {rest : Block}
    (h : program.checkBlock inLoop visible placed (node :: rest) = .ok placed') :
    ∃ visible₁ placed₁, program.checkNode inLoop visible placed node = .ok (visible₁, placed₁) ∧
      program.checkBlock inLoop visible₁ placed₁ rest = .ok placed' := by
  rw [checkBlock] at h
  obtain ⟨⟨visible₁, placed₁⟩, hnode, hrest⟩ := except_bind_eq_ok.mp h
  exact ⟨visible₁, placed₁, hnode, hrest⟩

theorem checkNode_instr_eq_ok (h : program.checkNode inLoop visible placed (.instr value) = .ok (visible', placed')) :
    visible' = value :: visible ∧ ∃ d, program.Supports (· ∈ visible) value d := by
  rw [checkNode] at h
  obtain ⟨u, hi, h⟩ := except_bind_eq_ok.mp h
  cases h
  exact ⟨rfl, (checkInstr_eq_ok_iff.mp hi).2⟩

theorem checkNode_branch_eq_ok {thenBlock elseBlock : Block}
    (h : program.checkNode inLoop visible placed (.branch cond thenBlock elseBlock) = .ok (visible', placed')) :
    visible' = visible ∧ cond ∈ visible ∧ program.valueType? cond = some .bool ∧
      ∃ placed₁, program.checkBlock inLoop visible placed thenBlock = .ok placed₁ ∧
        program.checkBlock inLoop visible placed₁ elseBlock = .ok placed' := by
  rw [checkNode] at h
  obtain ⟨u, hcond, h⟩ := except_bind_eq_ok.mp h
  obtain ⟨placed₁, hthen, h⟩ := except_bind_eq_ok.mp h
  obtain ⟨placed₂, helse, h⟩ := except_bind_eq_ok.mp h
  cases h
  obtain ⟨hvisible, htype⟩ := checkCondition_eq_ok_iff.mp hcond
  exact ⟨rfl, hvisible, htype, placed₁, hthen, helse⟩

theorem checkNode_loop_eq_ok {body : Block}
    (h : program.checkNode inLoop visible placed (.loop body) = .ok (visible', placed')) :
    visible' = visible ∧ program.checkBlock true visible placed body = .ok placed' := by
  rw [checkNode] at h
  obtain ⟨placed₁, hbody, h⟩ := except_bind_eq_ok.mp h
  cases h
  exact ⟨rfl, hbody⟩

theorem checkNode_leave_eq_ok (h : program.checkNode inLoop visible placed .leave = .ok (visible', placed')) :
    visible' = visible ∧ inLoop = true := by
  obtain ⟨hloop, h⟩ := guard_eq_ok.mp h
  cases h
  exact ⟨rfl, hloop⟩

theorem validate_eq_ok (h : program.validate = .ok ()) :
    ∃ placed, program.checkBlock false [] [] program.body = .ok placed := by
  obtain ⟨placed, hbody, -⟩ := except_bind_eq_ok.mp h
  exact ⟨placed, hbody⟩

/-! ## Where values are placed -/

/-- Some values are placed once each, after those that are placed already. -/
structure PlacesOnce (values placed placed' : List Value) : Prop where
  fresh : ∀ v ∈ values, v ∉ placed
  nodup : values.Nodup
  mem : ∀ v, v ∈ placed' ↔ v ∈ placed ∨ v ∈ values

theorem PlacesOnce.not_mem {values placed' : List Value} {v : Value} (h : PlacesOnce values placed placed')
    (hplaced : v ∉ placed) (hv : v ∉ values) : v ∉ placed' :=
  fun hmem => ((h.mem v).mp hmem).elim hplaced hv

theorem PlacesOnce.append {a b placed₁ placed₂ : List Value} (h : PlacesOnce a placed placed₁)
    (h' : PlacesOnce b placed₁ placed₂) : PlacesOnce (a ++ b) placed placed₂ where
  fresh v hv := by
    rcases List.mem_append.mp hv with hv | hv
    · exact h.fresh v hv
    · exact fun hp => h'.fresh v hv ((h.mem v).mpr (.inl hp))
  nodup := List.nodup_append.mpr ⟨h.nodup, h'.nodup, fun v hv w hw heq =>
    h'.fresh w hw ((h.mem w).mpr (.inr (heq ▸ hv)))⟩
  mem v := by rw [h'.mem, h.mem, List.mem_append, or_assoc]

theorem placesOnce_of_checkInstr
    (h : program.checkNode inLoop visible placed (.instr value) = .ok (visible', placed')) :
    PlacesOnce [value] placed placed' := by
  rw [checkNode] at h
  obtain ⟨u, hi, h⟩ := except_bind_eq_ok.mp h
  cases h
  have hfresh := (checkInstr_eq_ok_iff.mp hi).1
  exact ⟨by simpa using hfresh, by simp, fun v => by rw [List.mem_cons, List.mem_singleton, or_comm]⟩

/-- A checked block places each of its values once. -/
theorem placesOnce_of_checkBlock : ∀ (block : Block) {inLoop : Bool} {visible placed placed' : List Value},
    program.checkBlock inLoop visible placed block = .ok placed' → PlacesOnce (Block.values block) placed placed'
  | [], _, _, _, _, h => by
    rw [checkBlock] at h
    cases h
    exact ⟨by simp [Block.values], by simp [Block.values], by simp [Block.values]⟩
  | .instr value :: rest, _, _, _, _, h => by
    obtain ⟨_, _, hnode, hrest⟩ := checkBlock_cons_eq_ok h
    have := (placesOnce_of_checkInstr hnode).append (placesOnce_of_checkBlock rest hrest)
    simpa [Block.values, Node.values] using this
  | .branch cond thenBlock elseBlock :: rest, _, _, _, _, h => by
    obtain ⟨_, _, hnode, hrest⟩ := checkBlock_cons_eq_ok h
    obtain ⟨-, -, -, _, hthen, helse⟩ := checkNode_branch_eq_ok hnode
    have := ((placesOnce_of_checkBlock thenBlock hthen).append
      (placesOnce_of_checkBlock elseBlock helse)).append (placesOnce_of_checkBlock rest hrest)
    simpa [Block.values, Node.values] using this
  | .loop body :: rest, _, _, _, _, h => by
    obtain ⟨_, _, hnode, hrest⟩ := checkBlock_cons_eq_ok h
    obtain ⟨-, hbody⟩ := checkNode_loop_eq_ok hnode
    have := (placesOnce_of_checkBlock body hbody).append (placesOnce_of_checkBlock rest hrest)
    simpa [Block.values, Node.values] using this
  | .leave :: rest, _, _, _, _, h => by
    obtain ⟨_, _, hnode, hrest⟩ := checkBlock_cons_eq_ok h
    rw [checkNode] at hnode
    split at hnode
    · cases hnode
      simpa [Block.values, Node.values] using placesOnce_of_checkBlock rest hrest
    · cases hnode

end Program

end PrimitiveShader
