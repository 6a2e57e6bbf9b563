import PrimitiveShader.Proofs.Emission.Growth
import PrimitiveShader.Proofs.Validity

/-!
# Well-formed programs

The check of a program reads the body once, with lists of what is visible and of what has been placed.
Here the same is said without the lists: a block is well-formed where some values may be used
(`Block.WellFormed`), and what has been placed only matters in that no value is placed twice. A program
is valid exactly when its body is well-formed and places no value twice (`Program.validate_eq_ok_iff`).

Well-formed code stays so when more is defined and when more may be used (`Block.WellFormed.mono`).
-/

namespace PrimitiveShader

/-- What may be used behind a node. -/
def Node.opens (node : Node) (visible : Value → Prop) (value : Value) : Prop :=
  node = .instr value ∨ visible value

mutual

/-- The node is well-formed where the values of `visible` may be used. -/
def Node.WellFormed (program : Program) (inLoop : Bool) (visible : Value → Prop) : Node → Prop
  | .instr value => ∃ d, program.Supports visible value d
  | .branch cond thenBlock elseBlock =>
    (visible cond ∧ program.valueType? cond = some .bool) ∧
      Block.WellFormed program inLoop visible thenBlock ∧
      Block.WellFormed program inLoop visible elseBlock
  | .loop body => Block.WellFormed program true visible body
  | .leave => inLoop = true

/-- The block is well-formed where the values of `visible` may be used. -/
def Block.WellFormed (program : Program) (inLoop : Bool) (visible : Value → Prop) :
    List Node → Prop
  | [] => True
  | node :: rest => node.WellFormed program inLoop visible ∧
      Block.WellFormed program inLoop (node.opens visible) rest

end

namespace Program

variable {program : Program} {inLoop : Bool}

/-! ## The check accepts exactly the well-formed code -/

/-- A checked node places each of its values once. -/
theorem placesOnce_of_checkNode {node : Node} {visible placed visible' placed' : List Value}
    (h : program.checkNode inLoop visible placed node = .ok (visible', placed')) :
    PlacesOnce node.values placed placed' := by
  have hblock : program.checkBlock inLoop visible placed [node] = .ok placed' := by
    rw [checkBlock, h]
    rfl
  simpa [Block.values] using placesOnce_of_checkBlock [node] hblock

mutual

/-- A well-formed node that places nothing again passes the check. -/
theorem exists_checkNode : ∀ (node : Node) {inLoop : Bool} {visible placed : List Value},
    node.WellFormed program inLoop (· ∈ visible) → node.values.Nodup → (∀ v ∈ node.values, v ∉ placed) →
    ∃ visible' placed', program.checkNode inLoop visible placed node = .ok (visible', placed') ∧
      ∀ v, v ∈ visible' ↔ node.opens (· ∈ visible) v
  | .instr value, inLoop, visible, placed, ⟨d, h⟩, _, hfresh => by
    refine ⟨value :: visible, value :: placed, ?_, fun v => ?_⟩
    · have hcheck := checkInstr_eq_ok_iff.mpr
        ⟨hfresh value (by simp [Node.values]), d, h⟩
      rw [checkNode, hcheck]
      rfl
    · simp [Node.opens, eq_comm]
  | .branch cond thenBlock elseBlock, inLoop, visible, placed, ⟨⟨hcond, htype⟩, hthen, helse⟩, hnodup, hfresh => by
    rw [Node.values, List.nodup_append] at hnodup
    obtain ⟨hnodup, hnodup', hdisjoint⟩ := hnodup
    simp only [Node.values, List.mem_append] at hfresh
    obtain ⟨placed₁, h₁⟩ := exists_checkBlock thenBlock hthen hnodup fun v hv => hfresh v (.inl hv)
    obtain ⟨placed₂, h₂⟩ := exists_checkBlock elseBlock helse hnodup' fun v hv =>
      (placesOnce_of_checkBlock thenBlock h₁).not_mem (hfresh v (.inr hv)) fun hp => hdisjoint v hp v hv rfl
    refine ⟨visible, placed₂, ?_, fun v => ?_⟩
    · rw [checkNode]
      exact except_bind_eq_ok.mpr ⟨(), checkCondition_eq_ok_iff.mpr ⟨hcond, htype⟩,
        except_bind_eq_ok.mpr ⟨placed₁, h₁, except_bind_eq_ok.mpr ⟨placed₂, h₂, rfl⟩⟩⟩
    · simp [Node.opens]
  | .loop body, inLoop, visible, placed, h, hnodup, hfresh => by
    obtain ⟨placed', h'⟩ := exists_checkBlock body h (by simpa [Node.values] using hnodup)
      (by simpa [Node.values] using hfresh)
    refine ⟨visible, placed', ?_, fun v => ?_⟩
    · rw [checkNode, h']
      rfl
    · simp [Node.opens]
  | .leave, inLoop, visible, placed, h, _, _ => by
    refine ⟨visible, placed, ?_, fun v => ?_⟩
    · obtain rfl : inLoop = true := h
      rfl
    · simp [Node.opens]

/-- A well-formed block that places nothing twice and nothing again passes the check. -/
theorem exists_checkBlock : ∀ (block : Block) {inLoop : Bool} {visible placed : List Value},
    Block.WellFormed program inLoop (· ∈ visible) block → (Block.values block).Nodup →
    (∀ v ∈ Block.values block, v ∉ placed) → ∃ placed', program.checkBlock inLoop visible placed block = .ok placed'
  | [], _, _, placed, _, _, _ => ⟨placed, rfl⟩
  | node :: rest, inLoop, visible, placed, ⟨hnode, hrest⟩, hnodup, hfresh => by
    rw [Block.values, List.nodup_append] at hnodup
    obtain ⟨hnodup, hnodup', hdisjoint⟩ := hnodup
    simp only [Block.values, List.mem_append] at hfresh
    obtain ⟨visible₁, placed₁, h₁, hvisible⟩ :=
      exists_checkNode node hnode hnodup fun v hv => hfresh v (.inl hv)
    have hrest : Block.WellFormed program inLoop (· ∈ visible₁) rest := by
      rwa [funext fun v => propext (hvisible v)]
    obtain ⟨placed₂, h₂⟩ := exists_checkBlock rest hrest hnodup' fun v hv =>
      (placesOnce_of_checkNode h₁).not_mem (hfresh v (.inr hv)) fun hp => hdisjoint v hp v hv rfl
    refine ⟨placed₂, ?_⟩
    rw [checkBlock, h₁]
    exact h₂

end

mutual

theorem wellFormed_of_checkNode : ∀ (node : Node) {inLoop : Bool} {visible placed visible' placed' : List Value},
    program.checkNode inLoop visible placed node = .ok (visible', placed') →
    node.WellFormed program inLoop (· ∈ visible) ∧ ∀ v, v ∈ visible' ↔ node.opens (· ∈ visible) v
  | .instr value, _, _, _, _, _, h => by
    obtain ⟨rfl, d, hd⟩ := checkNode_instr_eq_ok h
    exact ⟨⟨d, hd⟩, fun v => by simp [Node.opens, eq_comm]⟩
  | .branch cond thenBlock elseBlock, _, _, _, _, _, h => by
    obtain ⟨rfl, hcond, htype, placed₁, h₁, h₂⟩ := checkNode_branch_eq_ok h
    exact ⟨⟨⟨hcond, htype⟩, wellFormed_of_checkBlock thenBlock h₁,
      wellFormed_of_checkBlock elseBlock h₂⟩, fun v => by simp [Node.opens]⟩
  | .loop body, _, _, _, _, _, h => by
    obtain ⟨rfl, h₁⟩ := checkNode_loop_eq_ok h
    exact ⟨wellFormed_of_checkBlock body h₁, fun v => by simp [Node.opens]⟩
  | .leave, _, _, _, _, _, h => by
    obtain ⟨rfl, h₁⟩ := checkNode_leave_eq_ok h
    exact ⟨h₁, fun v => by simp [Node.opens]⟩

/-- A block that passes the check is well-formed. -/
theorem wellFormed_of_checkBlock : ∀ (block : Block) {inLoop : Bool} {visible placed placed' : List Value},
    program.checkBlock inLoop visible placed block = .ok placed' → Block.WellFormed program inLoop (· ∈ visible) block
  | [], _, _, _, _, _ => trivial
  | node :: rest, _, _, _, _, h => by
    obtain ⟨visible₁, placed₁, h₁, h₂⟩ := checkBlock_cons_eq_ok h
    obtain ⟨hnode, hvisible⟩ := wellFormed_of_checkNode node h₁
    have hrest := wellFormed_of_checkBlock rest h₂
    rw [funext fun v => propext (hvisible v)] at hrest
    exact ⟨hnode, hrest⟩

end

/-- A program is valid exactly when its body is well-formed and places no value twice. -/
theorem validate_eq_ok_iff : program.validate = .ok () ↔ Block.WellFormed program false (fun _ => False) program.body ∧
      (Block.values program.body).Nodup := by
  have hnone : (fun v : Value => v ∈ ([] : List Value)) = fun _ => False := by simp
  rw [← hnone]
  constructor
  · intro h
    obtain ⟨placed, h⟩ := validate_eq_ok h
    exact ⟨wellFormed_of_checkBlock _ h, (placesOnce_of_checkBlock _ h).nodup⟩
  · rintro ⟨hbody, hnodup⟩
    have hfresh : ∀ v ∈ Block.values program.body, v ∉ ([] : List Value) := by simp
    obtain ⟨placed, h⟩ := exists_checkBlock program.body hbody hnodup hfresh
    rw [validate, h]
    rfl

end Program

/-! ## More may be used and more may be defined -/

/-- A lookup that goes on gives the same when more is found. -/
theorem bind_eq_some_mono {α β : Type} {x y : Option α} {k k' : α → Option β} {b : β}
    (hx : ∀ a, x = some a → y = some a) (hk : ∀ a b, k a = some b → k' a = some b)
    (h : (x >>= k) = some b) : (y >>= k') = some b := by
  obtain ⟨a, ha, hb⟩ := Option.bind_eq_some_iff.mp h
  exact Option.bind_eq_some_iff.mpr ⟨a, hx a ha, hk a b hb⟩

section

variable {τ : ScalarType}

variable {f g : Value → Option ScalarType} (hf : ∀ v τ, f v = some τ → g v = some τ)
include hf

/-- The rule for one operand. -/
private theorem type_mono {v : Value} {k : ScalarType → Option ScalarType} {τ : ScalarType}
    (h : (f v >>= k) = some τ) : (g v >>= k) = some τ :=
  bind_eq_some_mono (hf v) (fun _ _ h => h) h

/-- The rule for two operands. -/
private theorem types_mono {v w : Value} {k : ScalarType → ScalarType → Option ScalarType}
    {τ : ScalarType} (h : (f v >>= fun a => f w >>= k a) = some τ) : (g v >>= fun a => g w >>= k a) = some τ :=
  bind_eq_some_mono (hf v) (fun _ _ h => type_mono hf h) h

theorem CrossLaneOp.resultType?_mono {op : CrossLaneOp}
    (h : op.resultType? f = some τ) : op.resultType? g = some τ := by
  cases op with
  | elect => exact h
  | readLane value lane => exact types_mono hf h
  | _ => exact type_mono hf h

theorem Intrinsic.resultType?_mono {op : Intrinsic} (h : op.resultType? f = some τ) : op.resultType? g = some τ := by
  cases op with
  | input _ | barrier | exportVertex => exact h
  | crossLane op => exact CrossLaneOp.resultType?_mono hf h
  | storeShared _ _ _ | allocate _ _ => exact types_mono hf h
  | geometry op =>
    cases op with
    | endPrimitive _ => exact h
    | _ => exact types_mono hf h
  | _ => exact type_mono hf h

theorem Instr.resultType?_mono {x y : Var → Option ScalarType} (hx : ∀ v τ, x v = some τ → y v = some τ) {instr : Instr}
    (h : instr.resultType? f x = some τ) : instr.resultType? g y = some τ := by
  cases instr with
  | const _ _ | undef _ => exact h
  | binary _ _ _ => exact types_mono hf h
  | select cond a b => exact bind_eq_some_mono (hf cond) (fun _ _ h => types_mono hf h) h
  | loadVar var => exact hx _ _ h
  | storeVar var a => exact bind_eq_some_mono (hx var) (fun _ _ h => type_mono hf h) h
  | intrinsic op => exact Intrinsic.resultType?_mono hf h
  | _ => exact type_mono hf h

end

namespace Program.Within

variable {value : Value} {type : ScalarType} {p p' : Program}

theorem valueType?_eq (h : p.Within p') (ht : p.valueType? value = some type) : p'.valueType? value = some type :=
  valueType?_eq_some_iff.mpr (h.typeOf_eq (valueType?_eq_some_iff.mp ht))

theorem resultType?_eq (h : p.Within p') {instr : Instr}
    (ht : p.resultType? instr = some type) : p'.resultType? instr = some type :=
  Instr.resultType?_mono (fun _ _ => h.valueType?_eq) (fun _ _ => h.varType?_eq) ht

theorem isSome_definition? (h : p.Within p') (hd : (p.definition? value).isSome) : (p'.definition? value).isSome := by
  obtain ⟨d, hd⟩ := Option.isSome_iff_exists.mp hd
  exact Option.isSome_iff_exists.mpr ⟨d, h.definition?_eq hd⟩

end Program.Within

variable {p : Program} {visible visible' : Value → Prop}

theorem Program.Supports.mono {p' : Program} {value : Value}
    {d : Definition} (h : p.Supports visible value d) (hp : p.Within p')
    (hv : ∀ o ∈ d.instr.operands, visible o → visible' o) : p'.Supports visible' value d where
  definition := hp.definition?_eq h.definition
  operands o ho := ⟨hv o ho (h.operands o ho).1, hp.isSome_definition? (h.operands o ho).2⟩
  type := hp.resultType?_eq h.type

mutual

theorem Node.WellFormed.mono {p p' : Program} (hp : p.Within p') : ∀ {node : Node} {inLoop : Bool}
    {visible visible' : Value → Prop}, node.WellFormed p inLoop visible →
    (∀ v, visible v → visible' v) → node.WellFormed p' inLoop visible'
  | .instr _, _, _, _, ⟨d, h⟩, hv => ⟨d, h.mono hp fun o _ => hv o⟩
  | .branch cond _ _, _, _, _, ⟨⟨hcond, htype⟩, hthen, helse⟩, hv =>
    ⟨⟨hv cond hcond, hp.valueType?_eq htype⟩, Block.WellFormed.mono hp hthen hv, Block.WellFormed.mono hp helse hv⟩
  | .loop _, _, _, _, h, hv => Block.WellFormed.mono hp (show Block.WellFormed _ true _ _ from h) hv
  | .leave, _, _, _, h, _ => h

theorem Block.WellFormed.mono {p p' : Program} (hp : p.Within p') : ∀ {block : Block} {inLoop : Bool}
    {visible visible' : Value → Prop}, Block.WellFormed p inLoop visible block →
    (∀ v, visible v → visible' v) → Block.WellFormed p' inLoop visible' block
  | [], _, _, _, _, _ => trivial
  | _ :: _, _, _, _, ⟨hnode, hrest⟩, hv =>
    ⟨Node.WellFormed.mono hp hnode hv, Block.WellFormed.mono hp hrest fun v => Or.imp_right (hv v)⟩

end

/-- What may be used behind a block. -/
def Block.opens (block : Block) (visible : Value → Prop) (value : Value) : Prop :=
  .instr value ∈ block ∨ visible value

theorem Block.opens_nil (visible : Value → Prop) : Block.opens [] visible = visible := by
  funext v
  simp [Block.opens]

theorem Block.opens_cons (node : Node) (rest : Block) (visible : Value → Prop) :
    Block.opens (node :: rest) visible = Block.opens rest (node.opens visible) := by
  funext v
  simp [Block.opens, Node.opens, eq_comm, or_assoc, or_left_comm]

theorem Block.wellFormed_append {inLoop : Bool} {a b : Block} : Block.WellFormed p inLoop visible (a ++ b) ↔
      Block.WellFormed p inLoop visible a ∧ Block.WellFormed p inLoop (Block.opens a visible) b := by
  induction a generalizing visible with
  | nil => rw [Block.opens_nil, List.nil_append, Block.WellFormed, true_and]
  | cons node rest ih =>
    rw [List.cons_append, Block.WellFormed, Block.WellFormed, ih, Block.opens_cons, and_assoc]

/-- The instructions of a well-formed block are defined. -/
theorem Block.WellFormed.lt_size : ∀ {block : Block} {inLoop : Bool}
    {visible : Value → Prop}, Block.WellFormed p inLoop visible block →
    ∀ v ∈ Block.values block, v.index < p.definitions.size
  | [], _, _, _, v, hv => by simp [Block.values] at hv
  | .instr value :: rest, _, _, ⟨⟨d, hd⟩, hrest⟩, v, hv => by
    simp only [Block.values, Node.values, List.mem_append, List.mem_singleton] at hv
    rcases hv with rfl | hv
    · exact p.lt_of_definition? hd.definition
    · exact hrest.lt_size v hv
  | .branch _ _ _ :: _, _, _, ⟨⟨_, hthen, helse⟩, hrest⟩, v, hv => by
    simp only [Block.values, Node.values, List.mem_append] at hv
    rcases hv with (hv | hv) | hv
    · exact Block.WellFormed.lt_size hthen v hv
    · exact Block.WellFormed.lt_size helse v hv
    · exact Block.WellFormed.lt_size hrest v hv
  | .loop _ :: _, _, _, ⟨hbody, hrest⟩, v, hv => by
    simp only [Block.values, Node.values, List.mem_append] at hv
    rcases hv with hv | hv
    · exact Block.WellFormed.lt_size (show Block.WellFormed _ true _ _ from hbody) v hv
    · exact Block.WellFormed.lt_size hrest v hv
  | .leave :: _, _, _, ⟨_, hrest⟩, v, hv => by
    simp only [Block.values, Node.values, List.nil_append] at hv
    exact Block.WellFormed.lt_size hrest v hv

/-! ## Values without contents -/

section

variable {types : Value → Option ScalarType} {type : ScalarType} {o : Value} (hvoid : types o = some .void)
include hvoid

theorem CrossLaneOp.notMem_operands_of_void {op : CrossLaneOp}
    (ht : op.resultType? types = some type) : o ∉ op.operands := by
  intro ho
  cases op <;> simp only [resultType?, typeWhen, Option.bind_eq_bind, Option.bind_eq_some_iff] at ht <;>
    grind [operands, ScalarType.isInt]

theorem Intrinsic.notMem_operands_of_void {op : Intrinsic}
    (ht : op.resultType? types = some type) : o ∉ op.operands := by
  intro ho
  cases op with
  | crossLane op => exact CrossLaneOp.notMem_operands_of_void hvoid ht ho
  | geometry op =>
    cases op <;> simp only [resultType?, pairType?, typeWhen, Option.bind_eq_bind,
      Option.bind_eq_some_iff] at ht <;> grind [operands, GeometryOp.operands]
  | _ =>
    simp only [resultType?, pairType?, typeWhen, Option.bind_eq_bind, Option.bind_eq_some_iff] at ht
    grind [operands, ScalarType.isInt]

/-- Only a variable can be set to something that is not a value. -/
theorem Instr.exists_storeVar_of_void {instr : Instr} {vars : Var → Option ScalarType}
    (ht : instr.resultType? types vars = some type) (ho : o ∈ instr.operands) : ∃ var, instr = .storeVar var o := by
  cases instr with
  | storeVar var a =>
    obtain rfl : o = a := by simpa [operands] using ho
    exact ⟨var, rfl⟩
  | intrinsic op => exact absurd ho (Intrinsic.notMem_operands_of_void hvoid ht)
  | binary op a b =>
    simp only [resultType?, Option.bind_eq_bind, Option.bind_eq_some_iff] at ht
    cases op <;> grind [operands, BinaryOp.resultType?, typeWhen, ScalarType.isInt]
  | _ =>
    simp only [resultType?, UnaryOp.resultType?, typeWhen, Option.bind_eq_bind, Option.bind_eq_some_iff] at ht
    grind [operands, ScalarType.isInt]

end

end PrimitiveShader
