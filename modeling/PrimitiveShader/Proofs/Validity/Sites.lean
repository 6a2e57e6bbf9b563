import Mathlib.Data.List.Nodup
import PrimitiveShader.Proofs.Validity.WellFormed

/-!
# Valid programs, place by place

A body is a tree of blocks. A node stands in it behind the nodes before it in its own block and behind those
before it in the blocks around it (`Block.At`). Said of the places one by one, a program is well placed if
every value that stands somewhere is defined, stands there alone and has the type of its instruction, if
operands and conditions stand before the node that uses them, and if only loops are left
(`Program.WellPlaced`). The check, which walks through the body with a list of what is visible and a list of
what has been placed, accepts exactly those programs (`Program.validate_eq_ok_iff_wellPlaced`).
-/

namespace PrimitiveShader

/-! ## Places -/

/-- The block is a side of the branch, or the body of the loop, and `loops` counts the loop. -/
inductive Node.Nests : Node → Block → (loops : Nat) → Prop where
  | thenBlock (cond : Value) (a b : Block) : Nests (.branch cond a b) a 0
  | elseBlock (cond : Value) (a b : Block) : Nests (.branch cond a b) b 0
  | loop (body : Block) : Nests (.loop body) body 1

/-- The node stands in the block, or in a block nested there. The list `before` holds what stands before it:
first in the block itself, and at last in the innermost block around the node. Between the block and the node
there are `loops` loops. -/
inductive Block.At : Block → (before : List Block) → (loops : Nat) → Node → Prop where
  | here (front : Block) (node : Node) (rest : Block) : At (front ++ node :: rest) [front] 0 node
  | nested {block : Block} {before : List Block} {loops k : Nat} {outer node : Node} (front rest : Block)
      (hnests : outer.Nests block k) (h : At block before loops node) :
      At (front ++ outer :: rest) (front :: before) (k + loops) node

/-- The value is computed earlier in one of the blocks. -/
def Earlier (before : List Block) (value : Value) : Prop :=
  ∃ block ∈ before, .instr value ∈ block

/-- Every value is defined and placed once and has the type of its instruction, operands and conditions are
computed earlier in the same block or in one around it, and every departure is from a loop. -/
structure Program.WellPlaced (program : Program) : Prop where
  placed : ∀ before loops value, Block.At program.body before loops (.instr value) →
    (program.definition? value).isSome ∧ (Block.values program.body).count value = 1
  operands : ∀ before loops value d, Block.At program.body before loops (.instr value) →
    program.definition? value = some d → ∀ operand ∈ d.instr.operands,
      (program.definition? operand).isSome ∧ Earlier before operand
  types : ∀ before loops value d, Block.At program.body before loops (.instr value) →
    program.definition? value = some d → program.resultType? d.instr = some d.type
  conditions : ∀ before loops cond a b, Block.At program.body before loops (.branch cond a b) →
    program.valueType? cond = some .bool ∧ Earlier before cond
  leaves : ∀ before loops, Block.At program.body before loops .leave → 0 < loops

namespace Block.At

variable {block : Block} {before : List Block} {loops : Nat} {node : Node}

theorem cons (first : Node) (h : At block before loops node) :
    ∃ front more, before = front :: more ∧ At (first :: block) ((first :: front) :: more) loops node := by
  cases h with
  | here front node rest => exact ⟨front, [], rfl, .here (first :: front) node rest⟩
  | nested front rest hnests h => exact ⟨front, _, rfl, .nested (first :: front) rest hnests h⟩

end Block.At

theorem earlier_cons {front : Block} {more : List Block} {value : Value} :
    Earlier (front :: more) value ↔ .instr value ∈ front ∨ Earlier more value := by
  simp [Earlier]

theorem not_earlier_nil (value : Value) : ¬ Earlier [] value := by
  simp [Earlier]

/-! ## What may stand at a place -/

/-- The node may stand where the values of `visible` may be used, whatever its blocks hold. -/
def Node.Allowed (program : Program) (inLoop : Prop) (visible : Value → Prop) : Node → Prop
  | .instr value => ∃ d, program.Supports visible value d
  | .branch cond _ _ => visible cond ∧ program.valueType? cond = some .bool
  | .loop _ => True
  | .leave => inLoop

section

variable {outer : Node} {k : Nat} {program : Program} {block : Block} {inLoop : Bool} {before : List Block}
  {loops : Nat} {node : Node} {value : Value} {visible : Value → Prop}

theorem Node.WellFormed.allowed
    (h : node.WellFormed program inLoop visible) : node.Allowed program (inLoop = true) visible := by
  cases node with
  | instr value => exact h
  | branch cond a b => exact h.1
  | loop body => exact trivial
  | leave => exact h

/-- The blocks of a well-formed node are well-formed. -/
theorem Node.WellFormed.nested (h : outer.WellFormed program inLoop visible) (hnests : outer.Nests block k) :
    Block.WellFormed program (inLoop || decide (0 < k)) visible block := by
  cases hnests with
  | thenBlock cond a b => simpa using h.2.1
  | elseBlock cond a b => simpa using h.2.2
  | loop => simpa using (show Block.WellFormed program true visible block from h)

/-- What stands in a well-formed block may stand there. -/
theorem Block.WellFormed.allowed (hat : Block.At block before loops node)
    (h : Block.WellFormed program inLoop visible block) :
    node.Allowed program (inLoop = true ∨ 0 < loops) fun v => Earlier before v ∨ visible v := by
  induction hat generalizing inLoop visible with
  | here front node rest =>
    have hnode := (Block.wellFormed_append.mp h).2.1.allowed
    have hvisible : Block.opens front visible = fun v => Earlier [front] v ∨ visible v := by
      funext v
      simp [earlier_cons, not_earlier_nil, Block.opens]
    simpa [hvisible] using hnode
  | @nested block before loops k outer node front rest hnests _ ih =>
    have hblock := (Block.wellFormed_append.mp h).2.1.nested hnests
    have hnode := ih hblock
    have hloops : ((inLoop || decide (0 < k)) = true ∨ 0 < loops) ↔ (inLoop = true ∨ 0 < k + loops) := by
      rw [Bool.or_eq_true, decide_eq_true_eq, or_assoc, Nat.add_pos_iff_pos_or_pos]
    have hvisible : (fun v => Earlier before v ∨ Block.opens front visible v) =
        fun v => Earlier (front :: before) v ∨ visible v := by
      funext v
      rw [earlier_cons, Block.opens, ← or_assoc, or_comm (a := Earlier before v)]
    rwa [hloops, hvisible] at hnode

mutual

/-- A node that may stand at its place is well-formed, if all that stands in its blocks may stand there. -/
theorem Node.wellFormed_of_allowed : ∀ (node : Node) {inLoop : Bool} {visible : Value → Prop},
    node.Allowed program (inLoop = true) visible →
    (∀ block k, node.Nests block k → ∀ before loops inner, Block.At block before loops inner →
      inner.Allowed program (inLoop = true ∨ 0 < k + loops) fun v => Earlier before v ∨ visible v) →
    node.WellFormed program inLoop visible
  | .instr _, _, _, h, _ => h
  | .branch cond a b, _, _, h, hinner =>
    ⟨h, Block.wellFormed_of_allowed a fun before loops inner hat => by
        simpa using hinner a 0 (.thenBlock cond a b) before loops inner hat,
      Block.wellFormed_of_allowed b fun before loops inner hat => by
        simpa using hinner b 0 (.elseBlock cond a b) before loops inner hat⟩
  | .loop body, _, _, _, hinner =>
    Block.wellFormed_of_allowed body fun before loops inner hat => by
      simpa [Nat.add_comm 1] using hinner body 1 (.loop body) before loops inner hat
  | .leave, _, _, h, _ => h

/-- A block is well-formed if all that stands in it may stand there. -/
theorem Block.wellFormed_of_allowed : ∀ (block : List Node) {inLoop : Bool} {visible : Value → Prop},
    (∀ before loops node, Block.At block before loops node →
      node.Allowed program (inLoop = true ∨ 0 < loops) fun v => Earlier before v ∨ visible v) →
    Block.WellFormed program inLoop visible block
  | [], _, _, _ => trivial
  | node :: rest, inLoop, visible, h => by
    refine ⟨Node.wellFormed_of_allowed node ?_ fun block k hnests before loops inner hat => ?_,
      Block.wellFormed_of_allowed rest fun before loops inner hat => ?_⟩
    · simpa [earlier_cons, not_earlier_nil] using h [[]] 0 node (.here [] node rest)
    · simpa [earlier_cons] using h _ _ inner (.nested [] rest hnests hat)
    · -- What stands behind the node sees the node as well.
      obtain ⟨front, more, rfl, hcons⟩ := hat.cons node
      have hinner := h _ _ inner hcons
      have hvisible : (fun v => Earlier ((node :: front) :: more) v ∨ visible v) =
          fun v => Earlier (front :: more) v ∨ node.opens visible v := by
        funext v
        simp only [earlier_cons, List.mem_cons, Node.opens, eq_comm, or_assoc, or_left_comm]
      rwa [hvisible] at hinner

end

/-! ## The check -/

mutual

theorem Node.exists_at_of_mem_values : ∀ (node : Node) {value : Value}, value ∈ node.values →
    node = .instr value ∨ ∃ block k before loops, node.Nests block k ∧ Block.At block before loops (.instr value)
  | .instr v, value, h => by
    obtain rfl : value = v := by simpa [Node.values] using h
    exact .inl rfl
  | .branch cond a b, value, h => by
    rcases List.mem_append.mp h with h | h
    · obtain ⟨before, loops, hat⟩ := Block.exists_at_of_mem_values a h
      exact .inr ⟨a, 0, before, loops, .thenBlock cond a b, hat⟩
    · obtain ⟨before, loops, hat⟩ := Block.exists_at_of_mem_values b h
      exact .inr ⟨b, 0, before, loops, .elseBlock cond a b, hat⟩
  | .loop body, value, h => by
    obtain ⟨before, loops, hat⟩ := Block.exists_at_of_mem_values body h
    exact .inr ⟨body, 1, before, loops, .loop body, hat⟩
  | .leave, value, h => by simp [Node.values] at h

/-- A value of a block stands somewhere in it. -/
theorem Block.exists_at_of_mem_values : ∀ (block : List Node) {value : Value}, value ∈ Block.values block →
    ∃ before loops, Block.At block before loops (.instr value)
  | [], _, h => by simp [Block.values] at h
  | node :: rest, value, h => by
    rcases List.mem_append.mp h with h | h
    · rcases Node.exists_at_of_mem_values node h with rfl | ⟨block, k, before, loops, hnests, hat⟩
      · exact ⟨_, _, .here [] _ rest⟩
      · exact ⟨_, _, .nested [] rest hnests hat⟩
    · obtain ⟨before, loops, hat⟩ := Block.exists_at_of_mem_values rest h
      obtain ⟨front, more, -, hcons⟩ := hat.cons node
      exact ⟨_, _, hcons⟩

end

theorem Node.Nests.mem_values (h : outer.Nests block k) (hv : value ∈ Block.values block) : value ∈ outer.values := by
  cases h with
  | thenBlock cond a b => exact List.mem_append_left _ hv
  | elseBlock cond a b => exact List.mem_append_right _ hv
  | loop body => exact hv

/-- What stands somewhere in a block, or earlier, is a value of it. -/
theorem Block.At.mem_values (h : Block.At block before loops node) (hv : value ∈ node.values ∨ Earlier before value) :
    value ∈ Block.values block := by
  have hfront {front : Block} (hmem : .instr value ∈ front) : value ∈ Block.values front := by
    obtain ⟨a, b, rfl⟩ := List.append_of_mem hmem
    simp [Block.values_append, Block.values, Node.values]
  induction h with
  | here front node rest =>
    rw [earlier_cons, or_iff_left (not_earlier_nil value)] at hv
    rw [Block.values_append, Block.values]
    exact hv.elim (fun hv => List.mem_append_right _ (List.mem_append_left _ hv)) fun hv =>
      List.mem_append_left _ (hfront hv)
  | nested front rest hnests _ ih =>
    rw [earlier_cons, or_left_comm] at hv
    rw [Block.values_append, Block.values]
    exact hv.elim (fun hv => List.mem_append_left _ (hfront hv)) fun hv =>
      List.mem_append_right _ (List.mem_append_left _ (hnests.mem_values (ih hv)))

/-- Every instruction of a well-formed block has its type, and its operands come from the block or from before. -/
theorem Block.WellFormed.supports (h : Block.WellFormed program inLoop visible block) (v : Value)
    (hv : v ∈ Block.values block) : ∃ d, program.Supports (fun o => visible o ∨ o ∈ Block.values block) v d := by
  obtain ⟨before, loops, hat⟩ := Block.exists_at_of_mem_values block hv
  obtain ⟨d, hd⟩ := Block.WellFormed.allowed hat h
  exact ⟨d, hd.mono (.refl program) fun o _ ho => ho.symm.imp_right fun hearlier => hat.mem_values (.inr hearlier)⟩

/-- All instructions of a valid program are defined. -/
theorem Program.exists_instr_of_validate (h : program.validate = .ok ()) {v : Value}
    (hv : v ∈ Block.values program.body) : ∃ i, program.instr v = .ok i := by
  obtain ⟨d, hd⟩ := (validate_eq_ok_iff.mp h).1.supports v hv
  exact ⟨d.instr, instr_of_definition? hd.definition⟩

theorem Program.Supports.defined {d d' : Definition}
    (h : program.Supports visible value d) (hd : program.definition? value = some d') : d = d' :=
  Option.some.inj (h.definition.symm.trans hd)

/-- All that stands in the body may stand there and no value is placed twice, exactly if the program is well
placed. -/
theorem Program.wellPlaced_iff : program.WellPlaced ↔ (∀ before loops node, Block.At program.body before loops node →
      node.Allowed program (0 < loops) (Earlier before)) ∧ (Block.values program.body).Nodup := by
  constructor
  · intro h
    refine ⟨fun before loops node hat => ?_, List.nodup_iff_count_eq_one.mpr fun value hv => ?_⟩
    · cases node with
      | instr value =>
        obtain ⟨d, hd⟩ := Option.isSome_iff_exists.mp (h.placed before loops value hat).1
        exact ⟨d, hd, fun o ho => (h.operands before loops value d hat hd o ho).symm,
          h.types before loops value d hat hd⟩
      | branch cond a b => exact (h.conditions before loops cond a b hat).symm
      | loop body => exact trivial
      | leave => exact h.leaves before loops hat
    · obtain ⟨before, loops, hat⟩ := Block.exists_at_of_mem_values _ hv
      exact (h.placed before loops value hat).2
  · rintro ⟨hallowed, hnodup⟩
    constructor
    case placed =>
      intro before loops value hat
      obtain ⟨d, hd⟩ := hallowed before loops _ hat
      have hmem := hat.mem_values (.inl (List.mem_singleton_self value))
      exact ⟨by simp [hd.definition], List.count_eq_one_of_mem hnodup hmem⟩
    case operands =>
      intro before loops value d hat hdef o ho
      obtain ⟨d', hd⟩ := hallowed before loops _ hat
      obtain rfl := hd.defined hdef
      exact (hd.operands o ho).symm
    case types =>
      intro before loops value d hat hdef
      obtain ⟨d', hd⟩ := hallowed before loops _ hat
      obtain rfl := hd.defined hdef
      exact hd.type
    case conditions => exact fun before loops cond a b hat => (hallowed before loops _ hat).symm
    case leaves => exact fun before loops hat => hallowed before loops _ hat

end

/-- The check accepts exactly the programs that are well placed. -/
theorem Program.validate_eq_ok_iff_wellPlaced (program : Program) : program.validate = .ok () ↔ program.WellPlaced := by
  have hplaces (before : List Block) : (fun v => Earlier before v ∨ False) = Earlier before := by
    funext v
    rw [or_false]
  rw [Program.validate_eq_ok_iff, Program.wellPlaced_iff]
  refine and_congr_left fun _ => ⟨fun h before loops node hat => ?_, fun h => ?_⟩
  · simpa [hplaces] using Block.WellFormed.allowed hat h
  · refine Block.wellFormed_of_allowed program.body fun before loops node hat => ?_
    simpa [hplaces] using h before loops node hat

end PrimitiveShader
