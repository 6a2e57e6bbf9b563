import Mathlib.Algebra.Ring.Nat
import PrimitiveShader.Executor.Lane

/-!
# Programs run by one lane

What a program means before it is lowered: one lane runs its body on its own. `Block.Runs` relates the
state before a block to the way the block ends. A block falls through, leaves the loop around it, or
faults; a run that never ends has no ending.

The entry points of geometry programs leave a record. A lane on its own does not know about the lanes
beside it, so the result of a cross-lane operation may be anything.
-/

namespace PrimitiveShader

variable {value : Value}

/-- What an invocation of a geometry program hands over. -/
inductive GeometryEvent where
  /-- Vertex `number` of a stream, with `before` vertices ahead of it in its strip and the outputs
  that were stored for it. -/
  | vertex (stream : UInt8) (number before : UInt64) (outputs : SlotTable UInt64)
  /-- The numbers of vertices and primitives of a stream. -/
  | counts (stream : UInt8) (vertices primitives : UInt64)
deriving DecidableEq, Repr

/-- A lane that runs a program on its own. -/
structure Invocation where
  lane : Lane
  /-- What it has handed over so far. -/
  events : List GeometryEvent := []
deriving DecidableEq, Repr

/-- How a block ends. -/
inductive Ending where
  | next (inv : Invocation)
  | left (inv : Invocation)
  | faulted (fault : Fault)

namespace Invocation

/-- The outputs of one stream. -/
def outputsOf (inv : Invocation) (stream : UInt8) : SlotTable UInt64 :=
  inv.lane.outputs.filter (·.1.stream = stream)

/-- A lane before the first instruction. -/
def start (program : Program) : Invocation := ⟨Lane.start program, []⟩

/-- A register is set. -/
def write (inv : Invocation) (value : Value) (a : UInt64) : Invocation :=
  { inv with lane := inv.lane.write value a }

/-- Runs an instruction of one lane. An emitted vertex takes the outputs of its stream with it. -/
def execute (group : Workgroup) (id : LaneId) (value : Value) (instr : Instr) (inv : Invocation) :
    Except Fault Invocation :=
  match instr with
  | .intrinsic (.geometry (.emitVertex stream number before)) => do
    let n ← inv.lane.read number
    let b ← inv.lane.read before
    let rest := inv.lane.outputs.filter (·.1.stream ≠ stream)
    return ⟨{ inv.lane with outputs := rest },
      inv.events ++ [.vertex stream n b (inv.outputsOf stream)]⟩
  | .intrinsic (.geometry (.endPrimitive _)) => return inv
  | .intrinsic (.geometry (.setCounts stream vertices primitives)) => do
    let v ← inv.lane.read vertices
    let p ← inv.lane.read primitives
    return { inv with events := inv.events ++ [.counts stream v p] }
  | .intrinsic (.queryAdd stream count) => do
    unless stream.toNat < 4 do throw .outOfRange
    let _ ← inv.lane.read count
    return inv
  | _ => do
    let lane ← inv.lane.execute group id value instr
    return { inv with lane }

end Invocation

/-- Whether a lane can run the instruction without the others. -/
def Instr.isScalar : Instr → Bool
  | .intrinsic (.input _) => true
  | .intrinsic (.storeOutput _ _) => true
  | .intrinsic (.geometry _) => true
  | .intrinsic (.queryAdd _ _) => true
  | .intrinsic _ => false
  | _ => true

/-- The outcomes of an instruction. -/
inductive Instr.Runs (group : Workgroup) (id : LaneId) (value : Value) (inv : Invocation) :
    Instr → Except Fault Invocation → Prop where
  | scalar {instr : Instr} (h : instr.isScalar) :
      Instr.Runs group id value inv instr (inv.execute group id value instr)
  | crossLane (op : CrossLaneOp) (a : UInt64) :
      Instr.Runs group id value inv (.intrinsic (.crossLane op)) (.ok (inv.write value a))

/-- How a block ends, run by one lane. -/
inductive Block.Runs (group : Workgroup) (id : LaneId) : Block → Invocation → Ending → Prop where
  | nil (inv : Invocation) : Block.Runs group id [] inv (.next inv)
  | instr {value : Value} {i : Instr} {rest : Block} {inv inv' : Invocation} {ending : Ending}
      (hi : group.program.instr value = .ok i) (h : i.Runs group id value inv (.ok inv'))
      (hrest : Block.Runs group id rest inv' ending) :
      Block.Runs group id (.instr value :: rest) inv ending
  | instr_faulted {value : Value} {i : Instr} {rest : Block} {inv : Invocation} {fault : Fault}
      (hi : group.program.instr value = .ok i) (h : i.Runs group id value inv (.error fault)) :
      Block.Runs group id (.instr value :: rest) inv (.faulted fault)
  | branch {cond : Value} {thenBlock elseBlock rest : Block} {inv inv' : Invocation}
      {ending : Ending} {a : UInt64} (ha : inv.lane.read cond = .ok a)
      (h : Block.Runs group id (if a = 0 then elseBlock else thenBlock) inv (.next inv'))
      (hrest : Block.Runs group id rest inv' ending) :
      Block.Runs group id (.branch cond thenBlock elseBlock :: rest) inv ending
  | branch_left {cond : Value} {thenBlock elseBlock rest : Block} {inv inv' : Invocation}
      {a : UInt64} (ha : inv.lane.read cond = .ok a)
      (h : Block.Runs group id (if a = 0 then elseBlock else thenBlock) inv (.left inv')) :
      Block.Runs group id (.branch cond thenBlock elseBlock :: rest) inv (.left inv')
  | branch_faulted {cond : Value} {thenBlock elseBlock rest : Block} {inv : Invocation}
      {fault : Fault} {a : UInt64} (ha : inv.lane.read cond = .ok a)
      (h : Block.Runs group id (if a = 0 then elseBlock else thenBlock) inv (.faulted fault)) :
      Block.Runs group id (.branch cond thenBlock elseBlock :: rest) inv (.faulted fault)
  | again {body rest : Block} {inv inv' : Invocation} {ending : Ending}
      (h : Block.Runs group id body inv (.next inv'))
      (hrest : Block.Runs group id (.loop body :: rest) inv' ending) :
      Block.Runs group id (.loop body :: rest) inv ending
  | loop_left {body rest : Block} {inv inv' : Invocation} {ending : Ending}
      (h : Block.Runs group id body inv (.left inv'))
      (hrest : Block.Runs group id rest inv' ending) :
      Block.Runs group id (.loop body :: rest) inv ending
  | loop_faulted {body rest : Block} {inv : Invocation} {fault : Fault}
      (h : Block.Runs group id body inv (.faulted fault)) :
      Block.Runs group id (.loop body :: rest) inv (.faulted fault)
  | leave {rest : Block} (inv : Invocation) :
      Block.Runs group id (.leave :: rest) inv (.left inv)

/-- All instructions of a block have a property. -/
def Block.All (program : Program) (property : Instr → Prop) (block : Block) : Prop :=
  ∀ v ∈ Block.values block, ∀ i, program.instr v = .ok i → property i

variable {rest : Block} {property : Instr → Prop} {inv : Invocation} {program : Program}

theorem Block.All.head {node : Node} (h : Block.All program property (node :: rest)) :
    (∀ v ∈ node.values, ∀ i, program.instr v = .ok i → property i) ∧ Block.All program property rest :=
  ⟨fun v hv => h v (by simp [Block.values, hv]), fun v hv => h v (by simp [Block.values, hv])⟩

/-! ## Without cross-lane operations there is one ending at most -/

variable {group : Workgroup} {id : LaneId}

theorem Instr.Runs.unique {instr : Instr} {result result' : Except Fault Invocation} (hscalar : instr.isScalar)
    (h : instr.Runs group id value inv result) (h' : instr.Runs group id value inv result') : result = result' := by
  cases h with
  | scalar =>
    cases h' with
    | scalar => rfl
    | crossLane => cases hscalar
  | crossLane => cases hscalar

theorem Block.All.instr {i : Instr} (h : Block.All program property (.instr value :: rest))
    (hi : program.instr value = .ok i) : property i :=
  h value (by simp [Block.values, Node.values]) i hi

theorem Block.All.side {cond : Value} {a : UInt64} {thenBlock elseBlock : Block}
    (h : Block.All program property (.branch cond thenBlock elseBlock :: rest)) :
    Block.All program property (if a = 0 then elseBlock else thenBlock) := by
  intro v hv
  refine h.head.1 v ?_
  rw [Node.values, List.mem_append]
  split at hv
  · exact .inr hv
  · exact .inl hv

theorem Block.Runs.unique {block : Block} {ending : Ending} (h : Block.Runs group id block inv ending) :
    ∀ {ending' : Ending}, Block.All group.program (·.isScalar) block →
      Block.Runs group id block inv ending' → ending = ending' := by
  induction h with
  | nil =>
    rintro _ - ⟨⟩
    rfl
  | instr hi hrun _ ih =>
    intro _ hall h'
    cases h' with
    | instr hi' hrun' hrest' =>
      cases hi.symm.trans hi'
      cases hrun.unique (hall.instr hi) hrun'
      exact ih hall.head.2 hrest'
    | instr_faulted hi' hrun' =>
      cases hi.symm.trans hi'
      cases hrun.unique (hall.instr hi) hrun'
  | instr_faulted hi hrun =>
    intro _ hall h'
    cases h' with
    | instr hi' hrun' hrest' =>
      cases hi.symm.trans hi'
      cases hrun.unique (hall.instr hi) hrun'
    | instr_faulted hi' hrun' =>
      cases hi.symm.trans hi'
      cases hrun.unique (hall.instr hi) hrun'
      rfl
  | branch ha _ _ ih ihrest =>
    intro _ hall h'
    cases h' with
    | branch ha' h' hrest' =>
      cases ha.symm.trans ha'
      cases ih hall.side h'
      exact ihrest hall.head.2 hrest'
    | branch_left ha' h' =>
      cases ha.symm.trans ha'
      cases ih hall.side h'
    | branch_faulted ha' h' =>
      cases ha.symm.trans ha'
      cases ih hall.side h'
  | branch_left ha _ ih =>
    intro _ hall h'
    cases h' with
    | branch ha' h' hrest' =>
      cases ha.symm.trans ha'
      cases ih hall.side h'
    | branch_left ha' h' =>
      cases ha.symm.trans ha'
      exact ih hall.side h'
    | branch_faulted ha' h' =>
      cases ha.symm.trans ha'
      cases ih hall.side h'
  | branch_faulted ha _ ih =>
    intro _ hall h'
    cases h' with
    | branch ha' h' hrest' =>
      cases ha.symm.trans ha'
      cases ih hall.side h'
    | branch_left ha' h' =>
      cases ha.symm.trans ha'
      cases ih hall.side h'
    | branch_faulted ha' h' =>
      cases ha.symm.trans ha'
      exact ih hall.side h'
  | again _ _ ih ihrest =>
    intro _ hall h'
    have hbody : Block.All group.program (·.isScalar) _ := hall.head.1
    cases h' with
    | again h' hrest' =>
      cases ih hbody h'
      exact ihrest hall hrest'
    | loop_left h' hrest' => cases ih hbody h'
    | loop_faulted h' => cases ih hbody h'
  | loop_left _ _ ih ihrest =>
    intro _ hall h'
    have hbody : Block.All group.program (·.isScalar) _ := hall.head.1
    cases h' with
    | again h' hrest' => cases ih hbody h'
    | loop_left h' hrest' =>
      cases ih hbody h'
      exact ihrest hall.head.2 hrest'
    | loop_faulted h' => cases ih hbody h'
  | loop_faulted _ ih =>
    intro _ hall h'
    have hbody : Block.All group.program (·.isScalar) _ := hall.head.1
    cases h' with
    | again h' hrest' => cases ih hbody h'
    | loop_left h' hrest' => cases ih hbody h'
    | loop_faulted h' => exact ih hbody h'
  | leave =>
    rintro _ - ⟨⟩
    rfl

end PrimitiveShader
