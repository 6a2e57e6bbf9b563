import PrimitiveShader.Proofs.Wave.Mask

/-!
# Running a block in lockstep

A wave finds its way through flat code with a program counter and a stack of frames. This module
runs the tree of a program instead, block by block: `Block.lockstep` gives the lanes of a wave after
a block without barriers. Which lanes are on and which have left the innermost loop is all that is
left of the frames, and together with the states of the lanes it makes a `Formation`.

A loop has a number of passes after which it is given up, as if the step limit had been hit.
-/

namespace PrimitiveShader

/-- The lanes of a wave between two nodes of a block. -/
structure Formation where
  /-- The lanes that are on. -/
  exec : LaneMask
  /-- The lanes that have left the innermost loop, if there is one. -/
  left : Option LaneMask
  lanes : Array Lane

namespace Formation

/-- The formation as a wave, for operations that do not look at its control state. -/
def toWave (φ : Formation) (id : Nat) : Wave :=
  { id, launched := φ.exec, exec := φ.exec, lanes := φ.lanes }

/-- The lanes that an enclosing branch does not switch on again. -/
def gone (φ : Formation) : LaneMask := φ.left.getD .empty

/-- Runs one pass of a loop after the other until no lane is on. -/
def passes (id : Nat) (pass : Formation → Exec Shared Formation) :
    Nat → Formation → Exec Shared Formation
  | 0, _ => Exec.fail (.stepLimit id)
  | n + 1, φ => do
    let φ ← pass φ
    if φ.exec.isEmpty then return φ else passes id pass n φ

/-- Runs `block` on the lanes `mask`, if there are any. -/
def onLanes (block : Formation → Exec Shared Formation) (mask : LaneMask) (φ : Formation) :
    Exec Shared Formation :=
  if mask.isEmpty then pure { φ with exec := mask } else block { φ with exec := mask }

end Formation

/-- Runs an instruction on the lanes that are on. -/
def Value.lockstep (group : Workgroup) (id : Nat) (value : Value) (φ : Formation) :
    Exec Shared Formation :=
  if φ.exec.isEmpty then pure φ
  else do
    let instr ← group.program.instr value
    let wave ← (φ.toWave id).execute group value instr
    return { φ with lanes := wave.lanes }

mutual

/-- Runs a node, each loop in it for at most `fuel` passes. -/
def Node.lockstep (group : Workgroup) (id fuel : Nat) : Node → Formation → Exec Shared Formation
  | .instr value, φ => value.lockstep group id φ
  | .branch cond thenBlock elseBlock, φ => do
    let taken ← (φ.toWave id).maskOf cond
    let φ₁ ← Formation.onLanes (Block.lockstep group id fuel thenBlock) taken φ
    let φ₂ ← Formation.onLanes (Block.lockstep group id fuel elseBlock) (φ.exec.diff taken) φ₁
    return { φ₂ with exec := φ.exec.diff φ₂.gone }
  | .loop body, φ => do
    let ψ ← Formation.passes id (Block.lockstep group id fuel body) fuel
      { φ with left := some .empty }
    return { φ with lanes := ψ.lanes }
  | .leave, φ =>
    match φ.left with
    | some left => pure { φ with exec := .empty, left := some (left.union φ.exec) }
    | none => Exec.fault .controlStack

/-- Runs a block, each loop in it for at most `fuel` passes. -/
def Block.lockstep (group : Workgroup) (id fuel : Nat) : List Node → Formation →
    Exec Shared Formation
  | [], φ => pure φ
  | node :: rest, φ => do
    let φ ← node.lockstep group id fuel φ
    Block.lockstep group id fuel rest φ

end

theorem Block.lockstep_append (group : Workgroup) (id fuel : Nat) (a b : Block) (φ : Formation) :
    Block.lockstep group id fuel (a ++ b) φ = Block.lockstep group id fuel a φ >>= Block.lockstep group id fuel b := by
  induction a generalizing φ with
  | nil =>
    rw [List.nil_append, Block.lockstep]
    rfl
  | cons node rest ih =>
    rw [List.cons_append, Block.lockstep, Block.lockstep, bind_assoc]
    exact congrArg _ (funext fun φ => ih φ)

end PrimitiveShader
