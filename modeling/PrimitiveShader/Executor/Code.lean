import PrimitiveShader.Instr.Printer
import PrimitiveShader.Program

/-!
# Flat code

A wave runs its program as a list of operations with one program counter. Branches and loops become
operations which mark where they begin and end and name the operation to go on with: a branch names
its `else` mark, an `else` mark names its `end`, the end of a loop names its beginning. Targets count
operations from the start of the code.
-/

namespace PrimitiveShader

/-- An operation of flat code. -/
inductive CodeOp where
  /-- Runs an instruction. -/
  | instr (value : Value)
  /-- Begins a branch; goes on at `elseAt` when no lane takes it. -/
  | branch (cond : Value) (elseAt : Nat)
  /-- Turns to the other side of a branch; goes on at `endAt` when no lane takes it. -/
  | otherwise (endAt : Nat)
  /-- Ends a branch. -/
  | endBranch
  /-- Begins a loop. -/
  | loop
  /-- Leaves the innermost loop. -/
  | leave
  /-- Ends a loop; goes on behind `loopAt` while a lane is left. -/
  | endLoop (loopAt : Nat)
deriving DecidableEq, Repr

/-- The text of an operation. -/
def CodeOp.text : CodeOp → String
  | instr value => textCall "Instr" [value.text]
  | branch cond elseAt => textFields "If" [("cond", cond.text), ("else_", toString elseAt)]
  | otherwise endAt => textFields "Else" [("end", toString endAt)]
  | endBranch => "EndIf"
  | loop => "Loop"
  | leave => "Break"
  | endLoop loopAt => textFields "EndLoop" [("start", toString loopAt)]

mutual

/-- The operations of a node whose first operation is number `start`. -/
def Node.code (start : Nat) : Node → List CodeOp
  | .instr value => [.instr value]
  | .branch cond thenBlock elseBlock =>
    let thenOps := Block.code (start + 1) thenBlock
    let elseAt := start + 1 + thenOps.length
    let elseOps := Block.code (elseAt + 1) elseBlock
    let endAt := elseAt + 1 + elseOps.length
    .branch cond elseAt :: thenOps ++ .otherwise endAt :: elseOps ++ [.endBranch]
  | .loop body => .loop :: Block.code (start + 1) body ++ [.endLoop start]
  | .leave => [.leave]

/-- The operations of a block whose first operation is number `start`. -/
def Block.code (start : Nat) : List Node → List CodeOp
  | [] => []
  | node :: rest =>
    let ops := node.code start
    ops ++ Block.code (start + ops.length) rest

end

end PrimitiveShader
