import PrimitiveShader.Executor.Code
import PrimitiveShader.Executor.Error

/-!
# Executables

A program that has been made ready to run: its entry points are gone and its body is flat.
-/

namespace PrimitiveShader

/-- A program with its flat code. -/
structure Executable where
  program : Program
  code : Array CodeOp

/-- Makes a program ready to run. The first entry point that is left over is an error. -/
def Program.toExecutable (program : Program) : Except Fault (Except RunError Executable) := do
  let placed ← program.placed
  let leftover := placed.findSome? fun
    | (_, .intrinsic op) => if op.isEntryPoint then some op else none
    | _ => none
  match leftover with
  | some op => return .error (.unlowered op)
  | none => return .ok ⟨program, (Block.code 0 program.body).toArray⟩

end PrimitiveShader
