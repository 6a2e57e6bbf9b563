import PrimitiveShader.Program

/-!
# Builders

A builder writes a program from front to back: branches and loops are opened and closed one at a
time, and everything in between goes to the end of the innermost open block. The body of the
builder's program is that innermost block; what stands around it waits in the frames.
-/

namespace PrimitiveShader

/-- An open branch or loop, with the nodes that stand before it in the enclosing block. -/
inductive Builder.Frame where
  | thenBranch (cond : Value) (outer : Block)
  | elseBranch (cond : Value) (thenBlock outer : Block)
  | loop (outer : Block)

/-- A program under construction. -/
structure Builder where
  program : Program
  /-- The open branches and loops, innermost first. -/
  frames : List Builder.Frame := []

namespace Builder

/-- Makes `body` the innermost open block. -/
def withBody (builder : Builder) (body : Block) (frames : List Frame) : Builder :=
  { program := { builder.program with body }, frames }

/-- Opens a branch. -/
def openIf (builder : Builder) (cond : Value) : Builder :=
  builder.withBody [] (.thenBranch cond builder.program.body :: builder.frames)

/-- Goes on to the other side of the innermost branch. -/
def openElse (builder : Builder) : Except Fault Builder :=
  match builder.frames with
  | .thenBranch cond outer :: frames =>
    .ok (builder.withBody [] (.elseBranch cond builder.program.body outer :: frames))
  | _ => .error .elseWithoutIf

/-- Closes the innermost branch. -/
def closeIf (builder : Builder) : Except Fault Builder :=
  match builder.frames with
  | .thenBranch cond outer :: frames =>
    .ok (builder.withBody (outer ++ [.branch cond builder.program.body []]) frames)
  | .elseBranch cond thenBlock outer :: frames =>
    .ok (builder.withBody (outer ++ [.branch cond thenBlock builder.program.body]) frames)
  | _ => .error .closeWithoutIf

/-- Opens a loop. -/
def openLoop (builder : Builder) : Builder :=
  builder.withBody [] (.loop builder.program.body :: builder.frames)

/-- Closes the innermost loop. -/
def closeLoop (builder : Builder) : Except Fault Builder :=
  match builder.frames with
  | .loop outer :: frames =>
    .ok (builder.withBody (outer ++ [.loop builder.program.body]) frames)
  | _ => .error .closeWithoutLoop

/-- The finished program. -/
def finish (builder : Builder) : Except Fault Program :=
  match builder.frames with
  | [] => .ok builder.program
  | _ => .error .unbalancedControlFlow

end Builder

end PrimitiveShader
