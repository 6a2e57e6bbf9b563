import PrimitiveShader.Fault
import PrimitiveShader.Instr.Typing

/-!
# Programs

A program keeps its instructions in a table and says in a tree of nested blocks where each of them
runs. Control flow only nests: a block is a list of nodes, and a node is an instruction, a branch, a
loop, or the departure from the innermost loop. Values are visible in the block that computes them
and in the blocks nested in it; variables carry values further.
-/

namespace PrimitiveShader

/-- The stage of the pipeline that a program is written for. -/
inductive Stage where
  | vertex
  | tessEval
  | geometry
  | fragment
deriving DecidableEq, Repr

/-- The name of the stage in text. -/
def Stage.name : Stage → String
  | vertex => "Vertex"
  | tessEval => "TessEval"
  | geometry => "Geometry"
  | fragment => "Fragment"

/-- A node of a program's tree. -/
inductive Node where
  /-- Runs an instruction. -/
  | instr (value : Value)
  /-- Runs one block where the condition holds and the other where it does not. -/
  | branch (cond : Value) (thenBlock elseBlock : List Node)
  /-- Runs a block again and again. -/
  | loop (body : List Node)
  /-- Leaves the innermost loop. -/
  | leave

/-- A list of nodes. -/
abbrev Block := List Node

/-- An instruction together with the type of its result. -/
structure Definition where
  instr : Instr
  type : ScalarType
deriving DecidableEq, Repr

/-- A declared variable. -/
structure VarDecl where
  name : String
  type : ScalarType
deriving DecidableEq, Repr

/-- A shader program. -/
structure Program where
  stage : Stage
  body : Block := []
  /-- The bytes of shared memory that a workgroup needs. -/
  sharedSize : Nat := 0
  definitions : Array Definition := #[]
  vars : Array VarDecl := #[]

mutual

/-- The instructions of a node, in order. -/
def Node.values : Node → List Value
  | .instr value => [value]
  | .branch _ thenBlock elseBlock => Block.values thenBlock ++ Block.values elseBlock
  | .loop body => Block.values body
  | .leave => []

/-- The instructions of a block, in order. -/
def Block.values : List Node → List Value
  | [] => []
  | node :: rest => node.values ++ Block.values rest

end

namespace Program

/-- The definition of a value. -/
@[inline] def definition? (program : Program) (value : Value) : Option Definition :=
  program.definitions[value.index]?

/-- The type of a value. -/
def valueType? (program : Program) (value : Value) : Option ScalarType :=
  (program.definition? value).map (·.type)

/-- The declaration of a variable. -/
def var? (program : Program) (var : Var) : Option VarDecl := program.vars[var.index]?

/-- The type of a variable. -/
def varType? (program : Program) (var : Var) : Option ScalarType :=
  (program.var? var).map (·.type)

/-- The definition of a value that has to exist. -/
@[inline] def definition (program : Program) (value : Value) : Except Fault Definition :=
  match program.definition? value with
  | some d => .ok d
  | none => .error .outOfRange

/-- The instruction of a value that has to exist. -/
@[inline] def instr (program : Program) (value : Value) : Except Fault Instr :=
  (program.definition value).map (·.instr)

/-- The type of a value that has to exist. -/
@[inline] def typeOf (program : Program) (value : Value) : Except Fault ScalarType :=
  (program.definition value).map (·.type)

/-- The result type of an instruction within a program. -/
def resultType? (program : Program) (instr : Instr) : Option ScalarType :=
  instr.resultType? program.valueType? program.varType?

/-- Declares a variable. -/
def createVar (program : Program) (name : String) (type : ScalarType) : Var × Program :=
  (⟨program.vars.size⟩, { program with vars := program.vars.push ⟨name, type⟩ })

/-- Whether the body has no control flow at all. -/
def isStraightLine (program : Program) : Bool :=
  program.body.all fun
    | .instr _ => true
    | _ => false

/-- The instructions of the body, in order. -/
def placed (program : Program) : Except Fault (List (Value × Instr)) :=
  (Block.values program.body).mapM fun value => do return (value, ← program.instr value)

/-- The number of entry points of geometry programs in the body. -/
def entryPointCount (program : Program) : Except Fault Nat := do
  return (← program.placed).countP fun (_, instr) => instr.isEntryPoint

end Program

end PrimitiveShader
