import PrimitiveShader.Instr.Printer
import PrimitiveShader.Program

/-!
# Valid programs

`Program.validate` reads the body in order and reports the first thing that is wrong. Every placed
value must exist, be placed once, use only values that are visible where it stands, and have the
type that its instruction gives it. A value is visible in the rest of its block and in the blocks
nested there. A condition must be a visible boolean, and only a loop can be left.
-/

namespace PrimitiveShader

/-- What is wrong with a program. -/
inductive ProgramError where
  | useBeforeDefinition (operand user : Value)
  | duplicate (value : Value)
  | unknown (value : Value)
  | typeMismatch (value : Value) (instr : Instr)
  | nonBoolCondition (value : Value)
  | breakOutsideLoop
deriving DecidableEq, Repr

/-- The text of a program error. -/
def ProgramError.message : ProgramError → String
  | useBeforeDefinition operand user =>
    operand.text ++ " is used by " ++ user.text ++ " outside the block that defines it"
  | duplicate value => value.text ++ " is placed in the program more than once"
  | unknown value => value.text ++ " is not defined in this program"
  | typeMismatch value instr => "operand types don't fit " ++ value.text ++ " = " ++ instr.text
  | nonBoolCondition value => "if condition " ++ value.text ++ " is not a boolean"
  | breakOutsideLoop => "break outside of a loop"

namespace Program

/-- An operand must exist and be visible to its user. -/
def checkOperand (program : Program) (visible : List Value) (user operand : Value) :
    Except ProgramError Unit := do
  unless (program.definition? operand).isSome do throw (.unknown operand)
  unless operand ∈ visible do throw (.useBeforeDefinition operand user)

/-- Checks one placed instruction. `placed` holds all values placed so far, `visible` those of them
that the instruction may use. -/
def checkInstr (program : Program) (visible placed : List Value) (value : Value) :
    Except ProgramError Unit := do
  match program.definition? value with
  | none => throw (.unknown value)
  | some d =>
    if value ∈ placed then throw (.duplicate value)
    d.instr.operands.forM (program.checkOperand visible value)
    unless program.resultType? d.instr = some d.type do throw (.typeMismatch value d.instr)

/-- A condition must be a visible boolean. -/
def checkCondition (program : Program) (visible : List Value) (cond : Value) :
    Except ProgramError Unit := do
  match program.valueType? cond with
  | none => throw (.unknown cond)
  | some type =>
    unless cond ∈ visible do throw (.unknown cond)
    unless type = .bool do throw (.nonBoolCondition cond)

mutual

/-- Checks a node and gives back what is visible and what is placed after it. -/
def checkNode (program : Program) (inLoop : Bool) (visible placed : List Value) :
    Node → Except ProgramError (List Value × List Value)
  | .instr value => do
    program.checkInstr visible placed value
    return (value :: visible, value :: placed)
  | .branch cond thenBlock elseBlock => do
    program.checkCondition visible cond
    let placed ← program.checkBlock inLoop visible placed thenBlock
    let placed ← program.checkBlock inLoop visible placed elseBlock
    return (visible, placed)
  | .loop body => do
    let placed ← program.checkBlock true visible placed body
    return (visible, placed)
  | .leave => do
    unless inLoop do throw .breakOutsideLoop
    return (visible, placed)

/-- Checks a block and gives back what is placed after it. -/
def checkBlock (program : Program) (inLoop : Bool) (visible placed : List Value) :
    List Node → Except ProgramError (List Value)
  | [] => .ok placed
  | node :: rest => do
    let (visible, placed) ← program.checkNode inLoop visible placed node
    program.checkBlock inLoop visible placed rest

end

/-- Checks a program. -/
def validate (program : Program) : Except ProgramError Unit := do
  let _ ← program.checkBlock false [] [] program.body

end Program

end PrimitiveShader
