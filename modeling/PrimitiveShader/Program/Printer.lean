import PrimitiveShader.Instr.Printer
import PrimitiveShader.Lines
import PrimitiveShader.Program

/-!
# The text of programs

A program is shown row by row, with four spaces per level of nesting. The row of an instruction
gives the value, its type and the instruction; instructions on variables add the name of the
variable. A name is shown as it is, so a row takes several lines if the name in it does.
-/

namespace PrimitiveShader.Program

/-- The indentation of a level. -/
def indent (depth : Nat) : String := String.ofList (List.replicate (4 * depth) ' ')

/-- The name of a variable, in parentheses. -/
def varNote (program : Program) (var : Var) : String :=
  " (" ++ ((program.var? var).map (·.name)).getD "?" ++ ")"

/-- The row of an instruction, without indentation. -/
def instrRow (program : Program) (value : Value) : Except Fault String := do
  let d ← program.definition value
  let note :=
    match d.instr with
    | .loadVar var => program.varNote var
    | .storeVar var _ => program.varNote var
    | _ => ""
  return value.text ++ " " ++ d.type.name ++ " = " ++ d.instr.text ++ note

mutual

/-- The rows of a node. An empty `else` block is not shown. -/
def nodeRows (program : Program) (depth : Nat) : Node → Except Fault (List String)
  | .instr value => do return [indent depth ++ (← program.instrRow value)]
  | .branch cond thenBlock elseBlock => do
    let head := indent depth ++ "if " ++ cond.text ++ " \x7b"
    let thenRows ← program.blockRows (depth + 1) thenBlock
    let elseRows ← program.blockRows (depth + 1) elseBlock
    let middle := if elseBlock.isEmpty then [] else [indent depth ++ "\x7d else \x7b"]
    return head :: thenRows ++ middle ++ elseRows ++ [indent depth ++ "\x7d"]
  | .loop body => do
    let rows ← program.blockRows (depth + 1) body
    return (indent depth ++ "loop \x7b") :: rows ++ [indent depth ++ "\x7d"]
  | .leave => .ok [indent depth ++ "break"]

/-- The rows of a block. -/
def blockRows (program : Program) (depth : Nat) : List Node → Except Fault (List String)
  | [] => .ok []
  | node :: rest => do
    let rows ← program.nodeRows depth node
    return rows ++ (← program.blockRows depth rest)

end

/-- The rows of a program. -/
def rows (program : Program) : Except Fault (List String) := do
  let head := "Program(" ++ program.stage.name ++ ", shared = " ++ toString program.sharedSize ++
    ") \x7b"
  return head :: (← program.blockRows 1 program.body) ++ ["\x7d"]

/-- The lines of a program. -/
def lines (program : Program) : Except Fault (List String) := do
  return (← program.rows).flatMap splitLines

end PrimitiveShader.Program
