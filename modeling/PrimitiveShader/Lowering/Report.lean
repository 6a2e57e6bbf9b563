import PrimitiveShader.Config
import PrimitiveShader.Log
import PrimitiveShader.Program.Validity

/-!
# Results of a lowering

A lowering works on a program in place. It either reports what it did or says why it did not; in
both cases the program is handed back as it stands, together with the log.
-/

namespace PrimitiveShader

/-- What a lowering did. -/
structure LoweringReport where
  /-- The bytes of shared memory of the lowered program. -/
  sharedSize : Nat
  /-- Input primitives are exported as they come. -/
  passthrough : Bool := false
  canCull : Bool := false
  /-- Primitives are exported before the body runs. -/
  earlyPrimitiveExport : Bool := false
  /-- Vertices are compacted before they are exported. -/
  compaction : Bool := false
deriving DecidableEq, Repr

/-- Why a program is not lowered. -/
inductive LoweringError where
  | config (error : ConfigError)
  | program (error : ProgramError)
  | missingVertexCount (stream : Nat)
  | unsupportedStage (stage : Stage)
  | unimplemented (feature : String)
deriving DecidableEq, Repr

/-- The text of a lowering error. -/
def LoweringError.message : LoweringError → String
  | config error => "invalid configuration: " ++ error.message
  | program error => "invalid program: " ++ error.message
  | missingVertexCount stream =>
    s!"geometry shader never sets the vertex count of stream {stream}"
  | unsupportedStage stage => stage.name ++ " programs are not lowered to primitive shaders"
  | unimplemented feature => feature ++ " is not implemented"

/-- The result of a lowering. -/
structure Lowered where
  program : Program
  outcome : Except LoweringError LoweringReport
  log : List LogRecord := []

namespace Lowered

/-- A program that is left alone. -/
def rejected (program : Program) (error : LoweringError) : Lowered :=
  { program, outcome := .error error }

/-- A program that has been changed and is checked once more. -/
def checked (program : Program) (report : LoweringReport) (log : List LogRecord) : Lowered where
  program := program
  outcome :=
    match program.validate with
    | .ok () => .ok report
    | .error error => .error (.program error)
  log := log

theorem checked_outcome_eq_ok_iff {program : Program} {report report' : LoweringReport} {log : List LogRecord} :
    (checked program report log).outcome = .ok report' ↔ program.validate = .ok () ∧ report = report' := by
  unfold checked
  cases program.validate <;> simp

end Lowered

end PrimitiveShader
