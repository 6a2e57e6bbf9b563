import PrimitiveShader.Fault
import PrimitiveShader.Instr.Printer
import PrimitiveShader.Radix

/-!
# Errors of a run

What can go wrong when a workgroup is launched and run. Each cause carries the lanes, waves and
addresses that its text mentions.
-/

namespace PrimitiveShader

/-- Why a launch is refused. -/
inductive LaunchError where
  | emptyWorkgroup
  | tooManyWaves
  | tooManyVertices
  | tooManyPrimitives
deriving DecidableEq, Repr

/-- What is wrong with the request for output space. -/
inductive AllocationError where
  | outsideFirstWave
  | repeated
  | missing
deriving DecidableEq, Repr

/-- The two kinds of exports. -/
inductive ExportKind where
  | primitive
  | vertex
deriving DecidableEq, Repr

/-- Why a run fails. -/
inductive RunError where
  | launch (cause : LaunchError)
  | unlowered (op : Intrinsic)
  | divergentBarrier (wave : Nat) (active expected : UInt64)
  | barrierMismatch
  | outOfBounds (lane addr len size : Nat)
  | race (addr wave other : Nat)
  | writeConflict (addr lane other : Nat)
  | allocation (cause : AllocationError)
  | exportOutOfRange (lane : Nat) (kind : ExportKind)
  | stepLimit (wave : Nat)
deriving DecidableEq, Repr

/-- The text of a refusal. -/
def LaunchError.message : LaunchError → String
  | emptyWorkgroup => "empty workgroup"
  | tooManyWaves => "more than 8 waves"
  | tooManyVertices => "more input vertices than lanes"
  | tooManyPrimitives => "more input primitives than lanes"

/-- The text of an allocation error. -/
def AllocationError.message : AllocationError → String
  | outsideFirstWave => "outside of wave 0"
  | repeated => "more than once"
  | missing => "missing for a workgroup with exports"

/-- The name of a kind of exports. -/
def ExportKind.name : ExportKind → String
  | primitive => "primitive"
  | vertex => "vertex"

/-- The text of an error. -/
def RunError.message : RunError → String
  | launch cause => "invalid launch: " ++ cause.message
  | unlowered op => op.text ++ " must be lowered before execution"
  | divergentBarrier wave active expected =>
    s!"wave {wave} reached a barrier with lanes {Radix.hex active.toNat} of " ++
      s!"{Radix.hex expected.toNat} active"
  | barrierMismatch => "some waves finished while others wait on a barrier"
  | outOfBounds lane addr len size =>
    s!"lane {lane} accesses {len} shared bytes at {addr}, past the {size} byte workgroup size"
  | race addr wave other =>
    s!"wave {wave} and wave {other} access shared byte {addr} without a barrier in between"
  | writeConflict addr lane other =>
    s!"lanes {lane} and {other} both write shared byte {addr} without a barrier in between"
  | allocation cause => "invalid output allocation: " ++ cause.message
  | exportOutOfRange lane kind =>
    s!"lane {lane} exports a {kind.name} outside of the allocated space"
  | stepLimit wave => s!"wave {wave} did not finish within the step limit"

end PrimitiveShader
