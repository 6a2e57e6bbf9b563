import PrimitiveShader.Config
import PrimitiveShader.Executor.Error

/-!
# Launches

What the hardware hands to a workgroup. Lanes are numbered through all waves; the first ones have an
input vertex, and lane `i` has the input primitive number `i` if there is one.
-/

namespace PrimitiveShader

/-- An input primitive. -/
structure InputPrimitive where
  /-- The vertices, by the lanes that hold them. -/
  vertices : Vector UInt32 3
  id : UInt32
  edgeFlags : Vector Bool 3 := #v[false, false, false]
deriving DecidableEq, Repr

/-- The inputs of one workgroup. -/
structure Launch where
  topology : Topology := .triangles
  numLanes : Nat
  /-- The number of lanes with an input vertex. -/
  inputVertices : Nat := 0
  primitives : Array InputPrimitive := #[]
  /-- The patch of each input vertex, for tessellation programs. -/
  patchIds : Array UInt32 := #[]
  queryEnabled : Bool := false
deriving DecidableEq, Repr

namespace Launch

/-- The number of waves. -/
def numWaves (launch : Launch) (wave : WaveWidth) : Nat :=
  (launch.numLanes + wave.size - 1) / wave.size

/-- The input primitive of a lane. -/
def primitive? (launch : Launch) (lane : Nat) : Option InputPrimitive := launch.primitives[lane]?

/-- Checks that the hardware can launch the workgroup. -/
def validate (launch : Launch) (wave : WaveWidth) : Except LaunchError Unit := do
  unless 1 ≤ launch.numLanes do throw .emptyWorkgroup
  unless launch.numWaves wave ≤ Hardware.maxWaves do throw .tooManyWaves
  unless launch.inputVertices ≤ launch.numLanes do throw .tooManyVertices
  unless launch.primitives.size ≤ launch.numLanes do throw .tooManyPrimitives

end Launch

end PrimitiveShader
