import PrimitiveShader.Program.Emission
import PrimitiveShader.WaveWidth

/-!
# Cross-lane code

The cross-lane operations that lowered programs are made of, for waves of either width. Only the
ballot depends on the width, through the type of its mask.
-/

namespace PrimitiveShader.WaveWidth

/-- One bit for each active lane where `value` is true. -/
def ballot (wave : WaveWidth) (value : Value) : Emit Value :=
  Emit.crossLane (.ballot value wave.ballotType)

/-- The number of bits of a mask. -/
def popCount (_ : WaveWidth) (mask : Value) : Emit Value := Emit.unary .bitCount mask

/-- The number of bits of a mask below the current lane. -/
def exclusiveRank (_ : WaveWidth) (mask : Value) : Emit Value :=
  Emit.crossLane (.maskedBitCount mask)

/-- The value of another lane. -/
def readLane (_ : WaveWidth) (value lane : Value) : Emit Value :=
  Emit.crossLane (.readLane value lane)

/-- The value of the first active lane. -/
def readFirstLane (_ : WaveWidth) (value : Value) : Emit Value :=
  Emit.crossLane (.readFirstLane value)

/-- True on the first active lane only. -/
def elect (_ : WaveWidth) : Emit Value := Emit.crossLane .elect

/-- The sum over the active lanes. -/
def reduceAdd (_ : WaveWidth) (value : Value) : Emit Value := Emit.crossLane (.reduceAdd value)

end PrimitiveShader.WaveWidth
