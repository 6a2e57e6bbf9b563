import PrimitiveShader.ScalarType

/-!
# Wave widths

A wave runs 32 or 64 lanes in lockstep.
-/

namespace PrimitiveShader

/-- How many lanes a wave has. -/
inductive WaveWidth where
  | wave32
  | wave64
deriving DecidableEq, Repr

namespace WaveWidth

/-- The number of lanes. -/
def size : WaveWidth → Nat
  | wave32 => 32
  | wave64 => 64

/-- The type of a word with one bit per lane. -/
def ballotType : WaveWidth → ScalarType
  | wave32 => .u32
  | wave64 => .u64

/-- The name of the width in text. -/
def name : WaveWidth → String
  | wave32 => "Wave32"
  | wave64 => "Wave64"

end WaveWidth

end PrimitiveShader
