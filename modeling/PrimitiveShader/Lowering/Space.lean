import PrimitiveShader.Subgroup

/-!
# Asking for output space

The hardware wants to be asked once per workgroup, by one lane of the first wave.
-/

namespace PrimitiveShader.Lowering

/-- Emits the request for the space of `vertices` vertices and `primitives` primitives. -/
def requestSpace (wave : WaveWidth) (vertices primitives : Value) : Emit Unit := do
  let waveId ← Emit.input .subgroupId
  let isFirst ← Emit.binaryImm .eq waveId 0
  Emit.ifThen isFirst do
    let elected ← wave.elect
    Emit.ifThen elected (Emit.effect (.allocate vertices primitives))

end PrimitiveShader.Lowering
