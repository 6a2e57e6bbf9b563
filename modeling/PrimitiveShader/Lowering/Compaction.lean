import PrimitiveShader.SharedLayout.Access
import PrimitiveShader.Subgroup

/-!
# Compaction

Numbers the surviving lanes of a workgroup without gaps. Within a wave a ballot does it. Between
waves each wave writes its count into one byte of shared memory; after a barrier every lane reads
all counts as one word, whose lowest bytes add up to the survivors of the waves before.
-/

namespace PrimitiveShader.Lowering

/-- The results of a compaction. -/
structure Compaction where
  /-- The number of survivors of the workgroup. -/
  total : Value
  /-- The number of survivors on lanes before this one. -/
  rank : Value

/-- Emits the sum of the lowest bytes of `packed`, as many as `waves` says. -/
def sumFirstBytes (packed waves : Value) : Emit Value := do
  let bits ← Emit.shlImm waves 3
  let mask ← Emit.unary .bitfieldMask bits
  let masked ← Emit.binary .and packed mask
  Emit.unary .byteSum masked

/-- Emits a compaction of the lanes where `survive` is true. A workgroup of one wave needs no
scratch memory. -/
def compactLanes (wave : WaveWidth) (survive : Value) (scratch : Option Region) : Emit Compaction := do
  let ballot ← wave.ballot survive
  let waveCount ← wave.popCount ballot
  let waveRank ← wave.exclusiveRank ballot
  match scratch with
  | none => return { total := waveCount, rank := waveRank }
  | some scratch =>
    let elected ← wave.elect
    Emit.ifThen elected do
      let count ← Emit.convert waveCount .u8
      let waveId ← Emit.input .subgroupId
      scratch.store count waveId 1 0
    Emit.effect .barrier
    let zero ← Emit.imm32 0
    let packed ← scratch.load zero scratch.size 0 (if scratch.size = 8 then .u64 else .u32)
    let packed ← Emit.convert packed .u64
    let waveId ← Emit.input .subgroupId
    let numWaves ← Emit.input .numSubgroups
    let before ← sumFirstBytes packed waveId
    let total ← sumFirstBytes packed numWaves
    let before ← wave.readFirstLane before
    let total ← wave.readFirstLane total
    let rank ← Emit.binary .add before waveRank
    return { total, rank }

end PrimitiveShader.Lowering
