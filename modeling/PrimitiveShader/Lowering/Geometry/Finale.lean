import PrimitiveShader.Lowering.Compaction
import PrimitiveShader.Lowering.Geometry.Staging
import PrimitiveShader.Lowering.Pack
import PrimitiveShader.Lowering.Space

/-!
# Exporting the staged vertices

After the body, stream 0 is exported. If every invocation emits the declared maximum, lane `i` exports
place `i`. Otherwise the live places are numbered without gaps: the lane of each live place tells the
lane of its number which place to export. Each place also stands for a primitive, which is null
unless the vertex there completes one.
-/

namespace PrimitiveShader.Lowering.GeometryPlan

variable (plan : GeometryPlan)

/-- Emits the export of the primitive that the vertex at `rank` completes, or of a null primitive. -/
def exportPrimitive (rank flags : Value) : Emit Unit := do
  let flags32 ← Emit.convert flags .u32
  let completes ← Emit.binaryImm .and flags32 PrimitiveFlags.completesBit.toUInt64
  let isNull ← Emit.binaryImm .eq completes 0
  let zero ← Emit.imm32 0
  let indices ← stripIndices plan.config.topology rank flags plan.config.provokingVertex
  let indices ← indices.mapM fun index => Emit.select isNull zero index
  let word ← packWord indices none (some isNull)
  Emit.effect (.exportPrimitive word)

/-- Emits the export of stream 0 of the vertex staged at `source`. -/
def exportVertex (source : Value) : Emit Unit := do
  match plan.layout.vertexAttributes with
  | some region =>
    (plan.streamAttributes 0).forM fun component => do
      let value ← region.load source plan.stride component.offset component.type
      Emit.effect (.storeOutput component.slot value)
  | none => pure ()
  Emit.effect .exportVertex

/-- Emits the number of places of all invocations. -/
def placeCount : Emit Value := do
  let invocations ← Emit.input .numInputPrimitives
  Emit.binaryImm .mul invocations plan.maxVertices

/-- Emits the load of the flags at a place. -/
def loadFlags (place : Value) : Emit Value := do
  (← plan.flagsRegion 0).load place 1 0 .u8

/-- Emits the exports of a lane whose place is in use. -/
def exportPlace (places : Value) : Emit Unit := do
  let lane ← Emit.input .localInvocationIndex
  let exports ← Emit.binary .lt lane places
  Emit.ifThen exports do
    let flags ← plan.loadFlags lane
    plan.exportPrimitive lane flags
    plan.exportVertex lane

/-- Emits the export of places that are all in use. -/
def exportAll : Emit Unit := do
  let places ← plan.placeCount
  requestSpace plan.config.wave places places
  plan.exportPlace places

/-- Emits the flags of this lane's place, which are zero on lanes without one. -/
def placeFlags (lane places : Value) : Emit Value := do
  let var ← Emit.createVar "vertex_flags" .u8
  let none_ ← Emit.imm .u8 0
  Emit.storeVar var none_
  let hasPlace ← Emit.binary .lt lane places
  Emit.ifThen hasPlace do
    let flags ← plan.loadFlags lane
    Emit.storeVar var flags
  Emit.loadVar var

/-- The region where live places are named. -/
def compactionRegion : Except Fault Region :=
  match plan.layout.compactionIndex with
  | some region => .ok region
  | none => .error .missingRegion

/-- What a lane has found out before the compaction. -/
structure Found where
  places : Value
  lane : Value
  flags : Value
  live : Value

/-- Emits the question whether this lane's place is live. -/
def findLive : Emit Found := do
  let places ← plan.placeCount
  let lane ← Emit.input .localInvocationIndex
  let flags ← plan.placeFlags lane places
  let live ← Emit.binaryImm .and flags PrimitiveFlags.liveBit.toUInt64
  let live ← Emit.binaryImm .ne live 0
  return { places, lane, flags, live }

/-- Emits the number of primitives. -/
def primitiveCount (found : Found) (total : Value) : Emit Value := do
  let anyVertex ← Emit.binaryImm .ne total 0
  let zero ← Emit.imm32 0
  Emit.select anyVertex found.places zero

/-- Emits the naming of this lane's place for the lane that exports it. -/
def nameLive (found : Found) (rank : Value) : Emit Region := do
  let region ← plan.compactionRegion
  Emit.ifThen found.live do
    let source ← Emit.convert found.lane .u8
    region.store source rank 1 0
  return region

/-- Emits the export of the place that has been named for this lane. -/
def exportNamed (found : Found) (total : Value) (region : Region) :
    Emit Unit := do
  let exportsVertex ← Emit.binary .lt found.lane total
  Emit.ifThen exportsVertex do
    let source ← region.load found.lane 1 0 .u8
    let source ← Emit.convert source .u32
    plan.exportVertex source

/-- Emits the exports of a lane. -/
def exportBoth (found : Found) (packed : Compaction) (primitives : Value)
    (region : Region) : Emit Unit := do
  let exportsPrimitive ← Emit.binary .lt found.lane primitives
  Emit.ifThen exportsPrimitive (plan.exportPrimitive packed.rank found.flags)
  plan.exportNamed found packed.total region

/-- Emits what follows the compaction. A workgroup without vertices exports no primitives either. -/
def exportPacked (found : Found) (packed : Compaction) : Emit Unit := do
  let primitives ← primitiveCount found packed.total
  requestSpace plan.config.wave packed.total primitives
  let region ← plan.nameLive found packed.rank
  Emit.effect .barrier
  plan.exportBoth found packed primitives region

/-- Emits the compaction and export of the live places. -/
def exportLive : Emit Unit := do
  let found ← plan.findLive
  let packed ← compactLanes plan.config.wave found.live plan.layout.waveCounts
  plan.exportPacked found packed

end PrimitiveShader.Lowering.GeometryPlan
