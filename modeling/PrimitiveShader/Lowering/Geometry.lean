import PrimitiveShader.Lowering.Geometry.Finale
import PrimitiveShader.Lowering.Report

/-!
# Lowering geometry programs

One lane per input primitive runs the body, in which emitted vertices are staged in shared memory.
After a barrier the staged vertices of stream 0 are exported, compacted unless every invocation emits
the declared maximum on every active stream.
-/

namespace PrimitiveShader.Lowering

/-- The regions that a geometry program needs. -/
def geometryRequests (config : Config) (compacts : Bool) (candidates stride : Nat) :
    List LayoutRequest :=
  let waves := config.maxWaves
  (if compacts && 1 < waves then [.waveCounts waves] else []) ++
    [.vertexAttributes candidates stride] ++
    config.geometry.streams.map (.primitiveFlags · candidates) ++
    (if compacts then [.compactionIndex candidates] else [])

/-- Fixes how vertices are staged, and declares the variables for that. -/
def makePlan (config : Config) (survey : Survey) : Emit GeometryPlan := do
  let (attributes, size) ← declareAttributes survey.types 0
  let stride ← fits32 (alignUp size 4)
  let candidates ← config.geometry.totalVertices
  let compacts := survey.needsCompaction config.geometry
  let layout ← SharedLayout.ofRequests (geometryRequests config compacts candidates stride)
  return { config, layout, attributes, stride }

/-- Emits the body for the lanes with an invocation. -/
def GeometryPlan.stageBody (plan : GeometryPlan) (body : Block) : Emit Unit := do
  let hasPrimitive ← Emit.input .hasInputPrimitive
  Emit.ifThen hasPrimitive (plan.stageBlock body)

/-- Emits the exports. -/
def GeometryPlan.finale (plan : GeometryPlan) (compacts : Bool) : Emit Unit :=
  if compacts then plan.exportLive else plan.exportAll

/-- Emits the whole program. -/
def GeometryPlan.wholeProgram (plan : GeometryPlan) (compacts : Bool) (body : Block) :
    Emit Unit := do
  Emit.effect .barrier
  plan.stageBody body
  Emit.effect .barrier
  plan.finale compacts

/-- What a lowering of a geometry program asks for. -/
def checkGeometry (config : Config) (program : Program) : Except LoweringError Unit := do
  config.validateGeometry.mapError .config
  unless program.stage = .geometry do throw (.unsupportedStage program.stage)
  program.validate.mapError .program

/-- The records of a lowering. -/
def geometryLog (plan : GeometryPlan) (survey : Survey) (compacts : Bool) :
    Except Fault (List LogRecord) := do
  let streams := Radix.binary plan.config.geometry.activeStreams.toNat
  let dropped : LogRecord :=
    ⟨.warn, s!"dropping {survey.droppedEmits} emits on streams outside {streams}"⟩
  let finale := if compacts then "compacting" else "static"
  let summary : LogRecord := ⟨.debug,
    s!"lowering gs: {plan.attributes.length} output components, stride {plan.stride}, " ++
      s!"{finale} finale, layout {← plan.layout.text}"⟩
  return (if survey.droppedEmits > 0 then [dropped] else []) ++ [summary]

/-- Lowers a geometry program. -/
def lowerGeometry (config : Config) (program : Program) : Except Fault Lowered :=
  match checkGeometry config program with
  | .error error => .ok (.rejected program error)
  | .ok () => do
    let survey ← Survey.ofProgram program config.geometry
    if survey.isCounted 0 then
      let compacts := survey.needsCompaction config.geometry
      let (plan, declared) ← makePlan config survey program
      let log ← geometryLog plan survey compacts
      let emitted ← (plan.wholeProgram compacts program.body).finish { declared with body := [] }
      let report : LoweringReport := { sharedSize := plan.layout.size, compaction := compacts }
      return .checked { emitted with sharedSize := plan.layout.size } report log
    else
      return .rejected program (.missingVertexCount 0)

end PrimitiveShader.Lowering
