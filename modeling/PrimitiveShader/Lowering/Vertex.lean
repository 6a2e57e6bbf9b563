import PrimitiveShader.Lowering.Pack
import PrimitiveShader.Lowering.Report
import PrimitiveShader.Lowering.Space
import PrimitiveShader.SharedLayout.Access

/-!
# Lowering vertex and tessellation programs

Every lane with an input primitive exports it, and every lane with an input vertex runs the body and
exports the vertex. The output space is as large as the input.

A body without control flow is run after the primitives are exported. Before any other body the
primitive is packed into a variable, and it is exported once the body is done.

A vertex program that exports primitive numbers does not know them: the lane of each primitive writes
its number to the place of the primitive's provoking vertex in shared memory, where the lane of that
vertex finds it after a barrier. The lanes of a tessellation program know their patch.
-/

namespace PrimitiveShader.Lowering

/-- What is fixed before any code is emitted. -/
structure VertexPlan where
  config : Config
  stage : Stage
  passthrough : Bool
  /-- Where primitive numbers are handed to the lanes of the provoking vertices. -/
  relay : Option Region

/-- The output slot of the primitive number. -/
def primitiveIdSlot : OutputSlot := ⟨OutputSlot.primitiveId, 0, 0⟩

/-- Emits the lane that holds vertex `vertex` of this lane's input primitive. -/
def inputVertex (vertex : Nat) : Emit Value := do
  let pair ← Emit.input (.vertexPair (UInt8.ofNat (vertex / 2 * 2)))
  Emit.extract pair (UInt8.ofNat (vertex % 2 * 16)) 16

namespace VertexPlan

/-- Emits the export word of this lane's input primitive. Only vertex programs have edge flags. -/
def primitiveWord (plan : VertexPlan) : Emit Value := do
  if plan.passthrough then
    Emit.input .packedPrimitive
  else
    let vertices := List.range plan.config.topology.vertexCount
    let indices ← vertices.mapM inputVertex
    if plan.stage = .vertex then
      let edgeFlags ← vertices.mapM fun i => Emit.input (.edgeFlag (UInt8.ofNat i))
      packWord indices (some edgeFlags) none
    else
      packWord indices none none

/-- Emits the export of a word, and hands over the primitive's number if there is a relay. -/
def exportWord (plan : VertexPlan) (word : Value) : Emit Unit := do
  match plan.relay with
  | some relay =>
    let provoking ← inputVertex plan.config.provokingIndex
    let id ← Emit.input .primitiveId
    relay.store id provoking 4 0
  | none => pure ()
  Emit.effect (.exportPrimitive word)

/-- Emits the export of this lane's input primitive, whose word is in `var` if it has been packed
already. -/
def exportPrimitive (plan : VertexPlan) (var : Option Var) : Emit Unit := do
  let hasPrimitive ← Emit.input .hasInputPrimitive
  Emit.ifThen hasPrimitive (match var with
    | some var => Emit.loadVar var >>= plan.exportWord
    | none => plan.primitiveWord >>= plan.exportWord)

/-- Emits the export of this lane's vertex. -/
def exportVertex (plan : VertexPlan) : Emit Unit := do
  if plan.config.exportPrimitiveId then
    let id ← match plan.relay with
      | some relay =>
        let lane ← Emit.input .localInvocationIndex
        relay.load lane 4 0 .u32
      | none => Emit.input .primitiveId
    Emit.effect (.storeOutput primitiveIdSlot id)
  Emit.effect .exportVertex

/-- Emits the barrier between the two sides of the relay. -/
def relayBarrier (plan : VertexPlan) : Emit Unit :=
  if plan.relay.isSome then Emit.effect .barrier else pure ()

/-- Emits the export of the primitives and then the body. -/
def exportThenRun (plan : VertexPlan) (body : Block) : Emit Unit := do
  plan.exportPrimitive none
  plan.relayBarrier
  let hasVertex ← Emit.input .hasInputVertex
  Emit.ifThen hasVertex do
    Emit.place body
    plan.exportVertex

/-- The word of the lane's primitive is put into a variable. -/
def packAhead (plan : VertexPlan) (var : Var) : Emit Unit := do
  let hasPrimitive ← Emit.input .hasInputPrimitive
  Emit.ifThen hasPrimitive do
    let word ← plan.primitiveWord
    Emit.storeVar var word

/-- What is in front of the barrier if the body comes first. -/
def runAndSend (plan : VertexPlan) (body : Block) : Emit Unit := do
  let var ← Emit.createVar "prim_exp_arg" .u32
  plan.packAhead var
  let hasVertex ← Emit.input .hasInputVertex
  Emit.ifThen hasVertex (Emit.place body)
  plan.exportPrimitive (some var)

/-- Emits the body and then the export of the primitives. -/
def runThenExport (plan : VertexPlan) (body : Block) : Emit Unit := do
  plan.runAndSend body
  plan.relayBarrier
  let hasVertex ← Emit.input .hasInputVertex
  Emit.ifThen hasVertex plan.exportVertex

/-- Emits the whole program. -/
def wholeProgram (plan : VertexPlan) (early : Bool) (body : Block) : Emit Unit := do
  let vertices ← Emit.input .numInputVertices
  let primitives ← Emit.input .numInputPrimitives
  requestSpace plan.config.wave vertices primitives
  if early then plan.exportThenRun body else plan.runThenExport body

end VertexPlan

/-- What a lowering of a vertex or tessellation program asks for. -/
def checkVertex (config : Config) (program : Program) : Except LoweringError Unit := do
  config.validate.mapError .config
  unless program.stage = .vertex ∨ program.stage = .tessEval do
    throw (.unsupportedStage program.stage)
  program.validate.mapError .program
  if config.considerCulling then throw (.unimplemented "culling")

/-- Lowers a vertex or tessellation program. -/
def lowerVertex (config : Config) (program : Program) : Except Fault Lowered :=
  match checkVertex config program with
  | .error error => .ok (.rejected program error)
  | .ok () => do
    let relays := program.stage = .vertex && config.exportPrimitiveId
    let passthrough := config.considerPassthrough && !relays
    let early := program.isStraightLine
    let layout ← if relays then
        SharedLayout.ofRequests [.primitiveIdRelay config.maxInputVertices]
      else
        pure .empty
    let record : LogRecord := ⟨.debug,
      s!"lowering {program.stage.name} without gs: passthrough {passthrough}, " ++
        s!"early export {early}, layout {← layout.text}"⟩
    let plan : VertexPlan :=
      { config, stage := program.stage, passthrough, relay := layout.primitiveIdRelay }
    let emitted ← (plan.wholeProgram early program.body).finish { program with body := [] }
    let report : LoweringReport :=
      { sharedSize := layout.size, passthrough, earlyPrimitiveExport := early }
    return .checked { emitted with sharedSize := layout.size } report [record]

end PrimitiveShader.Lowering
