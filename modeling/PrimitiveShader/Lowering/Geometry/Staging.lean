import PrimitiveShader.Lowering.Geometry.Survey
import PrimitiveShader.SharedLayout.Access
import PrimitiveShader.Strip
import PrimitiveShader.Subgroup

/-!
# Staging the vertices of a geometry program

Each invocation owns as many places in shared memory as it may emit vertices. Stored outputs are kept
in variables until the vertex is emitted; then they go to the vertex's place, together with its flag
byte. When an invocation states its vertex count, the flags of the places it has not used are
cleared, so that nothing left behind by an earlier workgroup looks like a vertex.
-/

namespace PrimitiveShader.Lowering

/-- An output component of the staged vertices. -/
structure Attribute where
  slot : OutputSlot
  type : ScalarType
  /-- The place of the component within a vertex, in bytes. -/
  offset : Nat
  /-- Where the component is kept until the vertex is emitted. -/
  var : Var
deriving DecidableEq, Repr

/-- What is fixed before any code is emitted. -/
structure GeometryPlan where
  config : Config
  layout : SharedLayout
  attributes : List Attribute
  /-- The bytes of a staged vertex. -/
  stride : Nat

/-- Places the components of a vertex one after the other from byte `size` on, each at a multiple of
its own size, and declares their variables. Gives back the bytes of a vertex as well. -/
def declareAttributes : SlotTable ScalarType → (size : Nat) → Emit (List Attribute × Nat)
  | [], size => return ([], size)
  | (slot, type) :: rest, size => do
    let offset ← fits32 (alignUp size type.bytes)
    let size ← fits32 (offset + type.bytes)
    let var ← Emit.createVar "gs_output" type
    let (attributes, size) ← declareAttributes rest size
    return (⟨slot, type, offset, var⟩ :: attributes, size)

namespace GeometryPlan

variable (plan : GeometryPlan)

/-- The declared maximum of vertices, as a word. -/
def maxVertices : UInt64 := UInt64.ofNat plan.config.geometry.maxVerticesOut

/-- The components of one stream. -/
def streamAttributes (stream : UInt8) : List Attribute :=
  plan.attributes.filter (·.slot.stream = stream)

/-- The flag bytes of a stream. -/
def flagsRegion (stream : UInt8) : Except Fault Region :=
  match plan.layout.primitiveFlags[stream.toNat]? with
  | some (some region) => .ok region
  | _ => .error .missingRegion

/-- Emits the place of this lane's vertex number `index`. -/
def vertexPlace (index : Value) : Emit Value := do
  let lane ← Emit.input .localInvocationIndex
  let start ← Emit.binaryImm .mul lane plan.maxVertices
  Emit.binary .add start index

/-- Emits the flags of a vertex with `before` vertices ahead of it in its strip. -/
def vertexFlags (before : Value) : Emit Value := do
  let count := plan.config.topology.vertexCount
  let completes ← Emit.binaryImm .ge before (UInt64.ofNat (count - 1))
  let completes ← Emit.convert completes .u32
  let live ← Emit.imm32 PrimitiveFlags.liveBit.toNat
  let flags ← Emit.binary .or live completes
  let flags ← if count = 3 then do
      let odd ← Emit.binaryImm .and before 1
      let odd ← Emit.shlImm odd 1
      Emit.binary .or flags odd
    else
      pure flags
  Emit.convert flags .u8

/-- Emits the stores of the components of a vertex. -/
def storeComponents (stream : UInt8) (place : Value) : Emit Unit :=
  match plan.layout.vertexAttributes with
  | some region =>
    (plan.streamAttributes stream).forM fun component => do
      let value ← Emit.loadVar component.var
      region.store value place plan.stride component.offset
  | none => pure ()

/-- Emits what forgets the components of a vertex. -/
def resetComponents (stream : UInt8) : Emit Unit :=
  (plan.streamAttributes stream).forM fun component => do
    let undef ← Emit.undef component.type
    Emit.storeVar component.var undef

/-- Emits the stores of a vertex below the declared maximum. -/
def storeVertex (stream : UInt8) (vertexCount before : Value) : Emit Unit := do
  let place ← plan.vertexPlace vertexCount
  plan.storeComponents stream place
  let flags ← plan.vertexFlags before
  (← plan.flagsRegion stream).store flags place 1 0

/-- Emits what becomes of an emitted vertex. A vertex beyond the declared maximum is dropped. -/
def stageVertex (stream : UInt8) (vertexCount before : Value) : Emit Unit := do
  let inRange ← Emit.binaryImm .lt vertexCount plan.maxVertices
  Emit.ifThen inRange (plan.storeVertex stream vertexCount before)
  plan.resetComponents stream

/-- Emits one round of the loop that clears flags. -/
def clearRound (region : Region) (index : Var) : Emit Unit := do
  let i ← Emit.loadVar index
  let done ← Emit.binaryImm .ge i plan.maxVertices
  Emit.ifThen done Emit.leave
  let place ← plan.vertexPlace i
  let zero ← Emit.imm .u8 0
  region.store zero place 1 0
  let next ← Emit.binaryImm .add i 1
  Emit.storeVar index next

/-- Emits a loop that clears the flags of this lane's vertices from number `first` on. -/
def clearFlags (stream : UInt8) (first : Value) : Emit Unit := do
  let region ← plan.flagsRegion stream
  let index ← Emit.createVar "clear_index" .u32
  Emit.storeVar index first
  Emit.loop (plan.clearRound region index)

/-- Emits the sum of the primitive counts of the active lanes. A constant count is multiplied by the
number of lanes. -/
def primitiveSum (primitiveCount : Value) : Emit Value := do
  let wave := plan.config.wave
  match ← Emit.constant? primitiveCount with
  | some count =>
    let active ← Emit.immBool true
    let ballot ← wave.ballot active
    let lanes ← wave.popCount ballot
    Emit.binaryImm .mul lanes count
  | none => wave.reduceAdd primitiveCount

/-- Emits the update of a stream's query counter, once per wave. -/
def countPrimitives (stream : UInt8) (primitiveCount : Value) : Emit Unit := do
  let enabled ← Emit.input .queryEnabled
  Emit.ifThen enabled do
    let sum ← plan.primitiveSum primitiveCount
    let elected ← plan.config.wave.elect
    Emit.ifThen elected (Emit.effect (.queryAdd stream sum))

/-- Emits what becomes of a statement of counts. -/
def stateCounts (stream : UInt8) (vertexCount primitiveCount : Value) : Emit Unit := do
  unless (← Emit.constant? vertexCount) = some plan.maxVertices do
    plan.clearFlags stream vertexCount
  plan.countPrimitives stream primitiveCount

/-- Emits what becomes of a stored output. Outputs of streams that are not active are dropped. -/
def keepOutput (slot : OutputSlot) (value : Value) : Emit Unit :=
  match plan.attributes.find? (·.slot = slot) with
  | some component => do
    let value ← Emit.convert value component.type
    Emit.storeVar component.var value
  | none => pure ()

/-- Emits what becomes of a placed instruction. -/
def stageInstr (value : Value) : Emit Unit := do
  let limits := plan.config.geometry
  match ← (← Emit.get).instr value with
  | .intrinsic (.storeOutput slot data) => plan.keepOutput slot data
  | .intrinsic (.geometry (.emitVertex stream vertexCount before)) =>
    if limits.usesStream stream then plan.stageVertex stream vertexCount before
  | .intrinsic (.geometry (.endPrimitive _)) => pure ()
  | .intrinsic (.geometry (.setCounts stream vertexCount primitiveCount)) =>
    if limits.usesStream stream then plan.stateCounts stream vertexCount primitiveCount
  | _ => Emit.place [.instr value]

mutual

/-- Emits what becomes of a node. -/
def stageNode : Node → Emit Unit
  | .instr value => plan.stageInstr value
  | .branch cond thenBlock elseBlock =>
    Emit.ifThenElse cond (stageBlock thenBlock) (stageBlock elseBlock)
  | .loop body => Emit.loop (stageBlock body)
  | .leave => Emit.leave

/-- Emits what becomes of a block. -/
def stageBlock : List Node → Emit Unit
  | [] => pure ()
  | node :: rest => do
    stageNode node
    stageBlock rest

end

end GeometryPlan

end PrimitiveShader.Lowering
