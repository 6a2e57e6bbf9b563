import PrimitiveShader.Executor.Lane
import PrimitiveShader.Executor.LaneMask
import PrimitiveShader.Executor.Memory
import PrimitiveShader.Executor.Result

/-!
# Waves

The lanes of a wave run the same operation at the same time. Where they disagree about a branch or
about leaving a loop, some of them are switched off for a while: `exec` holds the lanes that are on,
and the frames of the open branches and loops remember who is to be switched on again.

`Wave.step` runs one operation, `Wave.run` runs operations until the wave ends or stands at a
barrier. Every operation takes one step off the wave's budget, also those that no lane takes part
in.
-/

namespace PrimitiveShader

/-- An open branch or loop. -/
inductive Frame where
  /-- A branch: the lanes that entered it, and those that take its other side. -/
  | branch (saved otherwise : LaneMask)
  /-- A loop: the lanes that entered it, and those that have left it. -/
  | loop (saved broken : LaneMask)
deriving DecidableEq, Repr

/-- The state of a wave. -/
structure Wave where
  id : Nat
  /-- The lanes that exist in the workgroup. -/
  launched : LaneMask
  /-- The lanes that are on. -/
  exec : LaneMask
  /-- The number of the next operation. -/
  pc : Nat := 0
  /-- The open branches and loops, innermost first. -/
  frames : List Frame := []
  lanes : Array Lane
deriving DecidableEq, Repr

/-- What the waves of a workgroup share. -/
structure Shared where
  memory : SharedMemory
  result : WorkgroupResult := {}
deriving DecidableEq, Repr

/-- The lanes that have left the innermost loop. -/
def Frame.broken : List Frame → LaneMask
  | [] => .empty
  | .loop _ broken :: _ => broken
  | .branch _ _ :: rest => broken rest

/-- Lets `lanes` leave the innermost loop, if there is one. -/
def Frame.leave (lanes : LaneMask) : List Frame → Option (List Frame)
  | [] => none
  | .loop saved broken :: rest => some (.loop saved (broken.union lanes) :: rest)
  | .branch saved otherwise :: rest => (leave lanes rest).map (.branch saved otherwise :: ·)

/-- The contents of a register of one lane. -/
@[inline] def readRegister (lanes : Array Lane) (lane : Nat) (value : Value) : Except Fault UInt64 :=
  match lanes[lane]? with
  | some state => state.read value
  | none => .error .outOfRange

/-- Sets a register of one lane. -/
@[inline] def writeRegister (lanes : Array Lane) (lane : Nat) (value : Value) (a : UInt64) : Array Lane :=
  lanes.modify lane fun state => state.write value a

/-- Does something with the memory. -/
@[inline] def Shared.onMemory {α : Type} (step : Exec SharedMemory α) : Exec Shared α := fun shared =>
  match step shared.memory with
  | .done a memory => .done a { shared with memory }
  | .failed error memory => .failed error { shared with memory }
  | .faulted fault => .faulted fault

/-- Changes the result. -/
@[inline] def Shared.onResult (f : WorkgroupResult → WorkgroupResult) : Exec Shared Unit :=
  Exec.update fun shared => { shared with result := f shared.result }

namespace Wave

/-- A wave before its first operation. -/
def start (group : Workgroup) (id : Nat) : Wave :=
  let size := group.wave.size
  let launched := LaneMask.first (min (group.launch.numLanes - id * size) size)
  { id, launched, exec := launched, lanes := Array.replicate size (Lane.start group.program) }

/-- The number of one of the wave's lanes. -/
def laneId (group : Workgroup) (id lane : Nat) : LaneId := ⟨id, lane, id * group.wave.size + lane⟩

/-- The lanes that are on and where `value` is not zero. -/
def maskOf (wave : Wave) (value : Value) : Except Fault LaneMask :=
  wave.exec.lanes.foldlM (fun mask lane => do
    let a ← readRegister wave.lanes lane value
    return if a = 0 then mask else mask.insert lane) LaneMask.empty

/-- The sum of `value` over the lanes that are on. -/
def sumOf (wave : Wave) (value : Value) : Except Fault UInt64 :=
  wave.exec.lanes.foldlM (fun sum lane => do
    return sum + (← readRegister wave.lanes lane value)) 0

/-- Changes the state of every lane that is on, in ascending order. -/
@[inline] def updateLanes (wave : Wave) (f : Nat → Lane → Except Fault Lane) : Except Fault Wave :=
  match wave with
  | ⟨id, launched, exec, pc, frames, lanes⟩ => do
    let lanes ← exec.lanes.foldlM (fun lanes lane => lanes.modifyM lane (f lane)) lanes
    return ⟨id, launched, exec, pc, frames, lanes⟩

/-- Gives every lane that is on a result of its own. -/
@[inline] def assign (wave : Wave) (value : Value) (f : Nat → UInt64) : Except Fault Wave :=
  wave.updateLanes fun lane state => .ok (state.write value (f lane))

/-- Reads `source` from the lane that `index` names, on every lane that is on. The lanes are served
in ascending order, so a lane that is read after it was served shows its new contents. A number that
names no lane gives zero. -/
def readLanes (value source index : Value) (wave : Wave) : Except Fault Wave :=
  match wave with
  | ⟨id, launched, exec, pc, frames, lanes⟩ => do
    let lanes ← exec.lanes.foldlM (fun lanes lane => do
      let from_ ← readRegister lanes lane index
      let data ← if from_.toNat < lanes.size then readRegister lanes from_.toNat source else .ok 0
      return writeRegister lanes lane value data) lanes
    return ⟨id, launched, exec, pc, frames, lanes⟩

/-- Runs a cross-lane operation. -/
def crossLane (group : Workgroup) (value : Value) (op : CrossLaneOp) (wave : Wave) :
    Except Fault Wave :=
  match op with
  | .ballot predicate _ => do
    let mask ← wave.maskOf predicate
    wave.assign value fun _ => mask.bits
  | .maskedBitCount mask =>
    wave.updateLanes fun lane state => do
      let bits ← state.read mask
      let count := Bits.count (bits &&& Bits.lowOnes lane)
      return state.write value (UInt64.ofNat count)
  | .readLane source index => wave.readLanes value source index
  | .readFirstLane source => do
    let data ← readRegister wave.lanes (wave.exec.lowest?.getD 64) source
    wave.assign value fun _ => data
  | .elect =>
    let first := wave.exec.lowest?
    wave.assign value fun lane => (first == some lane).toUInt64
  | .reduceAdd source => do
    let type ← group.program.typeOf source
    let sum ← wave.sumOf source
    wave.assign value fun _ => sum &&& type.mask

/-- The address of an access: the sum of its base and a register. -/
@[inline] def address (base : UInt32) (offset : UInt64) : Except Fault Nat :=
  if base.toNat + offset.toNat < 18446744073709551616 then .ok (base.toNat + offset.toNat) else .error .overflow

/-- Loads from shared memory on every lane that is on. -/
def loadShared (group : Workgroup) (value addr : Value) (base : UInt32) (type : ScalarType)
    (wave : Wave) : Exec Shared Wave :=
  match wave with
  | ⟨id, launched, exec, pc, frames, lanes⟩ => do
    let lanes ← exec.lanes.foldlM (fun lanes lane => do
      let at_ ← address base (← readRegister lanes lane addr)
      let data ← Shared.onMemory
        (SharedMemory.load id (laneId group id lane).index at_ type.bytes group.program.sharedSize)
      Shared.onResult fun result => { result with sharedLoads := result.sharedLoads + 1 }
      return writeRegister lanes lane value data) lanes
    return ⟨id, launched, exec, pc, frames, lanes⟩

/-- Stores to shared memory on every lane that is on. -/
def storeShared (group : Workgroup) (data addr : Value) (base : UInt32) (wave : Wave) :
    Exec Shared Unit := do
  let len := (← group.program.typeOf data).bytes
  wave.exec.lanes.forM fun lane => do
    let at_ ← address base (← readRegister wave.lanes lane addr)
    let a ← readRegister wave.lanes lane data
    Shared.onMemory
      (SharedMemory.store wave.id (laneId group wave.id lane).index at_ len a
        group.program.sharedSize)
    Shared.onResult fun result => { result with sharedStores := result.sharedStores + 1 }

/-- Adds to a query counter on every lane that is on. -/
def queryAdd (stream : UInt8) (count : Value) (wave : Wave) : Exec Shared Unit :=
  wave.exec.lanes.forM fun lane => do
    if h : stream.toNat < 4 then
      let a ← readRegister wave.lanes lane count
      Shared.onResult fun result =>
        { result with queryCounters :=
            result.queryCounters.set stream.toNat (result.queryCounters[stream.toNat] + a) h }
    else
      Exec.fault .outOfRange

/-- Asks for the space of the exports. Only one lane of the first wave may do so. -/
def allocate (vertices primitives : Value) (wave : Wave) : Exec Shared Unit :=
  wave.exec.lanes.forM fun lane => do
    unless wave.id = 0 do Exec.fail (.allocation .outsideFirstWave)
    if (← Exec.get).result.allocation.isSome then Exec.fail (.allocation .repeated)
    let v ← readRegister wave.lanes lane vertices
    let p ← readRegister wave.lanes lane primitives
    let space : Allocation := ⟨v.toUInt32.toNat, p.toUInt32.toNat⟩
    Shared.onResult fun result => { result with allocation := some space }

/-- Exports a primitive from every lane that is on. -/
def exportPrimitives (group : Workgroup) (word : Value) (wave : Wave) : Exec Shared Unit :=
  wave.exec.lanes.forM fun lane => do
    let a ← readRegister wave.lanes lane word
    Shared.onResult fun result =>
      { result with
        primitives := result.primitives.push ((laneId group wave.id lane).index, ⟨a.toUInt32⟩) }

/-- Exports a vertex from every lane that is on. -/
def exportVertices (group : Workgroup) (wave : Wave) : Exec Shared Unit :=
  wave.exec.lanes.forM fun lane =>
    let outputs := (wave.lanes[lane]?.map (·.outputs)).getD []
    Shared.onResult fun result =>
      { result with
        vertices := result.vertices.push ((laneId group wave.id lane).index, outputs) }

/-- Runs an instruction other than a barrier on the lanes that are on. -/
def execute (group : Workgroup) (value : Value) (instr : Instr) (wave : Wave) :
    Exec Shared Wave :=
  match instr with
  | .intrinsic (.crossLane op) => Exec.lift (wave.crossLane group value op)
  | .intrinsic (.loadShared addr base type) => wave.loadShared group value addr base type
  | .intrinsic (.storeShared data addr base) => do
    wave.storeShared group data addr base
    return wave
  | .intrinsic .barrier => Exec.fault .controlStack
  | .intrinsic (.queryAdd stream count) => do
    wave.queryAdd stream count
    return wave
  | .intrinsic (.allocate vertices primitives) => do
    wave.allocate vertices primitives
    return wave
  | .intrinsic (.exportPrimitive word) => do
    wave.exportPrimitives group word
    return wave
  | .intrinsic .exportVertex => do
    wave.exportVertices group
    return wave
  | .intrinsic (.geometry op) => Exec.fail (.unlowered (.geometry op))
  | _ =>
    let id := wave.id
    Exec.lift (wave.updateLanes fun lane => Lane.execute group (laneId group id lane) value instr)

end Wave

end PrimitiveShader
