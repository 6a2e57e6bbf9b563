import PrimitiveShader.Executor.Executable
import PrimitiveShader.Executor.Launch
import PrimitiveShader.ExportWord

/-!
# Lanes

A lane has a register for every value of its program, the contents of its variables and the outputs
it has stored so far. This module runs the instructions that concern one lane only. Registers hold
64-bit words, start at zero and keep their contents until they are written again.
-/

namespace PrimitiveShader

/-- What all lanes of a workgroup have in common. -/
structure Workgroup where
  executable : Executable
  launch : Launch
  wave : WaveWidth

/-- The number of a lane. -/
structure LaneId where
  /-- The number of its wave. -/
  wave : Nat
  /-- Its place in the wave. -/
  lane : Nat
  /-- Its place in the workgroup. -/
  index : Nat
deriving DecidableEq, Repr

/-- The state of a lane. -/
structure Lane where
  registers : Array UInt64
  vars : Array UInt64
  outputs : SlotTable UInt64 := []
deriving DecidableEq, Repr

namespace Workgroup

/-- The program of the workgroup. -/
def program (group : Workgroup) : Program := group.executable.program

/-- The number of waves. -/
def numWaves (group : Workgroup) : Nat := group.launch.numWaves group.wave

end Workgroup

/-- The value of an input on a lane. -/
def LaneInput.eval (group : Workgroup) (id : LaneId) (input : LaneInput) : Except Fault UInt64 :=
  let launch := group.launch
  match input with
  | subgroupId => .ok (UInt64.ofNat id.wave)
  | numSubgroups => .ok (UInt64.ofNat group.numWaves)
  | subgroupInvocation => .ok (UInt64.ofNat id.lane)
  | localInvocationIndex => .ok (UInt64.ofNat id.index)
  | hasInputVertex => .ok (decide (id.index < launch.inputVertices)).toUInt64
  | hasInputPrimitive => .ok (launch.primitive? id.index).isSome.toUInt64
  | numInputVertices => .ok (UInt64.ofNat launch.inputVertices)
  | numInputPrimitives => .ok (UInt64.ofNat launch.primitives.size)
  | vertexPair base =>
    match launch.primitive? id.index with
    | some p =>
      let low := p.vertices[base.toNat]?.getD 0
      let high := p.vertices[base.toNat + 1]?.getD 0
      .ok (low ||| (high <<< 16)).toUInt64
    | none => .ok 0
  | packedPrimitive =>
    match launch.primitive? id.index with
    | some p => do
      let indices := p.vertices.toList.take launch.topology.vertexCount
      let word ← ExportWord.pack indices none false
      return word.bits.toUInt64
    | none => .ok 0
  | edgeFlag vertex =>
    match launch.primitive? id.index with
    | some p => .ok (p.edgeFlags[vertex.toNat]?.getD false).toUInt64
    | none => .ok 0
  | primitiveId =>
    match group.program.stage, launch.primitive? id.index with
    | .tessEval, _ => .ok (launch.patchIds[id.index]?.getD 0).toUInt64
    | _, some p => .ok p.id.toUInt64
    | _, none => .ok 0
  | queryEnabled => .ok launch.queryEnabled.toUInt64

/-- A register's contents cut down to a type; a boolean asks whether anything is there. -/
def ScalarType.convert (type : ScalarType) (a : UInt64) : UInt64 :=
  match type with
  | .bool => (a != 0).toUInt64
  | _ => a &&& type.mask

namespace Lane

/-- A lane before the first instruction. -/
def start (program : Program) : Lane where
  registers := Array.replicate program.definitions.size 0
  vars := Array.replicate program.vars.size 0

/-- The contents of a register. -/
@[inline] def read (lane : Lane) (value : Value) : Except Fault UInt64 :=
  match lane.registers[value.index]? with
  | some a => .ok a
  | none => .error .outOfRange

/-- Sets a register. -/
@[inline] def write (lane : Lane) (value : Value) (a : UInt64) : Lane :=
  { lane with registers := lane.registers.setIfInBounds value.index a }

/-- The contents of a variable. -/
@[inline] def readVar (lane : Lane) (var : Var) : Except Fault UInt64 :=
  match lane.vars[var.index]? with
  | some a => .ok a
  | none => .error .unknownVariable

/-- Sets a variable. -/
def writeVar (lane : Lane) (var : Var) (a : UInt64) : Except Fault Lane :=
  if var.index < lane.vars.size then
    .ok { lane with vars := lane.vars.setIfInBounds var.index a }
  else
    .error .unknownVariable

/-- The result of an instruction that computes a value from the lane alone. Only the operand that a
selection chooses is read. -/
def compute (group : Workgroup) (id : LaneId) (lane : Lane) (instr : Instr) :
    Except Fault UInt64 :=
  match instr with
  | .const _ a => .ok a
  | .undef _ => .ok 0
  | .unary op a => do return op.eval (← lane.read a)
  | .binary op a b => do
    let type ← group.program.typeOf a
    return op.eval type (← lane.read a) (← lane.read b)
  | .select cond a b => do
    if (← lane.read cond) = 0 then lane.read b else lane.read a
  | .convert a type => do return type.convert (← lane.read a)
  | .extract a offset bits => do
    let word ← lane.read a
    if offset.toNat < 64 then
      return (word >>> offset.toUInt64) &&& Bits.lowOnes bits.toNat
    else
      throw .shiftTooWide
  | .loadVar var => lane.readVar var
  | .intrinsic (.input input) => input.eval group id
  | _ => .error .outOfRange

/-- Runs an instruction that concerns one lane only; `value` is its result. -/
def execute (group : Workgroup) (id : LaneId) (value : Value) (instr : Instr) (lane : Lane) :
    Except Fault Lane :=
  match instr with
  | .storeVar var a => do lane.writeVar var (← lane.read a)
  | .intrinsic (.storeOutput slot a) => do
    let data ← lane.read a
    return { lane with outputs := lane.outputs.insert slot data }
  | _ => do
    let data ← lane.compute group id instr
    return lane.write value data

end Lane

end PrimitiveShader
