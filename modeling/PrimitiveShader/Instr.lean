import PrimitiveShader.Operator
import PrimitiveShader.OutputSlot

/-!
# Instructions

An instruction computes one value from the values of earlier instructions. Beside arithmetic and
variables there are the intrinsics: the inputs of a lane, operations across the lanes of a wave,
shared memory, the export of vertices and primitives, and the entry points of geometry programs,
which a lowering has to remove.
-/

namespace PrimitiveShader

/-- A value, named by the number of the instruction that computes it. -/
structure Value where
  index : Nat
deriving DecidableEq, Repr

/-- A variable, named by its number in order of declaration. -/
structure Var where
  index : Nat
deriving DecidableEq, Repr

/-- What a lane knows about itself and its workgroup. -/
inductive LaneInput where
  | subgroupId
  | numSubgroups
  | subgroupInvocation
  | localInvocationIndex
  | hasInputVertex
  | hasInputPrimitive
  | numInputVertices
  | numInputPrimitives
  /-- Two vertex indices of the lane's input primitive, 16 bits each, from vertex `base` on. -/
  | vertexPair (base : UInt8)
  /-- The lane's input primitive as an export word. -/
  | packedPrimitive
  | edgeFlag (vertex : UInt8)
  | primitiveId
  | queryEnabled
deriving DecidableEq, Repr

/-- Operations across the active lanes of a wave. -/
inductive CrossLaneOp where
  /-- One bit for each active lane where the value is true. -/
  | ballot (value : Value) (type : ScalarType)
  /-- The number of bits of a mask that belong to lanes below this one. -/
  | maskedBitCount (mask : Value)
  /-- The value of another lane. -/
  | readLane (value lane : Value)
  /-- The value of the first active lane. -/
  | readFirstLane (value : Value)
  /-- True on the first active lane only. -/
  | elect
  /-- The sum over all active lanes. -/
  | reduceAdd (value : Value)
deriving DecidableEq, Repr

/-- Entry points of geometry programs. -/
inductive GeometryOp where
  /-- Ends a vertex, the `vertexCount`-th of its invocation on this stream and with `before`
  vertices ahead of it in its strip. -/
  | emitVertex (stream : UInt8) (vertexCount before : Value)
  /-- Ends a strip. -/
  | endPrimitive (stream : UInt8)
  /-- States how much the invocation has emitted. -/
  | setCounts (stream : UInt8) (vertexCount primitiveCount : Value)
deriving DecidableEq, Repr

/-- Instructions that reach beyond the arithmetic of a lane. -/
inductive Intrinsic where
  | input (input : LaneInput)
  | crossLane (op : CrossLaneOp)
  /-- Reads shared memory at `base` plus the value of `addr`. -/
  | loadShared (addr : Value) (base : UInt32) (type : ScalarType)
  | storeShared (value addr : Value) (base : UInt32)
  /-- Waits for all waves of the workgroup. -/
  | barrier
  /-- Adds to the query counter of a stream. -/
  | queryAdd (stream : UInt8) (value : Value)
  /-- Asks for the space of the exports. -/
  | allocate (vertices primitives : Value)
  | exportPrimitive (word : Value)
  | exportVertex
  | storeOutput (slot : OutputSlot) (value : Value)
  | geometry (op : GeometryOp)
deriving DecidableEq, Repr

/-- An instruction. -/
inductive Instr where
  | const (type : ScalarType) (value : UInt64)
  | undef (type : ScalarType)
  | unary (op : UnaryOp) (a : Value)
  | binary (op : BinaryOp) (a b : Value)
  | select (cond a b : Value)
  | convert (a : Value) (type : ScalarType)
  /-- The `bits` bits of a value from bit `offset` on. -/
  | extract (a : Value) (offset bits : UInt8)
  | loadVar (var : Var)
  | storeVar (var : Var) (a : Value)
  | intrinsic (op : Intrinsic)
deriving DecidableEq, Repr

/-- The values that a cross-lane operation reads. -/
def CrossLaneOp.operands : CrossLaneOp → List Value
  | ballot value _ => [value]
  | maskedBitCount mask => [mask]
  | readLane value lane => [value, lane]
  | readFirstLane value => [value]
  | elect => []
  | reduceAdd value => [value]

/-- The values that an entry point reads. -/
def GeometryOp.operands : GeometryOp → List Value
  | emitVertex _ vertexCount before => [vertexCount, before]
  | endPrimitive _ => []
  | setCounts _ vertexCount primitiveCount => [vertexCount, primitiveCount]

namespace Intrinsic

/-- The values that an intrinsic reads. -/
def operands : Intrinsic → List Value
  | input _ => []
  | crossLane op => op.operands
  | loadShared addr _ _ => [addr]
  | storeShared value addr _ => [value, addr]
  | barrier => []
  | queryAdd _ value => [value]
  | allocate vertices primitives => [vertices, primitives]
  | exportPrimitive word => [word]
  | exportVertex => []
  | storeOutput _ value => [value]
  | geometry op => op.operands

/-- Whether the intrinsic exists before lowering only. -/
def isEntryPoint : Intrinsic → Bool
  | geometry _ => true
  | _ => false

end Intrinsic

namespace Instr

/-- The values that an instruction reads, in the order of its operands. -/
def operands : Instr → List Value
  | const _ _ => []
  | undef _ => []
  | unary _ a => [a]
  | binary _ a b => [a, b]
  | select cond a b => [cond, a, b]
  | convert a _ => [a]
  | extract a _ _ => [a]
  | loadVar _ => []
  | storeVar _ a => [a]
  | intrinsic op => op.operands

/-- The value of a constant. -/
def constant? : Instr → Option UInt64
  | const _ value => some value
  | _ => none

/-- Whether the instruction exists before lowering only. -/
def isEntryPoint : Instr → Bool
  | intrinsic op => op.isEntryPoint
  | _ => false

end Instr

end PrimitiveShader
