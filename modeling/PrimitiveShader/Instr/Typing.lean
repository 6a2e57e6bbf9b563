import PrimitiveShader.Instr

/-!
# The type of an instruction

`Instr.resultType?` gives the type of an instruction's result from the types of the values and
variables it names. It is `none` where a name has no type or the types do not fit. Instructions
without a result have type `void`.
-/

namespace PrimitiveShader

open ScalarType

/-- Succeeds with `result` when the condition holds. -/
def typeWhen (condition : Bool) (result : ScalarType) : Option ScalarType :=
  if condition then some result else none

/-- The result type of a unary operator. -/
def UnaryOp.resultType? (op : UnaryOp) (a : ScalarType) : Option ScalarType :=
  typeWhen a.isInt <|
    match op with
    | bitCount => u32
    | bitfieldMask => u64
    | byteSum => u32

/-- The result type of a binary operator. Shifts take a right operand of any width. -/
def BinaryOp.resultType? (op : BinaryOp) (a b : ScalarType) : Option ScalarType :=
  match op with
  | shl | shr => typeWhen (a.isInt && b.isInt) a
  | eq | ne | lt | ge => typeWhen (a == b && (a.isInt || a == bool)) bool
  | and | or => typeWhen (a == b && (a.isInt || a == bool)) a
  | add | sub | mul | min => typeWhen (a == b && a.isInt) a

/-- The type of a lane's input. -/
def LaneInput.type : LaneInput → ScalarType
  | hasInputVertex | hasInputPrimitive | queryEnabled => bool
  | _ => u32

section

variable (typeOf : Value → Option ScalarType)

/-- The result type of a cross-lane operation. -/
def CrossLaneOp.resultType? : CrossLaneOp → Option ScalarType
  | ballot value type => do
    typeWhen ((← typeOf value) == .bool && (type == u32 || type == u64)) type
  | maskedBitCount mask => do
    let m ← typeOf mask
    typeWhen (m == u32 || m == u64) u32
  | readLane value lane => do
    let v ← typeOf value
    let l ← typeOf lane
    typeWhen (v != void && l == u32) v
  | readFirstLane value => do
    let v ← typeOf value
    typeWhen (v != void) v
  | elect => some .bool
  | reduceAdd value => do
    let v ← typeOf value
    typeWhen v.isInt v

/-- The type of an instruction that takes two 32-bit numbers and has no result. -/
def pairType? (a b : Value) : Option ScalarType := do
  let l ← typeOf a
  let r ← typeOf b
  typeWhen (l == u32 && r == u32) void

/-- The result type of an intrinsic. -/
def Intrinsic.resultType? : Intrinsic → Option ScalarType
  | input i => some i.type
  | crossLane op => op.resultType? typeOf
  | loadShared addr _ type => do
    typeWhen ((← typeOf addr) == u32 && type.isInt) type
  | storeShared value addr _ => do
    let v ← typeOf value
    let a ← typeOf addr
    typeWhen (v.isInt && a == u32) void
  | barrier => some void
  | queryAdd _ value => do
    typeWhen ((← typeOf value) == u32) void
  | allocate vertices primitives => pairType? typeOf vertices primitives
  | exportPrimitive word => do
    typeWhen ((← typeOf word) == u32) void
  | exportVertex => some void
  | storeOutput _ value => do
    let v ← typeOf value
    typeWhen v.isInt void
  | geometry (.emitVertex _ vertexCount before) => pairType? typeOf vertexCount before
  | geometry (.endPrimitive _) => some void
  | geometry (.setCounts _ vertexCount primitiveCount) =>
    pairType? typeOf vertexCount primitiveCount

/-- The result type of an instruction. -/
def Instr.resultType? (varType : Var → Option ScalarType) : Instr → Option ScalarType
  | const type _ => some type
  | undef type => some type
  | unary op a => do op.resultType? (← typeOf a)
  | binary op a b => do
    let l ← typeOf a
    let r ← typeOf b
    op.resultType? l r
  | select cond a b => do
    let c ← typeOf cond
    let l ← typeOf a
    let r ← typeOf b
    typeWhen (c == .bool && l == r && l != void) l
  | convert a type => do
    typeWhen ((← typeOf a) != void && type != void) type
  | extract a offset bits => do
    let t ← typeOf a
    typeWhen (t.isInt && decide (offset.toNat + bits.toNat ≤ t.bits)) t
  | loadVar var => varType var
  | storeVar var a => do
    let v ← varType var
    let t ← typeOf a
    typeWhen (v == t) void
  | intrinsic op => op.resultType? typeOf

end

end PrimitiveShader
