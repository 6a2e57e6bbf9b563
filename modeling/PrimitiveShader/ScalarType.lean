import PrimitiveShader.Bits

/-!
# Scalar types

The type of a value says how many bits of its 64-bit register are meaningful and how many bytes it
takes in shared memory.
-/

namespace PrimitiveShader

/-- The type of a value. Instructions without a result have type `void`. -/
inductive ScalarType where
  | void
  | bool
  | u8
  | u16
  | u32
  | u64
deriving DecidableEq, Repr

namespace ScalarType

/-- Width in bits. -/
def bits : ScalarType → Nat
  | void => 0
  | bool => 1
  | u8 => 8
  | u16 => 16
  | u32 => 32
  | u64 => 64

/-- Size in shared memory, in bytes. -/
def bytes : ScalarType → Nat
  | void => 0
  | bool => 1
  | u8 => 1
  | u16 => 2
  | u32 => 4
  | u64 => 8

/-- The largest register contents of the type. -/
def mask (ty : ScalarType) : UInt64 := Bits.lowOnes ty.bits

/-- The four types that arithmetic works on. -/
def isInt : ScalarType → Bool
  | u8 | u16 | u32 | u64 => true
  | void | bool => false

/-- The name of the type in program text. -/
def name : ScalarType → String
  | void => "Void"
  | bool => "Bool"
  | u8 => "U8"
  | u16 => "U16"
  | u32 => "U32"
  | u64 => "U64"

end ScalarType

end PrimitiveShader
