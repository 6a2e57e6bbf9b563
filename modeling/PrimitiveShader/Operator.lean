import PrimitiveShader.ScalarType

/-!
# Operators

The arithmetic of a lane. Registers hold 64-bit words. Operands may be wider than the type an
operation works at; only sums, differences, products and left shifts cut their result down to it.
-/

namespace PrimitiveShader

/-- Operators with one operand. -/
inductive UnaryOp where
  /-- The number of set bits. -/
  | bitCount
  /-- The word whose lowest bits are set, as many as the operand says. -/
  | bitfieldMask
  /-- The sum of the eight bytes. -/
  | byteSum
deriving DecidableEq, Repr

/-- Operators with two operands. -/
inductive BinaryOp where
  | add
  | sub
  | mul
  | and
  | or
  | shl
  | shr
  | min
  | eq
  | ne
  | lt
  | ge
deriving DecidableEq, Repr

namespace UnaryOp

/-- The value of the operator at a register's contents. -/
def eval : UnaryOp → UInt64 → UInt64
  | bitCount, a => UInt64.ofNat (Bits.count a)
  | bitfieldMask, a => Bits.lowOnes a.toNat
  | byteSum, a => UInt64.ofNat (Bits.byteSum a)

/-- The name of the operator in program text. -/
def name : UnaryOp → String
  | bitCount => "BitCount"
  | bitfieldMask => "BitfieldMask"
  | byteSum => "ByteSum"

end UnaryOp

namespace BinaryOp

/-- The value of the operator at type `ty`. A shift by the width of the type or more gives zero. -/
def eval (op : BinaryOp) (ty : ScalarType) (a b : UInt64) : UInt64 :=
  match op with
  | add => (a + b) &&& ty.mask
  | sub => (a - b) &&& ty.mask
  | mul => (a * b) &&& ty.mask
  | and => a &&& b
  | or => a ||| b
  | shl => if b.toNat < ty.bits then (a <<< b) &&& ty.mask else 0
  | shr => if b.toNat < ty.bits then a >>> b else 0
  | min => if a ≤ b then a else b
  | eq => (a == b).toUInt64
  | ne => (a != b).toUInt64
  | lt => (decide (a < b)).toUInt64
  | ge => (decide (b ≤ a)).toUInt64

/-- The name of the operator in program text. -/
def name : BinaryOp → String
  | add => "Add"
  | sub => "Sub"
  | mul => "Mul"
  | and => "And"
  | or => "Or"
  | shl => "Shl"
  | shr => "Shr"
  | min => "UMin"
  | eq => "Eq"
  | ne => "Ne"
  | lt => "Ult"
  | ge => "Uge"

end BinaryOp

end PrimitiveShader
