import Mathlib.Algebra.Ring.Nat
import PrimitiveShader.Operator

/-!
# Arithmetic on small numbers

Registers are 64-bit words, but most of what lowered programs compute with are numbers far below
`2 ^ 32`. On them the operators do what their names say.
-/

namespace PrimitiveShader

namespace ScalarType

/-- Cutting a register down to a type takes the remainder. -/
theorem toNat_and_mask (ty : ScalarType) (a : UInt64) : (a &&& ty.mask).toNat = a.toNat % 2 ^ ty.bits := by
  have hbits : ty.bits ≤ 64 := by cases ty <;> decide
  rw [UInt64.toNat_and, mask, Bits.toNat_lowOnes hbits, Nat.one_shiftLeft, Nat.and_two_pow_sub_one_eq_mod]

/-- A register that fits a type is not cut. -/
theorem and_mask_eq {ty : ScalarType} {a : UInt64} (h : a.toNat < 2 ^ ty.bits) : a &&& ty.mask = a := by
  rw [← UInt64.toNat_inj, toNat_and_mask, Nat.mod_eq_of_lt h]

theorem and_mask_lt (ty : ScalarType) (a : UInt64) : (a &&& ty.mask).toNat < 2 ^ ty.bits := by
  rw [toNat_and_mask]
  exact Nat.mod_lt _ (Nat.two_pow_pos _)

end ScalarType

variable {n : Nat}

section

variable (h : n < 2 ^ 32)
include h

theorem toNat_ofNat_of_lt : (UInt64.ofNat n).toNat = n := by
  rw [UInt64.toNat_ofNat']
  exact Nat.mod_eq_of_lt (Nat.lt_trans h (by decide))

/-- A small number as an operand of type `u32`. -/
theorem ofNat_and_mask : UInt64.ofNat n &&& ScalarType.u32.mask = UInt64.ofNat n :=
  ScalarType.and_mask_eq (by rw [toNat_ofNat_of_lt h]; exact h)

theorem ofNat_eq_zero_iff : UInt64.ofNat n = 0 ↔ n = 0 := by
  rw [← UInt64.toNat_inj, toNat_ofNat_of_lt h]
  rfl

theorem toNat_toUInt32_ofNat : (UInt64.ofNat n).toUInt32.toNat = n := by
  rw [UInt64.toNat_toUInt32, UInt64.toNat_ofNat']
  omega

theorem ofNat_toUInt64 : UInt64.ofNat n = (UInt32.ofNat n).toUInt64 := by
  rw [← UInt64.toNat_inj, toNat_ofNat_of_lt h, UInt32.toNat_toUInt64, UInt32.toNat_ofNat', Nat.mod_eq_of_lt h]

end

theorem toUInt64_eq_zero_iff {b : Bool} : b.toUInt64 = 0 ↔ b = false := by
  cases b <;> decide

namespace BinaryOp

variable {m : Nat}

theorem eval_add_ofNat (h : m + n < 2 ^ 32) :
    add.eval .u32 (UInt64.ofNat m) (UInt64.ofNat n) = UInt64.ofNat (m + n) := by
  rw [eval, ← UInt64.ofNat_add, ofNat_and_mask h]

theorem eval_mul_ofNat (h : m * n < 2 ^ 32) :
    mul.eval .u32 (UInt64.ofNat m) (UInt64.ofNat n) = UInt64.ofNat (m * n) := by
  rw [eval, ← UInt64.ofNat_mul, ofNat_and_mask h]

theorem eval_lt_ofNat (hm : m < 2 ^ 32) (hn : n < 2 ^ 32) (ty : ScalarType) :
    lt.eval ty (UInt64.ofNat m) (UInt64.ofNat n) = (decide (m < n)).toUInt64 := by
  rw [eval]
  congr 2
  rw [UInt64.lt_iff_toNat_lt, toNat_ofNat_of_lt hm, toNat_ofNat_of_lt hn]

end BinaryOp

end PrimitiveShader
