/-!
# Bits of a 64-bit word

Registers and lane masks are 64-bit words. This module counts their bits, adds up their bytes and
builds the words whose lowest bits are set. A word is known by its bits (`eq_of_test`), and a lemma
per operation says which bits are set afterwards.
-/

namespace PrimitiveShader.Bits

/-- The word whose lowest `n` bits are set; all of them from 64 on. -/
def lowOnes (n : Nat) : UInt64 :=
  if n < 64 then (1 <<< UInt64.ofNat n) - 1 else UInt64.ofNat 18446744073709551615

/-- Whether bit `i` of a word is set, for `i` below 64. -/
def test (word : UInt64) (i : Nat) : Bool := (word >>> UInt64.ofNat i) &&& 1 == 1

/-- The number of set bits. -/
def count (word : UInt64) : Nat := (List.range 64).countP (test word)

/-- Byte `i` of a word, for `i` below 8. -/
def byte (word : UInt64) (i : Nat) : UInt8 := (word >>> UInt64.ofNat (8 * i)).toUInt8

/-- The sum of the eight bytes. -/
def byteSum (word : UInt64) : Nat := (List.range 8).foldr (fun i total => (byte word i).toNat + total) 0

/-! ## The bits of the operations -/

/-- A bit of a word is that bit of its number. -/
theorem test_eq_testBit (word : UInt64) {i : Nat} (h : i < 64) : test word i = word.toNat.testBit i := by
  change _ = word.toBitVec.getLsbD i
  have hi : i % 64 = i := Nat.mod_eq_of_lt h
  have hw : i % 2 ^ 64 = i := Nat.mod_eq_of_lt (by omega)
  simp only [Nat.reducePow] at hw
  rw [Bool.eq_iff_iff]
  simp only [test, beq_iff_eq, ← UInt64.toBitVec_inj, UInt64.toBitVec_and, UInt64.toBitVec_shiftRight]
  constructor
  · intro hb
    simpa [hi, hw] using congrArg (BitVec.getLsbD · 0) hb
  · intro hb
    apply BitVec.eq_of_getLsbD_eq
    intro j _
    by_cases hj : j = 0
    · subst hj
      simpa [hi, hw] using hb
    · simp [hj, hi, hw]

/-- Words with the same bits are equal. -/
theorem eq_of_test {a b : UInt64} (h : ∀ i < 64, test a i = test b i) : a = b := by
  apply UInt64.toBitVec_inj.mp
  apply BitVec.eq_of_getLsbD_eq
  intro i hi
  have hb := h i hi
  rwa [test_eq_testBit a hi, test_eq_testBit b hi] at hb

theorem test_zero (i : Nat) : test 0 i = false := by
  simp [test]

theorem test_or (a b : UInt64) {i : Nat} (h : i < 64) : test (a ||| b) i = (test a i || test b i) := by
  simp [test_eq_testBit, h]

theorem test_and (a b : UInt64) {i : Nat} (h : i < 64) : test (a &&& b) i = (test a i && test b i) := by
  simp [test_eq_testBit, h]

theorem test_not (a : UInt64) {i : Nat} (h : i < 64) : test (~~~a) i = !test a i := by
  rw [test_eq_testBit _ h, test_eq_testBit _ h]
  change (~~~a.toBitVec).getLsbD i = !a.toBitVec.getLsbD i
  simp [h]

theorem toNat_one_shiftLeft {n : Nat} (h : n < 64) : ((1 : UInt64) <<< UInt64.ofNat n).toNat = 1 <<< n := by
  have hm : n % 2 ^ 64 = n := Nat.mod_eq_of_lt (by omega)
  have hp : 2 ^ n < 2 ^ 64 := Nat.pow_lt_pow_right (by decide) h
  rw [UInt64.toNat_shiftLeft, UInt64.toNat_ofNat', hm, Nat.mod_eq_of_lt h, Nat.one_shiftLeft, Nat.shiftLeft_eq]
  simpa using hp

theorem test_one_shiftLeft {n i : Nat} (hn : n < 64) (hi : i < 64) :
    test (1 <<< UInt64.ofNat n) i = decide (n = i) := by
  rw [test_eq_testBit _ hi, toNat_one_shiftLeft hn, Nat.one_shiftLeft, Nat.testBit_two_pow]

theorem toNat_lowOnes {n : Nat} (h : n ≤ 64) : (lowOnes n).toNat = (1 <<< n) - 1 := by
  unfold lowOnes
  split
  · rename_i hn
    have hp : (1 : UInt64) ≤ 1 <<< UInt64.ofNat n := by
      rw [UInt64.le_iff_toNat_le, toNat_one_shiftLeft hn, Nat.one_shiftLeft]
      exact Nat.one_le_two_pow
    rw [UInt64.toNat_sub_of_le _ _ hp, toNat_one_shiftLeft hn]
    rfl
  · obtain rfl : n = 64 := by omega
    rfl

/-- The bits below `n` are set, and no others. -/
theorem test_lowOnes (n : Nat) {i : Nat} (h : i < 64) : test (lowOnes n) i = decide (i < n) := by
  rw [test_eq_testBit _ h]
  rcases Nat.le_total n 64 with hn | hn
  · rw [toNat_lowOnes hn, Nat.one_shiftLeft, Nat.testBit_two_pow_sub_one]
  · have hl : lowOnes n = lowOnes 64 := by
      unfold lowOnes
      rw [if_neg (by omega), if_neg (by omega)]
    rw [hl, toNat_lowOnes (Nat.le_refl 64), Nat.one_shiftLeft, Nat.testBit_two_pow_sub_one]
    simp only [h, decide_true, Nat.lt_of_lt_of_le h hn]

end PrimitiveShader.Bits
