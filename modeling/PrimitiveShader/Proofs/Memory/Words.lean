import PrimitiveShader.Proofs.Memory.Ownership

/-!
# Words made of bytes

A word is known by its bytes (`Bits.eq_of_byte_eq`). The bytes of a word that is read are those in memory, so
what has been written is read again (`littleEndian_overwrite`).
-/

namespace PrimitiveShader

namespace Bits

variable {j b i n : Nat}

/-- A bit of a byte is a bit of the word. -/
theorem getLsbD_byte (word : UInt64) (hj : j < 8) (hb : b < 8) :
    (byte word j).toBitVec.getLsbD b = test word (8 * j + b) := by
  have hmod : 8 * j % 64 = 8 * j := Nat.mod_eq_of_lt (by omega)
  have hword : 8 * j % 2 ^ 64 = 8 * j := Nat.mod_eq_of_lt (by omega)
  simp only [Nat.reducePow] at hword
  rw [test_eq_testBit word (by omega)]
  change _ = word.toBitVec.getLsbD (8 * j + b)
  simp [byte, hmod, hword, hb]

theorem byte_eq {word : UInt64} {x : UInt8} (hj : j < 8)
    (h : ∀ b < 8, test word (8 * j + b) = x.toBitVec.getLsbD b) : byte word j = x := by
  apply UInt8.toBitVec_inj.mp
  apply BitVec.eq_of_getLsbD_eq
  intro b hb
  rw [getLsbD_byte word hj hb, h b hb]

theorem eq_of_byte_eq {x y : UInt64} (h : ∀ j < 8, byte x j = byte y j) : x = y := by
  apply UInt64.toBitVec_inj.mp
  apply BitVec.eq_of_getLsbD_eq
  intro k hk
  have hbit := congrArg (fun z : UInt8 => z.toBitVec.getLsbD (k % 8)) (h (k / 8) (by omega))
  simp only [getLsbD_byte _ (show k / 8 < 8 by omega) (Nat.mod_lt k (by decide)), Nat.div_add_mod] at hbit
  rwa [test_eq_testBit _ hk, test_eq_testBit _ hk] at hbit

/-- A byte that has been moved to its place. -/
theorem test_shiftLeft (x : UInt8) (hi : i < 8) (hj : j < 8) (hb : b < 8) :
    test (x.toUInt64 <<< UInt64.ofNat (8 * i)) (8 * j + b) = (decide (i = j) && x.toBitVec.getLsbD b) := by
  have hmod : 8 * i % 64 = 8 * i := Nat.mod_eq_of_lt (by omega)
  have hword : 8 * i % 2 ^ 64 = 8 * i := Nat.mod_eq_of_lt (by omega)
  simp only [Nat.reducePow] at hword
  rw [test_eq_testBit _ (by omega)]
  change (x.toUInt64 <<< UInt64.ofNat (8 * i)).toBitVec.getLsbD (8 * j + b) = _
  have hlt : 8 * j + b < 64 := by omega
  rcases Nat.lt_trichotomy i j with h | h | h
  · have hbeyond : x.toBitVec.getLsbD (8 * j + b - 8 * i) = false :=
      BitVec.getLsbD_of_ge _ _ (by omega)
    have hne : i ≠ j := by omega
    simp [hmod, hword, hlt, hbeyond, hne]
  · subst h
    have hnot : ¬ 8 * i + b < 8 * i := by omega
    simp [hmod, hword, hlt, hnot]
  · have hbelow : 8 * j + b < 8 * i := by omega
    have hne : i ≠ j := by omega
    simp [hmod, hword, hbelow, hne]

/-- The bytes of a value that has been read from memory. -/
theorem byte_littleEndian (view : Nat → UInt8) (addr : Nat) (h : i + n ≤ 8) (hj : j < 8) :
    byte (littleEndian view addr n i) j = if i ≤ j ∧ j < i + n then view (addr + j) else 0 := by
  apply byte_eq hj
  intro b hb
  induction n generalizing i with
  | zero =>
    rw [if_neg (by omega), littleEndian, test_zero]
    simp
  | succ n ih =>
    rw [littleEndian, test_or _ _ (by omega), test_shiftLeft _ (by omega) hj hb, ih (by omega)]
    rcases Nat.lt_trichotomy j i with hlt | rfl | hgt
    · have hne : i ≠ j := by omega
      simp [hne, show ¬ i ≤ j by omega, show ¬ i + 1 ≤ j by omega]
    · simp [show j < j + (n + 1) by omega, show ¬ j + 1 ≤ j by omega]
    · have hne : i ≠ j := by omega
      simp [hne, show i + 1 ≤ j by omega, show i ≤ j by omega, show i + 1 + n = i + (n + 1) by omega]

theorem byte_and_lowOnes (word : UInt64) (hj : j < 8) :
    byte (word &&& lowOnes (8 * n)) j = if j < n then byte word j else 0 := by
  apply byte_eq hj
  intro b hb
  rw [test_and _ _ (by omega), test_lowOnes _ (by omega)]
  rcases Nat.lt_or_ge j n with h | h
  · rw [if_pos h, getLsbD_byte word hj hb]
    simp [show 8 * j + b < 8 * n by omega]
  · rw [if_neg (by omega)]
    simp [show ¬ 8 * j + b < 8 * n by omega]

end Bits

theorem littleEndian_overwrite (view : Nat → UInt8) (addr : Nat) {len : Nat} (h : len ≤ 8) (x : UInt64) :
    littleEndian (overwrite view addr len x) addr len 0 = x &&& Bits.lowOnes (8 * len) := by
  refine Bits.eq_of_byte_eq fun j hj => ?_
  rw [Bits.byte_littleEndian _ _ (by omega) hj, Bits.byte_and_lowOnes _ hj]
  by_cases hlt : j < len
  · rw [if_pos (by omega), if_pos hlt, overwrite, if_pos (by omega), Nat.add_sub_cancel_left]
  · rw [if_neg (by omega), if_neg hlt]

end PrimitiveShader
