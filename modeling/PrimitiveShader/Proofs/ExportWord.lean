import Mathlib.Algebra.Ring.Nat
import Mathlib.Data.List.GetD
import Mathlib.Data.Nat.Bitwise
import PrimitiveShader.ExportWord

/-!
# Export words and their fields

The parts of a packed word are joined bit by bit. Each bit belongs to one part alone, except that the highest bit of an
index field is shared by the index and the edge flag of the vertex (`ExportWord.bit_joined`). So the fields of a word
are what it was packed from, and a word is what its fields are packed to (`ExportWord.pack_unpack_inverse`).
-/

namespace PrimitiveShader.ExportWord

/-! ## Words of joined parts -/

/-- The index fields of `indices`, the first of which is number `i` of the word, however wide they
are. -/
def joinedIndices : Nat → List UInt32 → UInt32
  | _, [] => 0
  | i, index :: rest => (index <<< UInt32.ofNat (indexBits * i)) ||| joinedIndices (i + 1) rest

/-- The word of `pack`, however wide the indices are. -/
def joined (indices : List UInt32) (edgeFlags : List Bool) (isNull : Bool) : ExportWord :=
  ⟨joinedIndices 0 indices ||| packEdgeFlags 0 (edgeFlags.take indices.length) |||
    flagAt isNull nullBit⟩

theorem packIndices_eq_ok (h : ∀ x ∈ indices, x ≤ indexMask) :
    packIndices i indices = .ok (joinedIndices i indices) := by
  induction indices generalizing i with
  | nil => rfl
  | cons index rest ih =>
    have hle : index ≤ indexMask := h index (by simp)
    simp only [packIndices, hle, ↓reduceIte, ih fun x hx => h x (by simp [hx])]
    rfl

/-- Indices that fit their fields are packed. -/
theorem pack_eq_ok {edgeFlags : Option (List Bool)} {isNull : Bool}
    (hlen : 1 ≤ indices.length ∧ indices.length ≤ 3) (h : ∀ x ∈ indices, x ≤ indexMask) :
    pack indices edgeFlags isNull = .ok (joined indices (edgeFlags.getD []) isNull) := by
  unfold pack
  simp only [hlen, and_self, ↓reduceIte, packIndices_eq_ok h]
  rfl

/-- The edge flag of vertex `i` in its place, if there is one. -/
def edgeFlagOf (edgeFlags : List Bool) (i : Nat) : UInt32 :=
  match edgeFlags[i]? with
  | some flag => flagAt flag (indexBits * i + edgeFlagBit)
  | none => 0

theorem packEdgeFlags_drop (edgeFlags : List Bool) (i n : Nat) : packEdgeFlags i ((edgeFlags.drop i).take (n + 1)) =
      edgeFlagOf edgeFlags i ||| packEdgeFlags (i + 1) ((edgeFlags.drop (i + 1)).take n) := by
  unfold edgeFlagOf
  rcases Nat.lt_or_ge i edgeFlags.length with hlt | hge
  · rw [List.drop_eq_getElem_cons hlt, List.getElem?_eq_getElem hlt]
    rfl
  · rw [List.drop_eq_nil_of_le hge, List.drop_eq_nil_of_le (by omega), List.getElem?_eq_none hge]
    simp [packEdgeFlags]

/-! ## Bits of a word -/

/-- Bit `j` of a 32-bit word. -/
def bit (word : UInt32) (j : Nat) : Bool := word.toNat.testBit j

variable {a b : UInt32} {i j n : Nat}

theorem bit_of_lt (h : a.toNat < 2 ^ n) (hj : n ≤ j) : bit a j = false :=
  Nat.testBit_lt_two_pow (Nat.lt_of_lt_of_le h (Nat.pow_le_pow_right (by decide) hj))

theorem eq_of_bit (h : ∀ j < 32, bit a j = bit b j) : a = b := by
  refine UInt32.toNat_inj.mp (Nat.eq_of_testBit_eq fun j => ?_)
  rcases Nat.lt_or_ge j 32 with hj | hj
  · exact h j hj
  · exact (bit_of_lt a.toNat_lt hj).trans (bit_of_lt b.toNat_lt hj).symm

theorem bit_zero (j : Nat) : bit 0 j = false := by
  simp [bit]

theorem bit_or (a b : UInt32) (j : Nat) : bit (a ||| b) j = (bit a j || bit b j) := by
  simp [bit]

theorem bit_and (a b : UInt32) (j : Nat) : bit (a &&& b) j = (bit a j && bit b j) := by
  simp [bit]

theorem bit_not (a : UInt32) (hj : j < 32) : bit (~~~a) j = !bit a j := by
  change (~~~a.toBitVec).getLsbD j = !a.toBitVec.getLsbD j
  simp [hj]

theorem toNat_ofNat_mod (hn : n < 32) : (UInt32.ofNat n).toNat % 32 = n := by
  rw [UInt32.toNat_ofNat']
  omega

theorem bit_shiftLeft (a : UInt32) (hn : n < 32) (hj : j < 32) :
    bit (a <<< UInt32.ofNat n) j = (decide (n ≤ j) && bit a (j - n)) := by
  rw [bit, UInt32.toNat_shiftLeft, toNat_ofNat_mod hn, Nat.testBit_mod_two_pow, Nat.testBit_shiftLeft, decide_eq_true hj]
  rfl

theorem bit_shiftRight (a : UInt32) (hn : n < 32) (j : Nat) : bit (a >>> UInt32.ofNat n) j = bit a (n + j) := by
  rw [bit, UInt32.toNat_shiftRight, toNat_ofNat_mod hn, Nat.testBit_shiftRight]
  rfl

theorem bit_flagAt (flag : Bool) (hn : n < 32) (hj : j < 32) : bit (flagAt flag n) j = (decide (j = n) && flag) := by
  rw [flagAt, bit_shiftLeft _ hn hj]
  cases flag with
  | false =>
    change (_ && bit 0 _) = _
    simp [bit_zero]
  | true =>
    change (_ && Nat.testBit 1 (j - n)) = _
    rw [Bool.eq_iff_iff]
    simp only [Bool.and_eq_true, decide_eq_true_eq, Nat.testBit_one_eq_true_iff_self_eq_zero, and_true]
    omega

theorem bit_indexMask (j : Nat) : bit indexMask j = decide (j < indexBits) :=
  Nat.testBit_two_pow_sub_one indexBits j

theorem and_flagAt_ne_zero (a : UInt32) (hn : n < 32) : (a &&& flagAt true n != 0) = bit a n := by
  cases hbit : bit a n with
  | false =>
    have hzero : a &&& flagAt true n = 0 := eq_of_bit fun j hj => by
      rw [bit_and, bit_flagAt _ hn hj, bit_zero]
      by_cases h : j = n <;> simp [h, hbit]
    rw [hzero]
    rfl
  | true =>
    have hone : bit (a &&& flagAt true n) n = true := by
      rw [bit_and, bit_flagAt _ hn hn, hbit]
      simp
    refine bne_iff_ne.mpr fun hzero => ?_
    rw [hzero, bit_zero] at hone
    cases hone

/-! ## The bits of the parts -/

/-- Each bit of the index fields belongs to one index. -/
theorem bit_joinedIndices (i : Nat) (indices : List UInt32) (hlen : i + indices.length ≤ 3)
    (hle : ∀ x ∈ indices, x ≤ indexMask) (hj : j < 32) :
    bit (joinedIndices i indices) j = (decide (i ≤ j / 10) && bit (indices.getD (j / 10 - i) 0) (j % 10)) := by
  induction indices generalizing i with
  | nil => simp [joinedIndices, bit_zero]
  | cons index rest ih =>
    have hlen' : i + 1 + rest.length ≤ 3 := by
      rw [List.length_cons] at hlen
      omega
    have hwide : index.toNat < 2 ^ 10 := Nat.lt_succ_of_le (UInt32.le_iff_toNat_le.mp (hle index List.mem_cons_self))
    rw [joinedIndices, bit_or, ih (i + 1) hlen' fun x hx => hle x (List.mem_cons_of_mem _ hx), indexBits,
      bit_shiftLeft _ (by omega) hj]
    rcases Nat.lt_trichotomy (j / 10) i with hlt | heq | hgt
    · simp [show ¬ i ≤ j / 10 by omega, show ¬ i + 1 ≤ j / 10 by omega, show ¬ 10 * i ≤ j by omega]
    · simp [heq, show j - 10 * i = j % 10 by omega, show 10 * i ≤ j by omega]
    · simp only [bit_of_lt hwide (show 10 ≤ j - 10 * i by omega), Bool.and_false, Bool.false_or]
      rw [show j / 10 - i = j / 10 - (i + 1) + 1 by omega, List.getD_cons_succ]
      simp [show i ≤ j / 10 by omega, show i + 1 ≤ j / 10 by omega]

/-- Each edge flag is the highest bit of one field. -/
theorem bit_packEdgeFlags (i : Nat) (flags : List Bool) (hlen : i + flags.length ≤ 3) (hj : j < 32) :
    bit (packEdgeFlags i flags) j = (decide (i ≤ j / 10 ∧ j % 10 = 9) && flags.getD (j / 10 - i) false) := by
  induction flags generalizing i with
  | nil => simp [packEdgeFlags, bit_zero]
  | cons flag rest ih =>
    have hlen' : i + 1 + rest.length ≤ 3 := by
      rw [List.length_cons] at hlen
      omega
    rw [packEdgeFlags, bit_or, ih (i + 1) hlen', indexBits, edgeFlagBit, bit_flagAt _ (by omega) hj]
    rcases Nat.lt_trichotomy (j / 10) i with hlt | heq | hgt
    · simp [show ¬ i ≤ j / 10 by omega, show ¬ i + 1 ≤ j / 10 by omega, show ¬ j = 10 * i + 9 by omega]
    · simp [heq, show j = 10 * i + 9 ↔ j % 10 = 9 by omega]
    · rw [show j / 10 - i = j / 10 - (i + 1) + 1 by omega, List.getD_cons_succ]
      simp [show i ≤ j / 10 by omega, show i + 1 ≤ j / 10 by omega, show ¬ j = 10 * i + 9 by omega]

/-! ## Fields of a packed word -/

/-- Index field `i` of a word. -/
def field (word : ExportWord) (i : Nat) : UInt32 := (word.bits >>> UInt32.ofNat (indexBits * i)) &&& indexMask

section

variable (word : ExportWord)
include word

theorem bit_field (hi : i < 3) (j : Nat) :
    bit (word.field i) j = (decide (j < 10) && bit word.bits (10 * i + j)) := by
  rw [field, bit_and, bit_indexMask, indexBits, bit_shiftRight _ (by omega), Bool.and_comm]

theorem field_le (i : Nat) : word.field i ≤ indexMask := by
  rw [UInt32.le_iff_toNat_le, field, UInt32.toNat_and]
  exact Nat.and_le_right

theorem isNull_eq_bit : word.isNull = bit word.bits 31 :=
  and_flagAt_ne_zero word.bits (by decide)

theorem edgeFlag_eq_ok (hi : i < 3) : word.edgeFlag i = .ok (bit word.bits (10 * i + 9)) := by
  have hplace : indexBits * i + edgeFlagBit < 32 := by
    simp only [indexBits, edgeFlagBit]
    omega
  rw [edgeFlag, if_pos hplace, and_flagAt_ne_zero _ hplace]
  rfl

theorem indexWithoutEdgeFlag_eq_ok (hi : i < 3) :
    word.indexWithoutEdgeFlag i = .ok (word.field i &&& ~~~flagAt true edgeFlagBit) := by
  have hplace : indexBits * i < 32 := by
    simp only [indexBits]
    omega
  rw [indexWithoutEdgeFlag, index, if_pos hplace]
  rfl

end

variable {indices : List UInt32} {flags : List Bool} {null : Bool}

/-- No two parts of a word share a bit, but for an edge flag and the highest bit of its index. -/
theorem bit_joined (hlen : indices.length ≤ 3) (hle : ∀ x ∈ indices, x ≤ indexMask) (hj : j < 32) :
    bit (joined indices flags null).bits j = (bit (indices.getD (j / 10) 0) (j % 10) ||
      (decide (j % 10 = 9) && (flags.take indices.length).getD (j / 10) false) || (decide (j = 31) && null)) := by
  have hflags : (flags.take indices.length).length ≤ 3 := (List.length_take_le _ _).trans hlen
  rw [joined, bit_or, bit_or, bit_joinedIndices 0 indices (by omega) hle hj, bit_packEdgeFlags 0 _ (by omega) hj, nullBit,
    bit_flagAt _ (by decide) hj]
  simp

theorem isNull_joined (hlen : indices.length ≤ 3) (hle : ∀ x ∈ indices, x ≤ indexMask) :
    (joined indices flags null).isNull = null := by
  rw [isNull_eq_bit, bit_joined hlen hle (by decide), List.getD_eq_default _ _ hlen, bit_zero]
  simp

theorem getD_le {m : UInt32} (hle : ∀ x ∈ indices, x ≤ m) (i : Nat) : indices.getD i 0 ≤ m := by
  rw [List.getD_eq_getElem?_getD]
  cases h : indices[i]? with
  | none => exact UInt32.le_iff_toNat_le.mpr (Nat.zero_le _)
  | some x => exact hle x (List.mem_of_getElem? h)

section

variable (hlen : indices.length ≤ 3)
include hlen

/-- A field holds its index and its edge flag. -/
theorem bit_field_joined (hle : ∀ x ∈ indices, x ≤ indexMask) (hi : i < 3) (hj : j < 10) :
    bit (joined indices flags null).bits (10 * i + j) =
      (bit (indices.getD i 0) j || (decide (j = 9) && (flags.take indices.length).getD i false)) := by
  rw [bit_joined hlen hle (by omega), show (10 * i + j) / 10 = i by omega, show (10 * i + j) % 10 = j by omega]
  simp [show ¬ 10 * i + j = 31 by omega]

/-- Without edge flags each field is its index. -/
theorem field_joined (hle : ∀ x ∈ indices, x ≤ indexMask) (hi : i < 3) :
    (joined indices [] null).field i = indices.getD i 0 := by
  refine eq_of_bit fun j _ => ?_
  rw [bit_field _ hi]
  by_cases hj : j < 10
  · simp [hj, bit_field_joined hlen hle hi hj]
  · have hwide : (indices.getD i 0).toNat < 2 ^ 10 := Nat.lt_succ_of_le (UInt32.le_iff_toNat_le.mp (getD_le hle i))
    rw [bit_of_lt hwide (Nat.not_lt.mp hj), decide_eq_false hj, Bool.false_and]

/-- Indices of nine bits leave room for the edge flags. -/
theorem narrow_field_joined (hle : ∀ x ∈ indices, x ≤ 511) (hi : i < 3) :
    (joined indices flags null).indexWithoutEdgeFlag i = .ok (indices.getD i 0) ∧
      (joined indices flags null).edgeFlag i = .ok (decide (i < indices.length) && flags.getD i false) := by
  have hmask : ∀ x ∈ indices, x ≤ indexMask := fun x hx => UInt32.le_trans (hle x hx) (by decide)
  have hwide : (indices.getD i 0).toNat < 2 ^ 9 := Nat.lt_succ_of_le (UInt32.le_iff_toNat_le.mp (getD_le hle i))
  constructor
  · rw [indexWithoutEdgeFlag_eq_ok _ hi]
    refine congrArg Except.ok (eq_of_bit fun j hj => ?_)
    rw [bit_and, bit_not _ hj, bit_field _ hi, edgeFlagBit, bit_flagAt _ (by decide) hj]
    rcases Nat.lt_or_ge j 9 with hlt | hge
    · simp [show j < 10 by omega, bit_field_joined hlen hmask hi (show j < 10 by omega), show ¬ j = 9 by omega]
    · rw [bit_of_lt hwide hge]
      by_cases hnine : j = 9
      · simp [hnine]
      · simp [show ¬ j < 10 by omega]
  · rw [edgeFlag_eq_ok _ hi, bit_field_joined hlen hmask hi (by decide), bit_of_lt hwide (Nat.le_refl 9)]
    by_cases hlt : i < indices.length
    · simp [hlt]
    · rw [List.getD_eq_default _ _ (by rw [List.length_take]; omega)]
      simp [hlt]

theorem unpack_joined (hle : ∀ x ∈ indices, x ≤ indexMask) :
    (joined indices [] null).unpack = indices ++ List.replicate (3 - indices.length) 0 := by
  have hfields : (joined indices [] null).unpack = (List.range 3).map fun i => indices.getD i 0 :=
    List.map_congr_left fun i hi => field_joined hlen hle (List.mem_range.mp hi)
  rw [hfields]
  match indices with
  | [] | [_] | [_, _] | [_, _, _] => rfl
  | _ :: _ :: _ :: _ :: _ =>
    simp only [List.length_cons] at hlen
    omega

end

theorem length_unpack (word : ExportWord) : word.unpack.length = 3 := rfl

theorem unpack_le (word : ExportWord) : ∀ x ∈ word.unpack, x ≤ indexMask := by
  intro x hx
  obtain ⟨i, -, rfl⟩ := List.mem_map.mp hx
  exact word.field_le i

/-- The fields of a word and its null mark are all of it but one bit. -/
theorem bit_joined_unpack (word : ExportWord) (hj : j < 32) :
    bit (joined word.unpack [] word.isNull).bits j = (bit word.bits j && decide (j ≠ 30)) := by
  rw [bit_joined word.length_unpack.le word.unpack_le hj, isNull_eq_bit]
  rcases Nat.lt_or_ge j 30 with hlt | hge
  · have hi : j / 10 < 3 := by omega
    have hget : word.unpack.getD (j / 10) 0 = word.field (j / 10) := by
      simp [unpack, field, List.getD_eq_getElem?_getD, hi]
    rw [hget, bit_field word hi, show 10 * (j / 10) + j % 10 = j by omega]
    simp [show j % 10 < 10 by omega, show ¬ j = 31 by omega, show ¬ j = 30 by omega]
  · rw [List.getD_eq_default _ _ (word.length_unpack.le.trans (show 3 ≤ j / 10 by omega)), bit_zero]
    obtain rfl | rfl : j = 30 ∨ j = 31 := by omega
    · simp
    · simp

/-- Packing and unpacking undo each other. Indices of ten bits are packed without fail and found again with zeros
behind them, as is the null mark. Indices of nine bits are found again whatever the edge flags, and so is the flag of
each vertex. A word is what its fields are packed to, unless the bit that no field has is set. -/
theorem pack_unpack_inverse :
    (∀ (indices : List UInt32) (null : Bool), 1 ≤ indices.length → indices.length ≤ 3 → (∀ x ∈ indices, x ≤ 1023) →
      ∃ word, pack indices none null = .ok word ∧
        word.unpack = indices ++ List.replicate (3 - indices.length) 0 ∧ word.isNull = null) ∧
    (∀ (indices : List UInt32) (edgeFlags : Option (List Bool)) (null : Bool), 1 ≤ indices.length →
      indices.length ≤ 3 → (∀ x ∈ indices, x ≤ 511) →
      ∃ word, pack indices edgeFlags null = .ok word ∧ word.isNull = null ∧ ∀ i < 3,
        word.indexWithoutEdgeFlag i = .ok (indices.getD i 0) ∧
        word.edgeFlag i = .ok (decide (i < indices.length) && (edgeFlags.getD []).getD i false)) ∧
    ∀ word : ExportWord, pack word.unpack none word.isNull = .ok word ↔ word.bits.toNat.testBit 30 = false := by
  refine ⟨fun indices null hone hthree hle => ?_, fun indices edgeFlags null hone hthree hle => ?_, fun word => ?_⟩
  · exact ⟨_, pack_eq_ok ⟨hone, hthree⟩ hle, unpack_joined hthree hle, isNull_joined hthree hle⟩
  · have hmask : ∀ x ∈ indices, x ≤ indexMask := fun x hx => UInt32.le_trans (hle x hx) (by decide)
    exact ⟨_, pack_eq_ok ⟨hone, hthree⟩ hmask, isNull_joined hthree hmask, fun i hi => narrow_field_joined hthree hle hi⟩
  · have hpack : pack word.unpack none word.isNull = .ok (joined word.unpack [] word.isNull) :=
      pack_eq_ok ⟨by simp [length_unpack], word.length_unpack.le⟩ word.unpack_le
    rw [hpack]
    change _ ↔ bit word.bits 30 = false
    constructor
    · intro h
      have hbit := word.bit_joined_unpack (show 30 < 32 by decide)
      rw [Except.ok.inj h] at hbit
      simpa using hbit
    · intro h
      refine congrArg (fun bits => Except.ok (ExportWord.mk bits)) (eq_of_bit fun j hj => ?_)
      refine (word.bit_joined_unpack hj).trans ?_
      by_cases hthirty : j = 30
      · simp [hthirty, h]
      · simp [hthirty]

/-- The largest indices, a vertex without a flag, a flag without a vertex, and a word with all bits but one. -/
theorem pack_unpack_inverse_extremes :
    (∃ word, pack [1023, 0] none true = .ok word ∧ word.unpack = [1023, 0, 0] ∧ word.isNull = true) ∧
    (∃ word, pack [511, 256] (some [true]) false = .ok word ∧ word.edgeFlag 0 = .ok true ∧
      word.indexWithoutEdgeFlag 1 = .ok 256 ∧ word.edgeFlag 1 = .ok false) ∧
    pack (unpack ⟨0xbfffffff⟩) none true = .ok ⟨0xbfffffff⟩ := by
  obtain ⟨hplain, hflags, hword⟩ := pack_unpack_inverse
  obtain ⟨word, hpack, -, hfields⟩ := hflags [511, 256] (some [true]) false (by decide) (by decide) (by simp)
  refine ⟨hplain [1023, 0] true (by decide) (by decide) (by simp), ⟨word, hpack, ?_⟩, (hword _).mpr (by decide)⟩
  exact ⟨(hfields 0 (by decide)).2, (hfields 1 (by decide)).1, (hfields 1 (by decide)).2⟩

end PrimitiveShader.ExportWord
