import PrimitiveShader.Proofs.Lowering.Pack
import PrimitiveShader.Proofs.Validity

/-!
# Values fit their types

A register is wider than most types. `ScalarType.Fits` says that its contents are within a type. The
operators keep to the types that the check of a program gives them (`UnaryOp.fits_eval`,
`BinaryOp.fits_eval`), and so do the inputs of a lane (`LaneInput.fits_eval`).
-/

namespace PrimitiveShader

namespace ScalarType

/-- The register's contents are within the type. -/
def Fits (type : ScalarType) (a : UInt64) : Prop := a.toNat < 2 ^ type.bits

instance (type : ScalarType) (a : UInt64) : Decidable (type.Fits a) :=
  inferInstanceAs (Decidable (_ < _))

theorem fits_iff_le_mask {type : ScalarType} {a : UInt64} : type.Fits a ↔ a ≤ type.mask := by
  have hbits : type.bits ≤ 64 := by cases type <;> decide
  have hpos := Nat.two_pow_pos type.bits
  rw [UInt64.le_iff_toNat_le, mask, Bits.toNat_lowOnes hbits, Nat.one_shiftLeft, Fits]
  omega

theorem fits_zero (type : ScalarType) : type.Fits 0 := Nat.two_pow_pos _

theorem fits_and_mask (type : ScalarType) (a : UInt64) : type.Fits (a &&& type.mask) :=
  and_mask_lt type a

theorem fits_u64 (a : UInt64) : u64.Fits a := a.toNat_lt

theorem fits_bool (b : Bool) : bool.Fits b.toUInt64 := by
  cases b <;> decide

theorem fits_flag (b : Bool) : u32.Fits b.toUInt64 := by
  cases b <;> decide

theorem fits_toUInt64 (a : UInt32) : u32.Fits a.toUInt64 := by
  rw [Fits, UInt32.toNat_toUInt64]
  exact a.toNat_lt

theorem fits_ofNat {n : Nat} (h : n < 2 ^ 32) : u32.Fits (UInt64.ofNat n) := by
  rw [Fits, toNat_ofNat_of_lt h]
  exact h

theorem Fits.of_le {type : ScalarType} {a b : UInt64} (h : type.Fits b) (hle : a.toNat ≤ b.toNat) : type.Fits a :=
  Nat.lt_of_le_of_lt hle h

theorem fits_convert (type : ScalarType) (a : UInt64) : type.Fits (type.convert a) := by
  cases type with
  | bool => exact fits_bool _
  | _ => exact fits_and_mask _ _

end ScalarType

open ScalarType

theorem UnaryOp.fits_eval {op : UnaryOp} {τ type : ScalarType} (h : op.resultType? τ = some type)
    (a : UInt64) : type.Fits (op.eval a) := by
  simp only [resultType?, typeWhen, Option.ite_none_right_eq_some, Option.some.injEq] at h
  obtain ⟨-, rfl⟩ := h
  cases op with
  | bitCount =>
    have hle : Bits.count a ≤ (List.range 64).length := List.countP_le_length
    exact fits_ofNat (Nat.lt_of_le_of_lt hle (by decide))
  | bitfieldMask => exact fits_u64 _
  | byteSum =>
    have hbyte (i : Nat) : (Bits.byte a i).toNat < 256 := UInt8.toNat_lt _
    have hsum : Bits.byteSum a < 2 ^ 32 := by
      have := hbyte 0; have := hbyte 1; have := hbyte 2; have := hbyte 3
      have := hbyte 4; have := hbyte 5; have := hbyte 6; have := hbyte 7
      simp only [Bits.byteSum, List.range, List.range.loop, List.foldr_cons, List.foldr_nil]
      omega
    exact fits_ofNat hsum

theorem BinaryOp.fits_eval {op : BinaryOp} {τ σ type : ScalarType}
    (h : op.resultType? τ σ = some type) {a b : UInt64} (ha : τ.Fits a) (hb : σ.Fits b) :
    type.Fits (op.eval τ a b) := by
  cases op <;> simp only [resultType?, typeWhen, Option.ite_none_right_eq_some, Option.some.injEq,
    Bool.and_eq_true, beq_iff_eq] at h
  case eq | ne | lt | ge =>
    obtain ⟨-, rfl⟩ := h
    exact fits_bool _
  case add | sub | mul =>
    obtain ⟨-, rfl⟩ := h
    exact fits_and_mask _ _
  case and =>
    obtain ⟨-, rfl⟩ := h
    exact ha.of_le (by rw [eval, UInt64.toNat_and]; exact Nat.and_le_left)
  case or =>
    obtain ⟨⟨rfl, -⟩, rfl⟩ := h
    rw [eval, Fits, UInt64.toNat_or]
    exact Nat.or_lt_two_pow ha hb
  case shl =>
    obtain ⟨-, rfl⟩ := h
    rw [eval]
    split
    · exact fits_and_mask _ _
    · exact fits_zero _
  case shr =>
    obtain ⟨-, rfl⟩ := h
    rw [eval]
    split
    · exact ha.of_le (by rw [UInt64.toNat_shiftRight]; exact Nat.shiftRight_le _ _)
    · exact fits_zero _
  case min =>
    obtain ⟨⟨rfl, -⟩, rfl⟩ := h
    rw [eval]
    split
    · exact ha
    · exact hb

/-- Cutting out bits makes nothing larger. -/
theorem ScalarType.Fits.extract {type : ScalarType} {a : UInt64} (h : type.Fits a)
    (offset : UInt64) (bits : Nat) : type.Fits ((a >>> offset) &&& Bits.lowOnes bits) := by
  refine h.of_le ?_
  rw [UInt64.toNat_and, UInt64.toNat_shiftRight]
  exact Nat.le_trans Nat.and_le_left (Nat.shiftRight_le _ _)

/-! ## Inputs -/

/-- The number of a lane of a launched wave. -/
structure LaneId.InRange (id : LaneId) : Prop where
  wave : id.wave < Hardware.maxWaves
  lane : id.lane < 64
  index : id.index < 512

/-- The vertices of the input primitives fit an export word. -/
def Launch.Packs (launch : Launch) : Prop :=
  ∀ prim ∈ launch.primitives, ∀ x ∈ prim.vertices.toList.take launch.topology.vertexCount,
    x ≤ ExportWord.indexMask

theorem LaneInput.fits_eval {group : Workgroup} {id : LaneId} {input : LaneInput}
    (hlaunch : group.launch.Valid group.wave) (hid : id.InRange)
    {F : Prop} (hpacks : input = .packedPrimitive → F ∨ group.launch.Packs) :
    Yields F input.type.Fits (input.eval group id) := by
  have hlanes := hlaunch.numLanes_le
  have hwaves : group.numWaves ≤ 8 := hlaunch.waves
  have hwave : id.wave < 8 := hid.wave
  have hvertices := hlaunch.vertices
  have hprimitives := hlaunch.primitives
  cases input with
  | subgroupId => exact fits_ofNat (by omega)
  | numSubgroups => exact fits_ofNat (by omega)
  | subgroupInvocation => exact fits_ofNat (Nat.lt_trans hid.lane (by decide))
  | localInvocationIndex => exact fits_ofNat (Nat.lt_trans hid.index (by decide))
  | numInputVertices => exact fits_ofNat (by omega)
  | numInputPrimitives => exact fits_ofNat (by omega)
  | hasInputVertex => exact fits_bool _
  | hasInputPrimitive => exact fits_bool _
  | queryEnabled => exact fits_bool _
  | vertexPair base =>
    unfold eval
    dsimp only
    split
    · exact fits_toUInt64 _
    · exact fits_zero _
  | packedPrimitive =>
    unfold eval
    dsimp only
    split
    · rename_i prim hprim
      have hlen : 1 ≤ (prim.vertices.toList.take group.launch.topology.vertexCount).length ∧
          (prim.vertices.toList.take group.launch.topology.vertexCount).length ≤ 3 := by
        cases group.launch.topology <;> simp [Topology.vertexCount]
      rcases hpacks rfl with hF | hpacks
      · exact Yields.bind_iff.mpr (Yields.of_admitted hF fun word => fits_toUInt64 _)
      · rw [ExportWord.pack_eq_ok hlen (hpacks prim (Array.mem_of_getElem? hprim))]
        exact fits_toUInt64 _
    · exact fits_zero _
  | edgeFlag vertex =>
    unfold eval
    dsimp only
    split
    · exact fits_flag _
    · exact fits_zero _
  | primitiveId =>
    unfold eval
    dsimp only
    split
    · exact fits_toUInt64 _
    · exact fits_toUInt64 _
    · exact fits_zero _

end PrimitiveShader
