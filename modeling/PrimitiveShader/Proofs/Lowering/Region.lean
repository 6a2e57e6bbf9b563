import PrimitiveShader.Proofs.Emission.Instruction
import PrimitiveShader.SharedLayout.Access

/-!
# Access to the elements of a region

The emitted code reads and writes the bytes of field `field` of element `n`, which are those from
`fieldAddress` on, as long as the region has that element. A constant element number has been checked
when the code was emitted, and the address is the same.
-/

namespace PrimitiveShader.Region

/-- The first byte of a field of element `n`, for elements of `stride` bytes. -/
def fieldAddress (region : Region) (n stride field : Nat) : Nat :=
  region.offset + n * stride + field

/-- The region has an element `n` of `stride` bytes, and the program has the region. -/
structure Holds (program : Program) (region : Region) (n stride : Nat) : Prop where
  element : n * stride + stride ≤ region.size
  inside : region.offset + region.size ≤ program.sharedSize
  small : program.sharedSize < 2 ^ 32

theorem element_eq_ok {region : Region} {index stride start : Nat}
    (h : region.element index stride = .ok start) : start = index * stride := by
  unfold element at h
  obtain ⟨s, hs, h⟩ := except_bind_eq_ok.mp h
  obtain ⟨-, rfl⟩ := fits32_eq_ok_iff.mp hs
  obtain ⟨stop, -, h⟩ := except_bind_eq_ok.mp h
  split at h
  · cases h
    rfl
  · obtain ⟨text, -, h⟩ := except_bind_eq_ok.mp h
    cases h

theorem checkField_eq_ok {field bytes stride : Nat} (h : checkField field bytes stride = .ok ()) :
    field + bytes ≤ stride := by
  unfold checkField at h
  obtain ⟨s, hs, h⟩ := except_bind_eq_ok.mp h
  obtain ⟨-, rfl⟩ := fits32_eq_ok_iff.mp hs
  split at h
  · rename_i hle
    exact hle
  · cases h

theorem fieldBase_eq_ok {region : Region} {field : Nat} {base : UInt32}
    (h : region.fieldBase field = .ok base) : base.toNat = region.offset + field := by
  unfold fieldBase at h
  cases hs : fits32 (region.offset + field) with
  | error fault => simp [hs, Functor.map, Except.map] at h
  | ok s =>
    obtain ⟨hlt, rfl⟩ := fits32_eq_ok_iff.mp hs
    simp only [hs, Functor.map, Except.map, Except.ok.injEq] at h
    rw [← h, UInt32.toNat_ofNat']
    exact Nat.mod_eq_of_lt hlt

open Emit

variable {region : Region} {index value : Value} {stride field : Nat} {type : ScalarType} {K : Instr → Prop}

instance [Instr.Computing K] : Straight K (region.elementAddress index stride) := by
  unfold elementAddress
  refine @Straight.bind _ _ _ _ _ _ fun constant => ?_
  cases constant <;> infer_instance

instance [Instr.Common K] : Straight K (region.load index stride field type) := by
  unfold load
  infer_instance

instance [Instr.Staging K] : Straight K (region.store value index stride field) := by
  unfold store
  infer_instance

variable {c : Setting} {id : LaneId} {p : Program} {t : Thread} {L : Thread → Prop} {n : Nat}
  {Q : Value → Program → Thread → Prop}

theorem wp_elementAddress (hi : Knows p t index .u32 (UInt64.ofNat n)) (hn : n < 2 ^ 32) (hs : stride < 2 ^ 32)
    (hmul : n * stride < 2 ^ 32) (hQ : Learns p t .u32 (UInt64.ofNat (n * stride)) Q) :
    Emit.wp c id (region.elementAddress index stride) p Q L t := by
  refine wp_bind
    (wp_bind (wp_get (wp_bind (wp_lift fun instr hinstr => wp_pure ?_))))
  cases hconst : instr.constant? with
  | some constant =>
    obtain rfl := hi.constant instr hinstr constant hconst
    refine wp_bind (wp_lift fun start hstart => ?_)
    have hnumber : (UInt64.ofNat n).toUInt32.toNat = n := by
      rw [UInt64.toNat_toUInt32, toNat_ofNat_of_lt hn, Nat.mod_eq_of_lt hn]
    rw [element_eq_ok hstart, hnumber]
    exact wp_imm32 hmul hQ
  | none =>
    by_cases hone : stride = 1
    · subst hone
      simp only [↓reduceIte]
      refine wp_pure (hQ index p t (.refl p t) ?_)
      rwa [Nat.mul_one]
    · simp only [hone, ↓reduceIte]
      refine wp_binaryImm hi rfl fun v p' t' hc hk => hQ v p' t' hc ?_
      rwa [ofNat_and_mask hs, BinaryOp.eval_mul_ofNat hmul] at hk

/-- A load from an element whose bytes have no owner. -/
theorem wp_load (hi : Knows p t index .u32 (UInt64.ofNat n)) (hholds : region.Holds c.program n stride)
    (hint : type.isInt) (hfree : field + type.bytes ≤ stride →
      ∀ j < type.bytes, c.own (region.fieldAddress n stride field + j) = none)
    (hQ : Learns p t type (littleEndian t.view (region.fieldAddress n stride field) type.bytes 0) Q) :
    Emit.wp c id (region.load index stride field type) p Q L t := by
  refine wp_bind (wp_lift fun _ hcheck => ?_)
  have hfield := checkField_eq_ok hcheck
  have hpos : 0 < type.bytes := by cases type <;> first | decide | cases hint
  have hle : n ≤ n * stride := Nat.le_mul_of_pos_right n (by omega)
  obtain ⟨helement, hinside, hsmall⟩ := hholds
  refine wp_bind (wp_elementAddress hi (by omega) (by omega) (by omega) fun addr p₁ t₁ h₁ ha => ?_)
  refine wp_bind (wp_lift fun base hbase => ?_)
  have haddr : base.toNat + (UInt64.ofNat (n * stride)).toNat = region.fieldAddress n stride field := by
    rw [fieldBase_eq_ok hbase, toNat_ofNat_of_lt (by omega), fieldAddress]
    omega
  have hfits : region.fieldAddress n stride field = region.offset + n * stride + field := rfl
  refine wp_loadShared ha hint ?_ ?_ (fun j hj => ?_) fun v p' t' hc hk => ?_
  · omega
  · omega
  · rw [haddr]
    exact hfree hfield j hj
  · rw [haddr, h₁.view] at hk
    exact hQ v p' t' (h₁.trans hc) hk

/-- A store to an element whose bytes are one's own. -/
theorem wp_store {Q : Unit → Program → Thread → Prop} {y : UInt64} (hv : Knows p t value type y) (hint : type.isInt)
    (hi : Knows p t index .u32 (UInt64.ofNat n)) (hholds : region.Holds c.program n stride)
    (hown : field + type.bytes ≤ stride →
      ∀ j < type.bytes, c.own (region.fieldAddress n stride field + j) = some id.index) (hQ : ∀ p' t', Computed p
      { t with view := overwrite t.view (region.fieldAddress n stride field) type.bytes y } p' t' → Q () p' t') :
    Emit.wp c id (region.store value index stride field) p Q L t := by
  refine wp_bind (wp_typeOf hv.typeOf (wp_bind (wp_lift fun _ hcheck => ?_)))
  have hfield := checkField_eq_ok hcheck
  have hpos : 0 < type.bytes := by cases type <;> first | decide | cases hint
  have hle : n ≤ n * stride := Nat.le_mul_of_pos_right n (by omega)
  obtain ⟨helement, hinside, hsmall⟩ := hholds
  refine wp_bind (wp_elementAddress hi (by omega) (by omega) (by omega) fun addr p₁ t₁ h₁ ha => ?_)
  refine wp_bind (wp_lift fun base hbase => ?_)
  have haddr : base.toNat + (UInt64.ofNat (n * stride)).toNat = region.fieldAddress n stride field := by
    rw [fieldBase_eq_ok hbase, toNat_ofNat_of_lt (by omega), fieldAddress]
    omega
  have hfits : region.fieldAddress n stride field = region.offset + n * stride + field := rfl
  refine wp_storeShared ha (hv.computed h₁) ?_ ?_ (fun j hj => ?_) fun p' hp => ?_
  · omega
  · omega
  · rw [haddr]
    exact hown hfield j hj
  · rw [haddr, h₁.view]
    exact hQ p' _ ⟨⟨h₁.within.trans hp, h₁.read⟩, h₁.vars, h₁.outputs, rfl, h₁.primitives, h₁.vertices, h₁.space⟩

end PrimitiveShader.Region
