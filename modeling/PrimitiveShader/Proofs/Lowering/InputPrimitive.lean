import PrimitiveShader.Lowering.Vertex
import PrimitiveShader.Proofs.Lowering.Pack
import PrimitiveShader.Proofs.Lowering.Region
import PrimitiveShader.Proofs.Lowering.Space

/-!
# The words of input primitives

A lane finds the vertices of its input primitive in pairs of 16 bits each. The word that it packs from
them is the one of `ExportWord.pack`, as long as the indices fit their fields
(`VertexPlan.wp_primitiveWord`).
-/

namespace PrimitiveShader

/-- The triangle of three lanes, without edge flags. -/
def InputPrimitive.triangle (a b c id : UInt32) : InputPrimitive := { vertices := #v[a, b, c], id }

/-! ## Halves of a pair -/

section

variable {low high : UInt32}

variable (hl : low.toNat < 2 ^ 16)
include hl

theorem toNat_pair :
    (low ||| (high <<< 16)).toUInt64.toNat = high.toNat % 2 ^ 16 * 2 ^ 16 + low.toNat := by
  have hshift : (high <<< (16 : UInt32)).toNat = (high.toNat % 2 ^ 16) <<< 16 := by
    rw [UInt32.toNat_shiftLeft]
    change high.toNat <<< 16 % 2 ^ 32 = _
    rw [Nat.shiftLeft_eq, Nat.shiftLeft_eq]
    omega
  rw [UInt32.toNat_toUInt64, UInt32.toNat_or, hshift, Nat.or_comm, ← Nat.shiftLeft_add_eq_or_of_lt hl, Nat.shiftLeft_eq]

theorem pair_and_lowOnes :
    ((low ||| (high <<< 16)).toUInt64 >>> 0) &&& Bits.lowOnes 16 = low.toUInt64 := by
  rw [← UInt64.toNat_inj, UInt64.toNat_and, UInt64.toNat_shiftRight, toNat_pair hl,
    Bits.toNat_lowOnes (by decide), Nat.one_shiftLeft, Nat.and_two_pow_sub_one_eq_mod, UInt32.toNat_toUInt64]
  change (high.toNat % 2 ^ 16 * 2 ^ 16 + low.toNat) >>> 0 % 2 ^ 16 = _
  rw [Nat.shiftRight_zero]
  omega

theorem pair_shiftRight_and_lowOnes (hh : high.toNat < 2 ^ 16) :
    ((low ||| (high <<< 16)).toUInt64 >>> 16) &&& Bits.lowOnes 16 = high.toUInt64 := by
  rw [← UInt64.toNat_inj, UInt64.toNat_and, UInt64.toNat_shiftRight, toNat_pair hl,
    Bits.toNat_lowOnes (by decide), Nat.one_shiftLeft, Nat.and_two_pow_sub_one_eq_mod, UInt32.toNat_toUInt64]
  change (high.toNat % 2 ^ 16 * 2 ^ 16 + low.toNat) >>> 16 % 2 ^ 16 = _
  rw [Nat.shiftRight_eq_div_pow]
  omega

end

namespace InputPrimitive

variable (prim : InputPrimitive)

/-- Vertex number `i` of the primitive. -/
def vertex (i : Nat) : UInt32 := prim.vertices[i]?.getD 0

/-- What a lane finds as vertex number `i` of the primitive. -/
def half (i : Nat) : UInt64 :=
  ((prim.vertex (UInt8.ofNat (i / 2 * 2)).toNat |||
    (prim.vertex ((UInt8.ofNat (i / 2 * 2)).toNat + 1) <<< 16)).toUInt64 >>>
      (UInt8.ofNat (i % 2 * 16)).toUInt64) &&& Bits.lowOnes 16

theorem half_toUInt32 (i : Nat) : (prim.half i).toUInt32.toUInt64 = prim.half i := by
  have hlt : (prim.half i).toNat < 2 ^ 16 := ScalarType.and_mask_lt .u16 _
  rw [← UInt64.toNat_inj, UInt32.toNat_toUInt64, UInt64.toNat_toUInt32, Nat.mod_eq_of_lt (by omega)]

/-- It is the vertex, if the vertices up to there take 16 bits. -/
theorem half_eq {i : Nat} (hi : i < 3) (h : ∀ j ≤ i, (prim.vertex j).toNat < 2 ^ 16) :
    prim.half i = (prim.vertex i).toUInt64 := by
  obtain rfl | rfl | rfl : i = 0 ∨ i = 1 ∨ i = 2 := by omega
  · exact pair_and_lowOnes (h 0 (by omega))
  · exact pair_shiftRight_and_lowOnes (h 0 (by omega)) (h 1 (by omega))
  · exact pair_and_lowOnes (h 2 (by omega))

end InputPrimitive

namespace Lowering

open Emit

variable {c : Setting} {id : LaneId} {p : Program} {t : Thread} {L : Thread → Prop}
  {Q : Value → Program → Thread → Prop} {prim : InputPrimitive}

instance {K : Instr → Prop} [Instr.Computing K] (vertex : Nat) : Straight K (inputVertex vertex) := by
  unfold inputVertex
  infer_instance

/-- The code takes a vertex of the input primitive from its pair. -/
theorem wp_inputVertex {vertex : Nat} (hprim : c.group.launch.primitive? id.index = some prim)
    (hQ : Learns p t .u32 (prim.half vertex) Q) : Emit.wp c id (inputVertex vertex) p Q L t := by
  refine wp_bind (wp_input ?_)
  simp only [LaneInput.eval, hprim, Yields]
  intro pair p₁ t₁ h₁ hpair
  have hmod : vertex % 2 * 16 = 0 ∨ vertex % 2 * 16 = 16 := by omega
  refine wp_extract hpair rfl ?_ ?_ fun v p₂ t₂ h₂ hv => hQ v p₂ t₂ (h₁.trans h₂) hv
  · change (UInt8.ofNat (vertex % 2 * 16)).toNat + (16 : UInt8).toNat ≤ ScalarType.u32.bits
    rcases hmod with h | h <;> rw [h] <;> decide
  · rcases hmod with h | h <;> rw [h] <;> decide

namespace VertexPlan

variable (plan : VertexPlan)

/-- The vertices that a primitive is made of. -/
def indices (prim : InputPrimitive) : List UInt32 :=
  (List.range plan.config.topology.vertexCount).map prim.vertex

/-- The edge flags that are exported. -/
def edgeFlags (prim : InputPrimitive) : List Bool :=
  if plan.passthrough || plan.stage ≠ .vertex then []
  else (List.range plan.config.topology.vertexCount).map fun i => prim.edgeFlags[i]?.getD false

/-- The word of an input primitive. -/
def word (prim : InputPrimitive) : ExportWord :=
  .joined (plan.indices prim) (plan.edgeFlags prim) false

/-- The primitive can be packed: its indices fit their fields, and where it is packed by the hardware
the topology is the configured one. -/
structure Packs (launch : Launch) (prim : InputPrimitive) : Prop where
  topology : plan.passthrough → launch.topology = plan.config.topology
  indices : ∀ x ∈ plan.indices prim, x ≤ ExportWord.indexMask

theorem vertexCount_bounds (topology : Topology) : 1 ≤ topology.vertexCount ∧ topology.vertexCount ≤ 3 := by
  cases topology <;> decide

theorem length_indices (prim : InputPrimitive) : 1 ≤ (plan.indices prim).length ∧ (plan.indices prim).length ≤ 3 := by
  simpa [indices] using vertexCount_bounds plan.config.topology

variable {launch : Launch} {n : Nat}

/-- The word is the one that `ExportWord.pack` packs. -/
theorem pack_eq_word (h : plan.Packs launch prim) :
    ExportWord.pack (plan.indices prim) (some (plan.edgeFlags prim)) false = .ok (plan.word prim) :=
  ExportWord.pack_eq_ok (plan.length_indices prim) h.indices

/-- The first elements of a vector of three. -/
theorem take_toList {α : Type} (v : Vector α 3) (default : α) (h : n ≤ 3) :
    v.toList.take n = (List.range n).map fun i => v[i]?.getD default := by
  refine List.ext_getElem (by simp [h]) fun i hi _ => ?_
  have hlt : i < 3 := by
    simp only [List.length_take, Vector.length_toList] at hi
    omega
  simp [hlt]

theorem take_vertices (prim : InputPrimitive) (h : n ≤ 3) :
    prim.vertices.toList.take n = (List.range n).map prim.vertex :=
  take_toList prim.vertices 0 h

variable {plan}

instance {K : Instr → Prop} [Instr.Common K] : Novel K plan.primitiveWord := by
  unfold primitiveWord
  infer_instance

theorem wp_packedPrimitive (hprim : c.group.launch.primitive? id.index = some prim)
    (hpass : plan.passthrough = true) (hfault : c.faults ∨ plan.Packs c.group.launch prim)
    (hQ : ∀ v p' t' (w : ExportWord), Computed p t p' t' → Knows p' t' v .u32 w.bits.toUInt64 →
      (plan.Packs c.group.launch prim → w = plan.word prim) → Q v p' t') :
    Emit.wp c id (Emit.input .packedPrimitive) p Q L t := by
  have hpack : plan.Packs c.group.launch prim → ExportWord.pack
      (prim.vertices.toList.take c.group.launch.topology.vertexCount) none false = .ok (plan.word prim) := by
    intro h
    rw [h.topology hpass, take_vertices prim (vertexCount_bounds _).2]
    refine (ExportWord.pack_eq_ok (plan.length_indices prim) h.indices).trans ?_
    simp [word, edgeFlags, hpass]
  refine wp_input ?_
  simp only [LaneInput.eval, hprim]
  cases hr : ExportWord.pack (prim.vertices.toList.take c.group.launch.topology.vertexCount) none false with
  | error fault =>
    refine hfault.elim (fun h => h) fun h => ?_
    rw [hpack h] at hr
    cases hr
  | ok w =>
    intro v p' t' hc hk
    refine hQ v p' t' w hc hk fun h => ?_
    rw [hpack h] at hr
    cases hr
    rfl

/-- What a lane finds are the vertices of a primitive that can be packed. -/
theorem map_half_eq (h : plan.Packs launch prim) :
    ((List.range plan.config.topology.vertexCount).map fun i => (prim.half i).toUInt32) = plan.indices prim := by
  refine List.map_congr_left fun i hi => ?_
  have hbound := (vertexCount_bounds plan.config.topology).2
  have hi := List.mem_range.mp hi
  rw [← UInt32.toUInt64_inj, prim.half_toUInt32]
  refine prim.half_eq (by omega) fun j hj => ?_
  have hle := h.indices (prim.vertex j) (List.mem_map.mpr ⟨j, List.mem_range.mpr (by omega), rfl⟩)
  have hle' : (prim.vertex j).toNat ≤ 1023 := UInt32.le_iff_toNat_le.mp hle
  omega

theorem wp_primitiveWord (hprim : c.group.launch.primitive? id.index = some prim)
    (hfault : c.faults ∨ plan.Packs c.group.launch prim)
    (hQ : ∀ v p' t' (w : ExportWord), Computed p t p' t' → Knows p' t' v .u32 w.bits.toUInt64 →
      (plan.Packs c.group.launch prim → w = plan.word prim) → Q v p' t') : Emit.wp c id plan.primitiveWord p Q L t := by
  unfold primitiveWord
  by_cases hpass : plan.passthrough = true
  · simp only [hpass, ↓reduceIte]
    exact wp_packedPrimitive hprim hpass hfault hQ
  simp only [hpass, Bool.false_eq_true, ↓reduceIte]
  refine wp_bind (wp_mapM (τ := .u32) (a := prim.half)
    (fun i _ p₁ t₁ R _ hR => wp_inputVertex hprim hR) fun values p₁ t₁ h₁ hvalues => ?_)
  have hindices : (List.range plan.config.topology.vertexCount).map prim.half =
      ((List.range plan.config.topology.vertexCount).map fun i => (prim.half i).toUInt32).map (·.toUInt64) := by
    simp [prim.half_toUInt32, Function.comp_def]
  rw [hindices] at hvalues
  by_cases hstage : plan.stage = .vertex
  · -- Only here are edge flags in use.
    simp only [hstage, ↓reduceIte]
    refine wp_bind (wp_mapM (τ := .u32) (a := fun i => (prim.edgeFlags[(UInt8.ofNat i).toNat]?.getD false).toUInt64)
      (fun i _ p₂ t₂ R _ hR => wp_input ?_) fun flags p₂ t₂ h₂ hflags => ?_)
    · simp only [LaneInput.eval, hprim]
      exact hR
    · have hmap : (List.range plan.config.topology.vertexCount).map
          (fun i => (prim.edgeFlags[(UInt8.ofNat i).toNat]?.getD false).toUInt64) =
            (plan.edgeFlags prim).map (·.toUInt64) := by
        simp only [edgeFlags, hpass, hstage, ne_eq, not_true, decide_false, Bool.or_false,
          Bool.false_eq_true, ↓reduceIte, List.map_map]
        refine List.map_congr_left fun i hi => ?_
        have hbound := (vertexCount_bounds plan.config.topology).2
        have hi := List.mem_range.mp hi
        have hsmall : (UInt8.ofNat i).toNat = i := by
          rw [UInt8.toNat_ofNat']
          omega
        rw [hsmall]
        rfl
      rw [hmap] at hflags
      refine wp_packWord (hvalues.later h₂.toLater) (.of_knowsAll (τ := .u32) (by decide) hflags) (by simp)
        (fun _ => rfl) fun v p₃ t₃ h₃ hv => hQ v p₃ t₃ _ ((h₁.trans h₂).trans h₃) hv fun h => ?_
      rw [map_half_eq h]
      rfl
  · simp only [hstage, ↓reduceIte]
    refine wp_packWord hvalues (.nil p₁ t₁) (by simp) (fun _ => rfl)
      fun v p₂ t₂ h₂ hv => hQ v p₂ t₂ _ (h₁.trans h₂) hv fun h => ?_
    rw [map_half_eq h]
    simp [word, edgeFlags, hstage]

end VertexPlan

end Lowering

end PrimitiveShader
