import Mathlib.Algebra.Order.BigOperators.Group.List
import Mathlib.Algebra.Order.Ring.Nat
import Mathlib.Data.Fintype.Card
import Mathlib.Data.Fintype.Prod
import PrimitiveShader.Proofs.Lowering.Geometry.Plan

/-!
# Room for every geometry program

Sizes and offsets are 32-bit quantities, and a plan with a larger one is a fault. No geometry program comes near
that: it has no more outputs than there are slots on four streams (`SlotTable.length_le`), a component takes at most
eight bytes of a vertex and as many of padding, and there are at most 256 vertices. So every accepted
configuration has a plan for every program (`GeometryPlan.exists_makePlan`), and the plan has a text for the log.
-/

namespace PrimitiveShader

/-- A table has no more entries than there are slots on the streams. -/
theorem SlotTable.length_le {α : Type} {table : SlotTable α} (hs : table.Sorted)
    (hstream : ∀ entry ∈ table, entry.1.stream.toNat < 4) : table.length ≤ 2 ^ 18 := by
  let number (o : OutputSlot) : Fin UInt8.size × Fin UInt8.size × Fin 4 :=
    (o.slot.toFin, o.component.toFin, Fin.ofNat 4 o.stream.toNat)
  have hnumber : ((table.map (·.1)).map number).Nodup := by
    refine (nodup_slots hs).map_on fun o ho o' ho' heq => ?_
    have hlt : ∀ o ∈ table.map (·.1), o.stream.toNat < 4 := fun o ho => by
      obtain ⟨entry, hentry, rfl⟩ := List.mem_map.mp ho
      exact hstream entry hentry
    obtain ⟨slot, component, stream⟩ := o
    obtain ⟨slot', component', stream'⟩ := o'
    obtain ⟨hslot, hcomponent, hval⟩ : slot.toFin = slot'.toFin ∧ component.toFin = component'.toFin ∧
        Fin.ofNat 4 stream.toNat = Fin.ofNat 4 stream'.toNat := by
      simpa only [number, Prod.mk.injEq] using heq
    have hval : stream.toNat % 4 = stream'.toNat % 4 := congrArg Fin.val hval
    rw [Nat.mod_eq_of_lt (hlt _ ho), Nat.mod_eq_of_lt (hlt _ ho')] at hval
    cases UInt8.toFin_inj.mp hslot
    cases UInt8.toFin_inj.mp hcomponent
    cases UInt8.toNat_inj.mp hval
    rfl
  calc table.length = ((table.map (·.1)).map number).length := by rw [List.length_map, List.length_map]
    _ ≤ Fintype.card (Fin UInt8.size × Fin UInt8.size × Fin 4) := hnumber.length_le_card
    _ = 2 ^ 18 := by simp [UInt8.size]

namespace Lowering

/-! ## Plans -/

/-- The components of a vertex take at most sixteen bytes each, with the padding in front of them. -/
theorem exists_declareAttributes {types : SlotTable ScalarType} (hstaged : ∀ entry ∈ types, isStaged entry.2) :
    ∀ (size : Nat) (p : Program), size + 16 * types.length < 2 ^ 32 → ∃ attributes stop p',
      declareAttributes types size p = .ok ((attributes, stop), p') ∧ stop ≤ size + 16 * types.length := by
  induction types with
  | nil => exact fun size p _ => ⟨[], size, p, rfl, Nat.le_refl _⟩
  | cons entry rest ih =>
    intro size p hsize
    obtain ⟨slot, type⟩ := entry
    have htype : isStaged type := hstaged _ List.mem_cons_self
    have hbytes : type.bytes ≤ 8 := by cases type <;> decide
    have hpad := @alignUp_lt size type.bytes (bytes_pos_of_isStaged htype)
    rw [List.length_cons] at hsize ⊢
    obtain ⟨var, p₁, hvar⟩ : ∃ var p₁, Emit.createVar "gs_output" type p = .ok (var, p₁) := ⟨_, _, rfl⟩
    obtain ⟨attributes, stop, p', hrest, hstop⟩ := ih (fun e he => hstaged e (List.mem_cons_of_mem _ he))
      (alignUp size type.bytes + type.bytes) p₁ (by omega)
    refine ⟨⟨slot, type, alignUp size type.bytes, var⟩ :: attributes, stop, p', ?_, by omega⟩
    refine Emit.lift_bind_eq_ok_iff.mpr ⟨_, fits32_of_lt (by omega), ?_⟩
    refine Emit.lift_bind_eq_ok_iff.mpr ⟨_, fits32_of_lt (by omega), ?_⟩
    exact Emit.bind_eq_ok_iff.mpr ⟨_, _, hvar, Emit.bind_eq_ok_iff.mpr ⟨_, _, hrest, rfl⟩⟩

/-- The regions of a geometry program take few bytes beside those of the vertices. -/
theorem cost_geometryRequests_le (config : Config) (compacts : Bool) (candidates stride : Nat) :
    ((geometryRequests config compacts candidates stride).map LayoutRequest.cost).sum ≤
      candidates * stride + 5 * candidates + 25 := by
  have hif (c : Prop) [Decidable c] (request : LayoutRequest) :
      ((if c then [request] else []).map LayoutRequest.cost).sum ≤ request.cost := by
    split <;> simp
  have hwaves : (LayoutRequest.waveCounts config.maxWaves).cost ≤ 16 := by
    unfold LayoutRequest.cost LayoutRequest.size
    dsimp only [LayoutRequest.alignment]
    split <;> omega
  have hflags : ((config.geometry.streams.map (.primitiveFlags · candidates)).map LayoutRequest.cost).sum ≤
      4 * (1 + candidates) := by
    have hlength : config.geometry.streams.length ≤ 4 := List.length_filter_le _ _
    refine Nat.le_trans (List.sum_le_card_nsmul _ (1 + candidates) fun cost hcost => ?_) ?_
    · rw [List.map_map] at hcost
      obtain ⟨stream, -, rfl⟩ := List.mem_map.mp hcost
      exact Nat.le_refl _
    · rw [List.length_map, List.length_map]
      exact Nat.mul_le_mul_right _ hlength
  have hscratch := hif (compacts && 1 < config.maxWaves) (.waveCounts config.maxWaves)
  have hindex := hif (compacts = true) (.compactionIndex candidates)
  simp only [geometryRequests, List.map_append, List.sum_append, List.map_cons, List.map_nil, List.sum_cons,
    List.sum_nil] at hscratch hindex hflags ⊢
  simp only [LayoutRequest.cost, LayoutRequest.size, LayoutRequest.alignment] at *
  omega

namespace GeometryPlan

variable {config : Config} {survey : Survey} {program declared : Program} {plan : GeometryPlan}

/-- Every accepted configuration has a plan for every program. -/
theorem exists_makePlan (hconfig : GeometryConfig config)
    (hsurvey : Survey.ofProgram program config.geometry = .ok survey) :
    ∃ plan declared, makePlan config survey program = .ok (plan, declared) := by
  obtain ⟨hsorted, hused, -⟩ := Survey.covers_of_ofProgram hsurvey
  have hentry : ∀ entry ∈ survey.types, config.geometry.usesStream entry.1.stream ∧ isStaged entry.2 :=
    fun entry hentry => by
      obtain ⟨huse, hstaged, -⟩ := hused _ _ ((SlotTable.find?_eq_some_iff hsorted).mpr hentry)
      exact ⟨huse, hstaged⟩
  have hlength := SlotTable.length_le hsorted fun entry he => lt_of_usesStream (hentry entry he).1
  obtain ⟨attributes, size, declared, hdeclares, hsize⟩ :=
    exists_declareAttributes (fun entry he => (hentry entry he).2) 0 program (by omega)
  have hstride := @alignUp_lt size 4 (by decide)
  have hplaces : config.geometry.maxInputPrimitives * config.geometry.maxVerticesOut ≤ 256 :=
    Nat.le_trans hconfig.limit (Nat.min_le_left _ _)
  obtain ⟨candidates, hcandidates⟩ : ∃ n, n = config.geometry.maxInputPrimitives * config.geometry.maxVerticesOut :=
    ⟨_, rfl⟩
  rw [← hcandidates] at hplaces
  have hbytes : candidates * alignUp size 4 ≤ 256 * (16 * 2 ^ 18 + 4) := Nat.mul_le_mul hplaces (by omega)
  obtain ⟨layout, hlayout⟩ : ∃ layout, SharedLayout.ofRequests (geometryRequests config
      (survey.needsCompaction config.geometry) candidates (alignUp size 4)) = .ok layout := by
    have hcost := cost_geometryRequests_le config (survey.needsCompaction config.geometry) candidates (alignUp size 4)
    refine SharedLayout.exists_ofRequests (fun request hrequest => ?_) (by omega)
    rcases mem_geometryRequests.mp hrequest with ⟨rfl, -⟩ | rfl | ⟨stream, hstream, rfl⟩ | ⟨rfl, -⟩
    · simp [LayoutRequest.role]
    · simp [LayoutRequest.role]
    · have := lt_of_usesStream (List.mem_filter.mp hstream).2
      simp only [LayoutRequest.role]
      omega
    · simp [LayoutRequest.role]
  refine ⟨⟨config, layout, attributes, alignUp size 4⟩, declared, ?_⟩
  refine Emit.bind_eq_ok_iff.mpr ⟨_, _, hdeclares, ?_⟩
  refine Emit.lift_bind_eq_ok_iff.mpr ⟨_, fits32_of_lt (by omega), ?_⟩
  refine Emit.lift_bind_eq_ok_iff.mpr ⟨candidates, ?_, ?_⟩
  · rw [hcandidates]
    exact fits32_of_lt (by omega)
  · exact Emit.lift_bind_eq_ok_iff.mpr ⟨layout, hlayout, rfl⟩

/-- The records of a lowering can be written. -/
theorem Sound.exists_log (h : plan.Sound) (survey : Survey) (compacts : Bool) :
    ∃ log, geometryLog plan survey compacts = .ok log := by
  obtain ⟨text, htext⟩ := SharedLayout.exists_text h.regions h.small
  unfold geometryLog
  rw [htext]
  exact ⟨_, rfl⟩

end GeometryPlan

end Lowering

end PrimitiveShader
