import PrimitiveShader.Proofs.Lowering.Geometry.Emissions
import PrimitiveShader.Proofs.Lowering.Geometry.Room
import PrimitiveShader.Proofs.Lowering.Geometry.Rewriting
import PrimitiveShader.Proofs.Validity.Sites

/-!
# One stream more

A stream that a geometry program makes no use of may be switched on (`Config.withStream`). Then the program is
lowered again (`LowersGeometry.exists_withStream`), with the same components of the same vertices in the same
variables, wherever they are in memory. But as nothing is counted on the new stream, the vertices are compacted.
-/

namespace PrimitiveShader

namespace GeometryLimits

variable {stream : UInt8}

/-- The same limits with one stream more. -/
def withStream (limits : GeometryLimits) (stream : UInt8) : GeometryLimits :=
  { limits with activeStreams := limits.activeStreams ||| 1 <<< stream }

theorem eq_of_lt_four (h : stream < 4) : stream = 0 ∨ stream = 1 ∨ stream = 2 ∨ stream = 3 := by
  have hlt : stream.toNat < 4 := UInt8.lt_iff_toNat_lt.mp h
  simp only [← UInt8.toNat_inj]
  change stream.toNat = 0 ∨ stream.toNat = 1 ∨ stream.toNat = 2 ∨ stream.toNat = 3
  omega

/-- A mask with one bit more has that bit, and the bits that it had before. -/
theorem mask_or_ne_zero (mask : UInt8) {other : UInt8} (h : stream < 4) (hother : other < 4) :
    ((mask ||| 1 <<< stream) &&& 1 <<< other != 0) = ((mask &&& 1 <<< other != 0) || decide (other = stream)) := by
  have hdistrib : (mask ||| 1 <<< stream) &&& 1 <<< other =
      (mask &&& 1 <<< other) ||| (1 <<< stream &&& 1 <<< other) := by
    refine UInt8.toBitVec_inj.mp (BitVec.eq_of_getLsbD_eq fun i _ => ?_)
    simp only [UInt8.toBitVec_and, UInt8.toBitVec_or, BitVec.getLsbD_and, BitVec.getLsbD_or, Bool.and_or_distrib_right]
  have hbit : (1 <<< stream &&& 1 <<< other : UInt8) = if other = stream then 1 <<< other else 0 := by
    rcases eq_of_lt_four h with rfl | rfl | rfl | rfl <;> rcases eq_of_lt_four hother with rfl | rfl | rfl | rfl <;>
      decide
  have hone : (1 <<< other : UInt8) ≠ 0 := by
    rcases eq_of_lt_four hother with rfl | rfl | rfl | rfl <;> decide
  rw [hdistrib, hbit]
  by_cases heq : other = stream
  · simp [heq, bne_iff_ne, UInt8.or_eq_zero_iff, heq ▸ hone]
  · simp [heq]

/-- The new stream is in use, and so are those that were in use before. -/
theorem usesStream_withStream (limits : GeometryLimits) (h : stream < 4) (other : UInt8) :
    (limits.withStream stream).usesStream other = (limits.usesStream other || decide (other = stream)) := by
  unfold usesStream
  by_cases hother : other < 4
  · simp only [hother, decide_true, Bool.true_and]
    exact mask_or_ne_zero limits.activeStreams h hother
  · have hne : other ≠ stream := fun heq => hother (heq ▸ h)
    simp [hother, hne]

end GeometryLimits

/-- The same configuration with one stream more. -/
def Config.withStream (config : Config) (stream : UInt8) : Config :=
  { config with geometry := config.geometry.withStream stream }

namespace Lowering

variable {config : Config} {program : Program} {survey : Survey}

theorem GeometryConfig.withStream (h : GeometryConfig config) {stream : UInt8}
    (hstream : stream < 4) : GeometryConfig (config.withStream stream) where
  accepted := h.accepted
  vertices := h.vertices
  primitives := h.primitives
  stream := by
    change (config.geometry.withStream stream).usesStream 0
    rw [GeometryLimits.usesStream_withStream _ hstream, h.stream]
    rfl
  streams := by
    change (config.geometry.activeStreams ||| 1 <<< stream) >>> 4 = 0
    rw [UInt8.shiftRight_or, h.streams]
    rcases GeometryLimits.eq_of_lt_four hstream with rfl | rfl | rfl | rfl <;> decide
  limit := h.limit

/-! ## The survey -/

namespace Survey

variable {limits : GeometryLimits} {stream : UInt8}

/-- An instruction that has nothing to do with the new stream is seen as before. -/
theorem add_withStream (hstream : stream < 4) (survey : Survey) {instr : Instr} (hi : isOfStream stream instr = false) :
    survey.add program (limits.withStream stream) instr = survey.add program limits instr := by
  have huse {other : UInt8} (hne : decide (other = stream) = false) :
      (limits.withStream stream).usesStream other = limits.usesStream other := by
    rw [GeometryLimits.usesStream_withStream _ hstream, hne, Bool.or_false]
  cases instr with
  | intrinsic op =>
    cases op with
    | storeOutput slot value => simp only [add, huse hi]
    | geometry op =>
      cases op with
      | emitVertex other number before => simp only [add, huse hi]
      | endPrimitive other => rfl
      | setCounts other vertices primitives =>
        simp only [add, huse hi]
        rfl
    | _ => rfl
  | _ => rfl

/-- A program that makes no use of the new stream is seen as before. -/
theorem ofProgram_withStream (hstream : stream < 4)
    (hunused : Block.All program (fun instr => isOfStream stream instr = false) program.body) :
    ofProgram program (limits.withStream stream) = ofProgram program limits := by
  unfold ofProgram
  cases hplaced : program.placed with
  | error fault => rfl
  | ok pairs =>
    refine foldlM_except_congr (fun pair hpair survey => ?_) _
    obtain ⟨hv, hi⟩ := (Program.mem_mapM_instr hplaced).mp hpair
    exact add_withStream hstream survey (hunused pair.1 hv pair.2 hi)

/-- Nothing is counted on the new stream, so that it may fall short of the declared maximum. -/
theorem needsCompaction_withStream (hstream : stream < 4) (hinactive : limits.usesStream stream = false)
    (h : ofProgram program limits = .ok survey) : survey.needsCompaction (limits.withStream stream) = true := by
  have hmem : stream ∈ (limits.withStream stream).streams := GeometryPlan.mem_streams (by
    rw [GeometryLimits.usesStream_withStream _ hstream, decide_eq_true rfl, Bool.or_true])
  have hcounted : survey.isCounted stream = false := by
    refine List.any_eq_false.mpr fun call hcall heq => ?_
    have huse := (tallies_of_ofProgram h).1 call hcall
    rw [of_decide_eq_true heq, hinactive] at huse
    cases huse
  unfold needsCompaction
  rw [Bool.not_eq_true', List.all_eq_false]
  exact ⟨stream, hmem, by simp [hcounted]⟩

end Survey

/-! ## Plans -/

namespace GeometryPlan

variable {declared declared' : Program} {plan plan' : GeometryPlan}

variable (h : makePlan config survey program = .ok (plan, declared))
include h

/-- There is a region for the vertices if they have components. -/
theorem isSome_vertexAttributes :
    plan.layout.vertexAttributes.isSome = decide (plan.places * plan.stride ≠ 0) := by
  obtain ⟨rfl, size, -, -, hlayout⟩ := makePlan_eq_ok h
  obtain ⟨hnone, hsome⟩ := SharedLayout.slot_of_ofRequests hlayout (nodup_geometryRequests _ _ _ _)
    (mem_geometryRequests.mpr (.inr (.inl rfl)))
  change _ → plan.layout.vertexAttributes = none at hnone
  change _ → ∃ region, plan.layout.vertexAttributes = some region ∧ _ at hsome
  by_cases hzero : plan.places * plan.stride = 0
  · rw [hnone hzero, decide_eq_false (not_not.mpr hzero)]
    rfl
  · obtain ⟨region, hregion, -⟩ := hsome hzero
    rw [hregion, decide_eq_true hzero]
    rfl

/-- A plan with one stream more keeps the same components of the same vertices. -/
theorem resembles_withStream {stream : UInt8}
    (h' : makePlan (config.withStream stream) survey program = .ok (plan', declared')) :
    plan.Resembles plan' ∧ declared' = declared := by
  have hroom := isSome_vertexAttributes h
  have hroom' := isSome_vertexAttributes h'
  obtain ⟨hconfig, size, hdeclares, hstride, -⟩ := makePlan_eq_ok h
  obtain ⟨hconfig', size', hdeclares', hstride', -⟩ := makePlan_eq_ok h'
  obtain ⟨⟨hattributes, rfl⟩, hdeclared⟩ :
      (plan'.attributes = plan.attributes ∧ size' = size) ∧ declared' = declared := by
    simpa only [Prod.mk.injEq] using Except.ok.inj (hdeclares'.symm.trans hdeclares)
  have hstrides : plan'.stride = plan.stride := hstride'.trans hstride.symm
  have hplaces : plan'.places = plan.places := by
    unfold places
    rw [hconfig, hconfig']
    rfl
  rw [hplaces, hstrides, ← hroom] at hroom'
  refine ⟨⟨hattributes, hstrides, ?_, ?_, ?_, hroom'⟩, hdeclared⟩
  all_goals
    rw [hconfig, hconfig']
    rfl

end GeometryPlan

/-! ## The lowering -/

namespace LowersGeometry

variable {stream : UInt8}

open Emit

variable {declared lowered : Program} {plan : GeometryPlan}

variable (h : LowersGeometry config program survey plan declared lowered)
include h

theorem parts : ∃ p p', plan.front program.body { declared with body := [] } = .ok ((), p) ∧
      plan.finale (survey.needsCompaction config.geometry) p = .ok ((), p') ∧ program.Within p ∧ p.Grows p' ∧
      lowered = { p' with sharedSize := plan.layout.size } := by
  obtain ⟨emitted, hemits, hlowered⟩ := h.emits
  rw [GeometryPlan.wholeProgram_eq_front] at hemits
  obtain ⟨⟨⟩, p, hfront, hfinale⟩ := bind_eq_ok_iff.mp hemits
  have hgrows := Emit.grows _ hfront
  exact ⟨p, emitted, hfront, hfinale, h.keeps.grows.toWithin.trans ⟨hgrows.definitions, hgrows.vars⟩,
    Emit.grows _ hfinale, hlowered⟩

/-- A program that is lowered to a valid one sets no variable to the value of an instruction that other code stands
for. -/
theorem not_storesDropped
    (hvalid : lowered.validate = .ok ()) : ∀ v ∈ Block.values program.body, ¬ program.StoresDropped v := by
  rintro v hv ⟨var, data, hi, dropped, hdata, hdropped⟩
  have hplaced : v ∈ Block.values lowered.body := by
    rw [← List.count_pos_iff, h.count_eq hi]
    exact List.count_pos_iff.mpr hv
  obtain ⟨⟨instr, type⟩, hd⟩ := (Program.validate_eq_ok_iff.mp hvalid).1.supports v hplaced
  obtain rfl : instr = .storeVar var data :=
    Except.ok.inj ((Program.instr_of_definition? hd.definition).symm.trans (h.encloses.1.instr_eq hi))
  obtain ⟨hvisible, -⟩ := hd.operands data (List.mem_singleton_self data)
  have hgone := h.count_eq hdata
  rw [if_pos hdropped] at hgone
  exact List.count_eq_zero.mp hgone (hvisible.resolve_left id)

/-- A body that makes no use of the new stream is staged in the same way. -/
theorem admits_withStream {survey' : Survey} {plan' : GeometryPlan} {declared' lowered' : Program}
    (h' : LowersGeometry (config.withStream stream) program survey' plan' declared' lowered')
    (hscalar : Block.All program (·.isScalar) program.body) (hstream : stream < 4)
    (hunused : Block.All program (fun instr => isOfStream stream instr = false) program.body) :
    ∀ v ∈ Block.values program.body, GeometryPlan.Resembles.Admits plan plan' program v := by
  intro v hv
  obtain ⟨instr, hi⟩ := Program.exists_instr_of_validate h.valid hv
  refine ⟨instr, hi, hscalar v hv instr hi, fun other hother => ?_⟩
  have hne : other ≠ stream := by
    rintro rfl
    rw [hunused v hv instr hi] at hother
    cases hother
  rw [h.config_eq, h'.config_eq]
  change (config.geometry.withStream stream).usesStream other = _
  rw [GeometryLimits.usesStream_withStream _ hstream, decide_eq_false hne, Bool.or_false]

/-- With one stream more the program is lowered again, now with a compaction. -/
theorem exists_withStream
    (hvalid : lowered.validate = .ok ()) (hstream : stream < 4) (hinactive : config.geometry.usesStream stream = false)
    (hunused : Block.All program (fun instr => isOfStream stream instr = false) program.body) :
    ∃ result report plan', lowerGeometry (config.withStream stream) program = .ok result ∧
      result.outcome = .ok report ∧ report.compaction = true ∧
      LowersGeometry (config.withStream stream) program survey plan' declared result.program ∧
      plan.Resembles plan' := by
  have hsurvey : Survey.ofProgram program (config.withStream stream).geometry = .ok survey :=
    (Survey.ofProgram_withStream hstream hunused).trans h.surveyed
  obtain ⟨result, report, hlower, hok⟩ := exists_lowerGeometry (h.accepted.withStream hstream) h.stage h.valid hsurvey
    h.counted (h.not_storesDropped hvalid)
  obtain ⟨survey', plan', declared', h', hcompacts⟩ := lowerGeometry_eq_ok hlower hok
  cases hsurvey.symm.trans h'.surveyed
  obtain ⟨hplans, rfl⟩ := GeometryPlan.resembles_withStream h.planned h'.planned
  exact ⟨result, report, plan', hlower, hok,
    hcompacts.trans (Survey.needsCompaction_withStream hstream hinactive h.surveyed), h', hplans⟩

end LowersGeometry

end Lowering

end PrimitiveShader
