import PrimitiveShader.Proofs.Lowering.Geometry.Program

/-!
# Lowered geometry programs

What a workgroup that runs a lowered geometry program exports (`LowersGeometry.run_finished`).
-/

namespace PrimitiveShader.Lowering

open Emit

theorem GeometryPlan.roomy_of_delivers {plan : GeometryPlan} {group : Workgroup} {view : Nat → UInt8}
    {live : Nat → Bool} {T : Nat → Thread} (hlanes : 1 ≤ group.launch.numLanes)
    (h : ∀ i < group.launch.numLanes, plan.Delivers group.launch view live i (T i)) : group.Roomy T := by
  refine ⟨_, (h 0 hlanes).space rfl, fun i hi => ⟨fun hne => ?_, fun hne => ?_⟩⟩
  · refine Decidable.by_contra fun hge => hne ?_
    rw [(h i hi).primitives, if_neg hge]
  · refine Decidable.by_contra fun hge => hne ?_
    rw [(h i hi).vertices, List.getElem?_eq_none (Nat.not_lt.mp hge)]
    rfl

namespace LowersGeometry

variable {config : Config} {program declared lowered : Program} {survey : Survey} {plan : GeometryPlan}
  {launch : Launch} {unit : ComputeUnit} {faults : Prop}

/-- The lowered program in its code. -/
abbrev executable (lowered : Program) : Executable := ⟨lowered, (Block.code 0 lowered.body).toArray⟩

variable (h : LowersGeometry config program survey plan declared lowered)
include h

theorem keeps : plan.Keeps program declared :=
  GeometryPlan.keeps_of_makePlan h.surveyed h.planned

theorem grows : declared.Within lowered ∧ lowered.stage = program.stage ∧ lowered.sharedSize = plan.layout.size := by
  obtain ⟨emitted, hemits, rfl⟩ := h.emits
  unfold GeometryPlan.wholeProgram at hemits
  have hgrows := Emit.grows _ hemits
  exact ⟨⟨hgrows.definitions, hgrows.vars⟩, hgrows.stage.trans h.keeps.grows.stage, rfl⟩

theorem toExecutable : lowered.toExecutable = .ok (.ok (executable lowered)) := by
  obtain ⟨emitted, hemits, rfl⟩ := h.emits
  have hwhole : program.Within { declared with body := [] } :=
    ⟨h.keeps.grows.definitions, h.keeps.grows.vars⟩
  have hsteady := (GeometryPlan.steady_wholeProgram h.valid _).steady hwhole hemits
  rw [List.length_nil, List.drop_zero] at hsteady
  exact Program.toExecutable_of_steady (hsteady.within .same)

/-- A launch within the limits, seen next to the source. -/
theorem suits (hplain : Block.All program (·.isPlain) program.body) (hvalid : launch.validate unit.wave = .ok ())
    (hprimitives : launch.primitives.size ≤ config.geometry.maxInputPrimitives)
    (hpanics : ∀ i < launch.primitives.size, ∀ fault,
      (unit.workgroup ⟨program, #[]⟩ launch).Invokes i (.faulted fault) → faults) :
    plan.Suits (unit.workgroup ⟨program, #[]⟩ launch) (unit.workgroup (executable lowered) launch) declared faults := by
  obtain ⟨hdeclares, hstage, hshare⟩ := h.grows
  have hsound := GeometryPlan.sound_of_makePlan h.accepted h.surveyed h.planned
  have hvalid := Launch.valid_of_validate hvalid
  refine ⟨⟨hsound, ?_, ?_, hshare, ⟨?_, hvalid.waves⟩, hvalid⟩, ⟨?_, hstage, rfl, rfl⟩, h.keeps, hdeclares,
    h.valid, hplain, hpanics⟩
  · rw [h.config_eq]
    exact hprimitives
  · rw [h.config_eq]
    exact h.accepted.primitives
  · change lowered.sharedSize < 2 ^ 64
    rw [hshare]
    exact Nat.lt_trans hsound.small (by decide)
  · exact h.keeps.grows.toWithin.trans hdeclares

/-- The waves of a launch within the limits are no more than planned for. -/
theorem numWaves_le (hwave : unit.wave = config.wave) (hlanes : launch.numLanes ≤ config.maxWorkgroupSize) :
    (unit.workgroup (executable lowered) launch).numWaves ≤ plan.config.maxWaves := by
  change launch.numWaves unit.wave ≤ plan.config.maxWaves
  rw [h.config_eq, Launch.numWaves, Config.maxWaves, hwave]
  exact Nat.div_le_div_right (by omega)

/-- The waves meet around the bodies and at most twice in the finale. -/
theorem barriers_le (hplain : Block.All program (·.isPlain) program.body) :
    Block.barriers lowered lowered.body ≤ Shared.maxBarriers := by
  obtain ⟨emitted, hemits, hlowered⟩ := h.emits
  obtain ⟨n, hn, hmeets⟩ := @GeometryPlan.meets_wholeProgram plan program h.valid hplain
    (survey.needsCompaction config.geometry)
  have hgrows := h.keeps.grows.toWithin
  have hcount := hmeets { declared with body := [] } () emitted lowered ⟨hgrows.definitions, hgrows.vars⟩ hemits
    (hlowered ▸ .same)
  have hbody : emitted.body = lowered.body := by rw [hlowered]
  rw [List.length_nil, List.drop_zero, hbody] at hcount
  exact hcount ▸ Nat.le_trans hn (by decide)

/-- A run exports what the invocations have staged. -/
theorem run_finished (hplain : Block.All program (·.isPlain) program.body) (hwave : unit.wave = config.wave)
    (hvalid : launch.validate unit.wave = .ok ()) (hlanes : launch.numLanes ≤ config.maxWorkgroupSize)
    (hprimitives : launch.primitives.size ≤ config.geometry.maxInputPrimitives)
    (hpanics : ∀ i < launch.primitives.size, ∀ fault,
      (unit.workgroup ⟨program, #[]⟩ launch).Invokes i (.faulted fault) → faults) :
    (ComputeUnit.run (executable lowered) launch unit).Ensures faults fun result _ =>
      ∃ T, plan.Finished (survey.needsCompaction config.geometry) (unit.workgroup ⟨program, #[]⟩ launch)
        (unit.workgroup (executable lowered) launch) T ∧
        (unit.workgroup (executable lowered) launch).Gathers T result := by
  have hsuits := h.suits hplain hvalid hprimitives hpanics
  obtain ⟨emitted, hemits, hlowered⟩ := h.emits
  have hplays := hsuits.wholeProgram_plays
    (fun hcompacts => GeometryPlan.compacts_of_makePlan h.accepted h.planned hcompacts)
    (h.numWaves_le hwave hlanes) () emitted hemits (hlowered ▸ .same)
  rw [List.length_nil, List.drop_zero] at hplays
  have hbody : emitted.body = lowered.body := by rw [hlowered]
  rw [hbody] at hplays
  refine ComputeUnit.run_of_plays hvalid rfl hplays (h.barriers_le hplain) (fun i _ => ⟨_, rfl⟩) ?_
  rintro T ⟨before, view, -, hT⟩
  exact GeometryPlan.roomy_of_delivers hsuits.launched.lanes hT

/-- A run ends well, or it hits the step limit or a fault of the source. -/
theorem run_ensures {executable : Executable} (hexec : lowered.toExecutable = .ok (.ok executable))
    (hplain : Block.All program (·.isPlain) program.body) (hwave : unit.wave = config.wave)
    (hvalid : launch.validate unit.wave = .ok ()) (hlanes : launch.numLanes ≤ config.maxWorkgroupSize)
    (hprimitives : launch.primitives.size ≤ config.geometry.maxInputPrimitives) :
    (ComputeUnit.run executable launch unit).Ensures True fun _ _ => True := by
  obtain ⟨rfl, -⟩ := Program.toExecutable_eq_ok hexec
  exact (h.run_finished hplain hwave hvalid hlanes hprimitives fun _ _ _ _ => trivial).mono fun _ _ _ _ => trivial

end LowersGeometry

end PrimitiveShader.Lowering
