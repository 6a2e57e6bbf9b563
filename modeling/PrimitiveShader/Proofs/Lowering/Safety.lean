import PrimitiveShader.Lowering
import PrimitiveShader.Proofs.Lowering.Geometry.Run
import PrimitiveShader.Proofs.Lowering.Geometry.Validity
import PrimitiveShader.Proofs.Lowering.VertexSafety

/-!
# Lowered programs keep the rules of the hardware

Whatever a program of any stage computes, a run of what it is lowered to meets at all barriers, stays within
its share of the memory, has one writer for each byte between two barriers, and asks once for the space of its
exports. The only error that is left is the step limit.
-/

namespace PrimitiveShader.Lowering

variable {config : Config} {program : Program} {lowered : Lowered} {report : LoweringReport}
  {executable : Executable} {launch : Launch} {unit : ComputeUnit}

/-- The only error of a run is the step limit. The source does not touch the memory, wait at barriers, ask
for space or export by itself, but it may do anything else, also across lanes. -/
theorem lowered_run_keeps_protocol (hlower : program.lower config = .ok lowered) (hok : lowered.outcome = .ok report)
    (hexec : lowered.program.toExecutable = .ok (.ok executable)) (hplain : Block.All program (·.isPlain) program.body)
    (hvalid : launch.validate unit.wave = .ok ()) (hwave : unit.wave = config.wave)
    (hlanes : launch.numLanes ≤ config.maxWorkgroupSize) (hprimitives : program.stage = .geometry →
      launch.primitives.size ≤ config.geometry.maxInputPrimitives)
    (hrelay : program.stage = .vertex → config.exportPrimitiveId = true → RelaySafe config launch) :
    (ComputeUnit.run executable launch unit).Ends (fun error => ∃ wave, error = .stepLimit wave) True
      fun _ _ => True := by
  have hensures : (ComputeUnit.run executable launch unit).Ensures True fun _ _ => True := by
    unfold Program.lower at hlower
    split at hlower
    · obtain ⟨layout, h⟩ := lowerVertex_eq_ok hlower hok
      exact h.run_ensures hexec hplain hvalid hrelay
    · obtain ⟨layout, h⟩ := lowerVertex_eq_ok hlower hok
      exact h.run_ensures hexec hplain hvalid hrelay
    · rename_i hstage
      obtain ⟨survey, plan, declared, h, -⟩ := lowerGeometry_eq_ok hlower hok
      exact h.run_ensures hexec hplain hwave hvalid hlanes (hprimitives hstage)
    · cases hlower
      cases hok
  cases hrun : ComputeUnit.run executable launch unit with
  | done result after => trivial
  | faulted fault => trivial
  | failed error after =>
    rw [hrun] at hensures
    cases error with
    | stepLimit wave => exact ⟨wave, rfl⟩
    | _ => exact hensures.elim

/-- A geometry program that numbers its only vertex by the sum over all lanes, whatever that is. -/
def gatheringProgram : Program where
  stage := .geometry
  definitions := #[⟨.intrinsic (.input .localInvocationIndex), .u32⟩,
    ⟨.intrinsic (.crossLane (.reduceAdd ⟨0⟩)), .u32⟩,
    ⟨.intrinsic (.crossLane (.readFirstLane ⟨0⟩)), .u32⟩,
    ⟨.intrinsic (.storeOutput ⟨0, 0, 0⟩ ⟨0⟩), .void⟩,
    ⟨.intrinsic (.geometry (.emitVertex 0 ⟨1⟩ ⟨2⟩)), .void⟩,
    ⟨.intrinsic (.geometry (.setCounts 0 ⟨1⟩ ⟨2⟩)), .void⟩]
  body := [.instr ⟨0⟩, .instr ⟨1⟩, .instr ⟨2⟩, .instr ⟨3⟩, .instr ⟨4⟩, .instr ⟨5⟩]

theorem isPlain_gatheringProgram : Block.All gatheringProgram (·.isPlain) gatheringProgram.body := by
  intro v hv i hi
  have hmem : v ∈ [(⟨0⟩ : Value), ⟨1⟩, ⟨2⟩, ⟨3⟩, ⟨4⟩, ⟨5⟩] := hv
  simp only [List.mem_cons, List.not_mem_nil, or_false] at hmem
  rcases hmem with rfl | rfl | rfl | rfl | rfl | rfl <;> cases hi <;> rfl

/-- Two invocations on four lanes. -/
def twoTriangles : Launch where
  numLanes := 4
  primitives := #[.triangle 0 1 2 7, .triangle 2 1 3 9]

theorem lowered_run_keeps_protocol_gathering :
    ∃ lowered report executable, gatheringProgram.lower {} = .ok lowered ∧ lowered.outcome = .ok report ∧
      lowered.program.toExecutable = .ok (.ok executable) ∧
      (ComputeUnit.run executable twoTriangles { wave := .wave64, schedule := .reverse }).Ends
        (fun error => ∃ wave, error = .stepLimit wave) True fun _ _ => True := by
  obtain ⟨lowered, report, hgeometry, hok⟩ :=
    exists_lowerGeometry_of_checks {} gatheringProgram (by decide +kernel) (by decide +kernel) (by decide +kernel)
  obtain ⟨survey, plan, declared, h, -⟩ := lowerGeometry_eq_ok hgeometry hok
  have hlower : gatheringProgram.lower {} = .ok lowered := by rw [← hgeometry, Program.lower, h.stage]
  have hexec := h.toExecutable
  refine ⟨lowered, report, _, hlower, hok, hexec, ?_⟩
  exact lowered_run_keeps_protocol hlower hok hexec isPlain_gatheringProgram rfl rfl (by decide)
    (fun _ => by decide) nofun

end PrimitiveShader.Lowering
