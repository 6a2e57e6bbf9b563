import PrimitiveShader.Proofs.Lowering.VertexRefinement
import PrimitiveShader.Proofs.Lowering.VertexSafety

/-!
# Primitive numbers reach their provoking vertices

A vertex program that exports primitive numbers hands them over in shared memory. The lane of a primitive leaves
the number at the place of the provoking vertex (`VertexPlan.Noted`), all waves meet once
(`LowersVertex.barriers_eq`), and the lane of that vertex exports what it finds
(`run_lowerVertex_relays_numbers`).
-/

namespace PrimitiveShader.Lowering

open Emit

/-! ## The relay of a lowered program -/

namespace LowersVertex

variable {config : Config} {program lowered : Program} {layout : SharedLayout} {launch : Launch} {unit : ComputeUnit}

variable (h : LowersVertex config program layout lowered)
include h

variable (hrelays : relaysIds config program = true)
include hrelays

theorem exists_relay : ∃ relay, h.plan.relay = some relay := by
  have hlayout := h.regions
  rw [vertexLayout, if_pos hrelays] at hlayout
  obtain ⟨-, hsome⟩ := SharedLayout.slot_of_ofRequests hlayout (by simp) List.mem_cons_self
  have hvertices := (Config.validate_eq_ok_iff.mp h.accepted).2.2.1
  obtain ⟨relay, hrelay, -⟩ := hsome (by simp only [LayoutRequest.size]; omega)
  exact ⟨relay, hrelay⟩

/-- The words of the primitives can be packed. -/
theorem packs_of_relaySafe (hvalid : launch.Valid unit.wave) (hsafe : RelaySafe config launch)
    (i : Nat) (prim : InputPrimitive) (hprim : launch.primitive? i = some prim) : h.plan.Packs launch prim := by
  refine ⟨fun hpass => ?_, fun x hx => ?_⟩
  · simp [plan, VertexPlan.ofProgram, hrelays] at hpass
  · have hlt := hsafe.indices prim (Array.mem_of_getElem? hprim) x
      (by rwa [VertexPlan.take_vertices prim (VertexPlan.vertexCount_bounds _).2])
    have hvertices := hvalid.vertices
    have hlanes := hvalid.numLanes_le
    have hmask : ExportWord.indexMask.toNat = 1023 := rfl
    exact UInt32.le_iff_toNat_le.mpr (by omega)

end LowersVertex

/-- The number of a primitive fits its place. -/
theorem toUInt64_and_lowOnes (x : UInt32) : x.toUInt64 &&& Bits.lowOnes 32 = x.toUInt64 :=
  show x.toUInt64 &&& ScalarType.u32.mask = _ from
    ScalarType.and_mask_eq (by rw [UInt32.toNat_toUInt64]; exact x.toNat_lt)

variable {config : Config} {program : Program} {launch : Launch} {unit : ComputeUnit}

/-- A lowered vertex program that exports primitive numbers is ready to run, and its waves meet once. Each input
vertex is exported once, with the outputs of the source and a number. For the provoking vertex of a primitive
that is the number of the primitive. -/
theorem run_lowerVertex_relays_numbers {result : Lowered} {report : LoweringReport}
    (hlower : lowerVertex config program = .ok result) (hok : result.outcome = .ok report)
    (hstage : program.stage = .vertex) (hexport : config.exportPrimitiveId = true)
    (hbody : Block.All program (·.isLaneLocal) program.body)
    (hlaunch : launch.validate unit.wave = .ok ()) (hsafe : RelaySafe config launch) :
    ∃ executable, result.program.toExecutable = .ok (.ok executable) ∧ (ComputeUnit.run executable launch unit).Ensures
        (∃ i < launch.inputVertices, ∃ fault, (unit.workgroup ⟨program, #[]⟩ launch).Invokes i (.faulted fault))
        fun output _ => output.barriers = 1 ∧ ∃ (final : Nat → Invocation) (number : Nat → UInt64),
            (∀ i < launch.inputVertices, ∀ ending,
              (unit.workgroup ⟨program, #[]⟩ launch).Invokes i ending ↔ ending = .next (final i)) ∧
            output.vertices = ((List.range launch.inputVertices).map fun i =>
              (i, (final i).lane.outputs.insert primitiveIdSlot (number i))).toArray ∧
            ∀ prim ∈ launch.primitives, (prim.vertex config.provokingIndex).toNat < launch.inputVertices ∧
                number (prim.vertex config.provokingIndex).toNat = prim.id.toUInt64 := by
  obtain ⟨layout, h⟩ := lowerVertex_eq_ok hlower hok
  have hrelays : relaysIds config program = true := by simp [relaysIds, hstage, hexport]
  have hvalid := Launch.valid_of_validate hlaunch
  have hstays : Block.All program Instr.Stays program.body :=
    fun v hv i hi => stays_of_isLaneLocal (hbody v hv i hi)
  have hsuits : h.plan.Suits _ _ (∃ i < launch.inputVertices, ∃ fault,
      (unit.workgroup ⟨program, #[]⟩ launch).Invokes i (.faulted fault)) :=
    h.suits hstays hlaunch (fun i hi fault hinv => ⟨i, hi, fault, hinv⟩)
      (.inr (h.packs_of_relaySafe hrelays hvalid hsafe)) fun relay hrelay => h.relays (fun _ _ => hsafe) hvalid hrelay
  refine ⟨_, h.toExecutable hstays, (h.run_exports hsuits hlaunch).mono ?_⟩
  rintro output _ - ⟨T, hT, hgathers⟩
  obtain ⟨final, vertex, hfinal, hvertex, hvertices⟩ := h.lanewise_vertices hbody hvalid.vertices hT
  have hnumbers : ∀ i, ∃ a, i < launch.inputVertices → h.plan.IsNumber (unit.workgroup ⟨program, #[]⟩ launch)
      (Workgroup.laneId (unit.workgroup ⟨program, #[]⟩ launch) i) a ∧
        vertex i = (final i).lane.outputs.insert primitiveIdSlot a := by
    intro i
    by_cases hi : i < launch.inputVertices
    · have hv := hvertex i hi
      rw [VertexPlan.IsVertex, if_pos (show h.plan.config.exportPrimitiveId = true from hexport)] at hv
      exact hv.imp fun _ ha _ => ha
    · exact ⟨0, fun hlt => absurd hlt hi⟩
  obtain ⟨number, hnumber⟩ := Classical.axiomOfChoice hnumbers
  refine ⟨hgathers.barriers.trans ((h.barriers_eq hstays).trans (if_pos (Option.isSome_iff_exists.mpr (h.exists_relay hrelays)))), final, number, hfinal,
    hgathers.vertices.trans (hvertices.trans (congrArg _ (List.map_congr_left fun i hi => ?_))), fun prim hprim => ?_⟩
  · exact congrArg _ (hnumber i (List.mem_range.mp hi)).2
  · obtain ⟨j, hj⟩ := Array.mem_iff_getElem?.mp hprim
    obtain ⟨hhalf, hlt⟩ := hsafe.half_provoking hvalid hj
    obtain ⟨relay, hr⟩ := h.exists_relay hrelays
    refine ⟨hlt, ((hnumber _ hlt).1.relayed j prim (by simp [hr]) hj ?_).trans ?_⟩
    · change (prim.half config.provokingIndex).toNat = _
      rw [hhalf, UInt32.toNat_toUInt64]
      rfl
    · have hvertex : (unit.workgroup ⟨program, #[]⟩ launch).program.stage = .vertex := hstage
      rw [VertexPlan.primitiveIdOf_vertex hvertex hj, toUInt64_and_lowOnes]

/-- Two triangles, of which the second ends in another wave. -/
def crossingTriangles : Launch where
  numLanes := 34
  inputVertices := 34
  primitives := #[.triangle 0 1 2 7, .triangle 2 1 33 9]

/-- The last vertex of a triangle carries its number. -/
def lastConfig : Config where
  wave := .wave32
  provokingVertex := .last
  exportPrimitiveId := true

theorem relaySafe_crossingTriangles : RelaySafe lastConfig crossingTriangles where
  vertices := by decide
  indices := by simp [crossingTriangles, InputPrimitive.triangle, lastConfig, Topology.vertexCount]
  provoking := by decide

/-- The two numbers arrive, the second one in the other wave. -/
theorem run_lowerVertex_relays_numbers_fork :
    ∃ result report, lowerVertex lastConfig forkProgram = .ok result ∧
      result.outcome = .ok report ∧ RelaySafe lastConfig crossingTriangles ∧
      ∃ executable, result.program.toExecutable = .ok (.ok executable) ∧
        (ComputeUnit.run executable crossingTriangles { wave := .wave32, schedule := .reverse }).Ensures
          (∃ i < 34, ∃ fault, (ComputeUnit.workgroup { wave := .wave32, schedule := .reverse } ⟨forkProgram, #[]⟩
            crossingTriangles).Invokes i (.faulted fault)) fun output _ =>
          output.barriers = 1 ∧ output.vertices.size = 34 ∧
          (∃ outputs : SlotTable UInt64, output.vertices[2]? = some (2, outputs.insert primitiveIdSlot 7)) ∧
          ∃ outputs : SlotTable UInt64, output.vertices[33]? = some (33, outputs.insert primitiveIdSlot 9) := by
  obtain ⟨result, report, hlower, hok⟩ :=
    exists_lowerVertex (show checkVertex lastConfig forkProgram = .ok () by decide +kernel)
  obtain ⟨executable, hexec, hrun⟩ := run_lowerVertex_relays_numbers hlower hok rfl rfl isLaneLocal_forkProgram
    (show crossingTriangles.validate (ComputeUnit.wave { wave := .wave32, schedule := .reverse }) = .ok () from rfl)
    relaySafe_crossingTriangles
  refine ⟨result, report, hlower, hok, relaySafe_crossingTriangles, executable, hexec, hrun.mono ?_⟩
  rintro output _ - ⟨hbarriers, final, number, -, hvertices, hnumber⟩
  obtain ⟨-, hseven⟩ := hnumber (.triangle 0 1 2 7) (by simp [crossingTriangles])
  obtain ⟨-, hnine⟩ := hnumber (.triangle 2 1 33 9) (by simp [crossingTriangles])
  refine ⟨hbarriers, by simp [hvertices, crossingTriangles], ⟨(final 2).lane.outputs, ?_⟩,
    (final 33).lane.outputs, ?_⟩
  · rw [hvertices, ← show number 2 = 7 from hseven]
    rfl
  · rw [hvertices, ← show number 33 = 9 from hnine]
    rfl

end PrimitiveShader.Lowering
