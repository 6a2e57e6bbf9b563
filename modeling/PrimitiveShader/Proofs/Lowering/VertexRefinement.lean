import PrimitiveShader.Proofs.Lowering.VertexAcceptance
import PrimitiveShader.Proofs.Lowering.VertexRun

/-!
# Lowered vertex and tessellation programs do what their source does

A workgroup that runs a lowered program exports one vertex for each input vertex, with the outputs of
the invocation of the source on that lane, and one word for each input primitive. It does so whatever
the control flow of the source, whichever way the words are made, and whatever the schedule, unless the
step limit is hit or the source itself faults (`run_lowerVertex_ensures`).
-/

namespace PrimitiveShader.Lowering

/-- What lane `i` exports as its vertex when the source has left `outputs`: the number of the patch is
added if that is asked for. -/
def vertexExport (config : Config) (launch : Launch) (i : Nat) (outputs : SlotTable UInt64) :
    SlotTable UInt64 :=
  if config.exportPrimitiveId then
    outputs.insert primitiveIdSlot (launch.patchIds[i]?.getD 0).toUInt64
  else outputs

/-- The word of an input primitive: the first vertices, and the edge flags of vertex programs unless the
word comes from the hardware. -/
def primitiveExport (config : Config) (stage : Stage) (prim : InputPrimitive) :
    Except Fault ExportWord :=
  ExportWord.pack (prim.vertices.toList.take config.topology.vertexCount)
    (if stage = .vertex ∧ ¬ config.considerPassthrough then
      some (prim.edgeFlags.toList.take config.topology.vertexCount) else none) false

variable {config : Config} {program lowered : Program} {layout : SharedLayout} {launch : Launch}
  {unit : ComputeUnit} {faults : Prop}

/-- Instructions of one lane may stay in a lowered body. -/
theorem stays_of_isLaneLocal {instr : Instr} (h : instr.isLaneLocal) : instr.Stays := by
  cases instr with
  | intrinsic op => cases op <;> first | exact ⟨rfl, rfl⟩ | cases h
  | _ => exact ⟨rfl, rfl⟩

namespace LowersVertex

variable {T : Nat → Thread}

variable (h : LowersVertex config program layout lowered)
include h

section

variable (hid : program.stage = .vertex → config.exportPrimitiveId = false)
include hid

/-- Without relay the memory stays unused. -/
theorem layout_eq : layout = {} := by
  have hregions := h.regions
  unfold vertexLayout at hregions
  rw [if_neg] at hregions
  · cases hregions
    rfl
  · simp only [relaysIds, Bool.and_eq_true, decide_eq_true_eq, not_and, Bool.not_eq_true]
    exact hid

/-- The hardware makes the words if that is considered. -/
theorem passthrough_eq : h.plan.passthrough = config.considerPassthrough := by
  have hrelays : relaysIds config program = false := by
    rw [relaysIds, Bool.and_eq_false_imp]
    simpa using hid
  simp [VertexPlan.ofProgram, hrelays]

/-- The word of the plan is the one of the primitive. -/
theorem primitiveExport_eq {prim : InputPrimitive}
    (hpacks : h.plan.Packs launch prim) : primitiveExport config program.stage prim = .ok (h.plan.word prim) := by
  have hcount := (VertexPlan.vertexCount_bounds config.topology).2
  have hflags : h.plan.edgeFlags prim =
      if program.stage = .vertex ∧ ¬ config.considerPassthrough then
        prim.edgeFlags.toList.take config.topology.vertexCount else [] := by
    unfold VertexPlan.edgeFlags
    rw [h.passthrough_eq hid, VertexPlan.take_toList prim.edgeFlags false hcount]
    cases config.considerPassthrough <;> by_cases hs : program.stage = .vertex <;> simp [VertexPlan.ofProgram, hs]
  rw [← h.plan.pack_eq_word hpacks, hflags]
  unfold primitiveExport VertexPlan.indices
  rw [VertexPlan.take_vertices prim hcount]
  split <;> rfl

/-- The vertex of the plan is the one of the lane. -/
theorem eq_vertexExport {i : Nat} {outputs vertex : SlotTable UInt64}
    (hvertex : h.plan.IsVertex (unit.workgroup ⟨program, #[]⟩ launch)
      (Workgroup.laneId (unit.workgroup ⟨program, #[]⟩ launch) i) outputs vertex) :
    vertex = vertexExport config launch i outputs := by
  unfold VertexPlan.IsVertex at hvertex
  unfold vertexExport
  rw [show h.plan.config = config from rfl] at hvertex
  by_cases hexport : config.exportPrimitiveId = true
  · have htess : program.stage = .tessEval :=
      h.stage.resolve_left fun hv => absurd hexport (by simp [hid hv])
    rw [if_pos hexport] at hvertex ⊢
    obtain ⟨a, ha, rfl⟩ := hvertex
    have hnone : h.plan.relay = none := by
      simp only [plan, VertexPlan.ofProgram, h.layout_eq hid]
    have hstage : (unit.workgroup ⟨program, #[]⟩ launch).program.stage = .tessEval := htess
    rw [ha.own hnone, VertexPlan.primitiveIdOf, hstage]
    rfl
  · rwa [if_neg hexport] at hvertex ⊢

end

theorem lanewise_vertices (hbody : Block.All program (·.isLaneLocal) program.body)
    (hle : launch.inputVertices ≤ launch.numLanes)
    (hT : ∀ i < launch.numLanes, h.plan.Exports (unit.workgroup ⟨program, #[]⟩ launch) i (T i)) :
    ∃ (final : Nat → Invocation) (vertex : Nat → SlotTable UInt64), (∀ i < launch.inputVertices, ∀ ending,
        (unit.workgroup ⟨program, #[]⟩ launch).Invokes i ending ↔ ending = .next (final i)) ∧
      (∀ i < launch.inputVertices, h.plan.IsVertex (unit.workgroup ⟨program, #[]⟩ launch)
        (Workgroup.laneId (unit.workgroup ⟨program, #[]⟩ launch) i) (final i).lane.outputs (vertex i)) ∧
      lanewise launch.numLanes (fun i => (T i).vertices) =
        ((List.range launch.inputVertices).map fun i => (i, vertex i)).toArray := by
  have hscalar : Block.All program (·.isScalar) program.body :=
    fun v hv i hi => Instr.isScalar_of_isLaneLocal (hbody v hv i hi)
  have hlane : ∀ i, ∃ lane : Invocation × SlotTable UInt64, i < launch.inputVertices →
      (unit.workgroup ⟨program, #[]⟩ launch).Invokes i (.next lane.1) ∧
        h.plan.IsVertex (unit.workgroup ⟨program, #[]⟩ launch)
          (Workgroup.laneId (unit.workgroup ⟨program, #[]⟩ launch) i) lane.1.lane.outputs lane.2 ∧
        (T i).vertices = [lane.2] := by
    intro i
    by_cases hi : i < launch.inputVertices
    · obtain ⟨inv, vertex, hlane⟩ := (if_pos hi).mp (hT i (by omega)).vertices
      exact ⟨(inv, vertex), fun _ => hlane⟩
    · exact ⟨(.start program, []), fun hlt => absurd hlt hi⟩
  obtain ⟨lane, hlane⟩ := Classical.axiomOfChoice hlane
  refine ⟨fun i => (lane i).1, fun i => (lane i).2, fun i hi ending => ⟨fun hending => ?_, ?_⟩,
    fun i hi => (hlane i hi).2.1, lanewise_singletons hle (fun i hi => (hlane i hi).2.2)
    fun i hi hge => (hT i hi).vertices.of_le hge⟩
  · exact Block.Runs.unique hending hscalar (hlane i hi).1
  · rintro rfl
    exact (hlane i hi).1

theorem lanewise_primitives (hid : program.stage = .vertex → config.exportPrimitiveId = false)
    (hpacks : ∀ i prim, launch.primitive? i = some prim → h.plan.Packs launch prim)
    (hle : launch.primitives.size ≤ launch.numLanes)
    (hT : ∀ i < launch.numLanes, h.plan.Exports (unit.workgroup ⟨program, #[]⟩ launch) i (T i)) :
    ∃ words : Nat → ExportWord, (∀ i prim, launch.primitive? i = some prim →
        primitiveExport config program.stage prim = .ok (words i)) ∧
      lanewise launch.numLanes (fun i => (T i).primitives) =
        ((List.range launch.primitives.size).map fun i => (i, words i)).toArray := by
  have hlane : ∀ i, ∃ w : ExportWord, ∀ prim, launch.primitive? i = some prim →
      primitiveExport config program.stage prim = .ok w ∧ (T i).primitives = [w] := by
    intro i
    cases hprim : launch.primitive? i with
    | none => exact ⟨⟨0⟩, nofun⟩
    | some prim =>
      have hlt := (Array.getElem?_eq_some_iff.mp hprim).1
      have hwords : h.plan.Words launch i (T i).primitives := (hT i (by omega)).primitives
      rw [VertexPlan.Words, hprim] at hwords
      obtain ⟨w, hw, heq⟩ := hwords
      refine ⟨w, fun prim' hprim' => ?_⟩
      cases hprim'
      have hpack := hpacks i prim hprim
      exact ⟨by rw [h.primitiveExport_eq hid hpack, hw hpack], heq⟩
  obtain ⟨words, hwords⟩ := Classical.axiomOfChoice hlane
  refine ⟨words, fun i prim hprim => (hwords i prim hprim).1, lanewise_singletons hle (fun i hi => ?_) ?_⟩
  · exact (hwords i _ (Array.getElem?_eq_getElem hi)).2
  · intro i hi hge
    have hnone : h.plan.Words launch i (T i).primitives := (hT i hi).primitives
    rwa [VertexPlan.Words, show launch.primitive? i = none from Array.getElem?_eq_none hge] at hnone

end LowersVertex

/-- A lowered vertex or tessellation program is ready to run. Its run ends with one vertex per input
vertex and one word per input primitive, in the order of the lanes and in a space of just that size. The
source has exactly one ending on each of these lanes, and the vertex carries the outputs it leaves. -/
theorem run_lowerVertex_ensures {result : Lowered} {report : LoweringReport}
    (hlower : lowerVertex config program = .ok result) (hok : result.outcome = .ok report)
    (hid : program.stage = .vertex → config.exportPrimitiveId = false)
    (hbody : Block.All program (·.isLaneLocal) program.body) (hlaunch : launch.validate unit.wave = .ok ())
    (hindices : ∀ prim ∈ launch.primitives,
      ∀ x ∈ prim.vertices.toList.take config.topology.vertexCount, x ≤ ExportWord.indexMask)
    (htopology : config.considerPassthrough → launch.topology = config.topology) :
    ∃ executable, result.program.toExecutable = .ok (.ok executable) ∧ (ComputeUnit.run executable launch unit).Ensures
        (∃ i < launch.inputVertices, ∃ fault, (unit.workgroup ⟨program, #[]⟩ launch).Invokes i (.faulted fault))
        fun output _ =>
          output.allocation = some ⟨launch.inputVertices, launch.primitives.size⟩ ∧
          (∃ final : Nat → Invocation, (∀ i < launch.inputVertices, ∀ ending,
              (unit.workgroup ⟨program, #[]⟩ launch).Invokes i ending ↔ ending = .next (final i)) ∧
            output.vertices = ((List.range launch.inputVertices).map fun i =>
              (i, vertexExport config launch i (final i).lane.outputs)).toArray) ∧
          ∃ words : Nat → ExportWord, (∀ i prim, launch.primitive? i = some prim →
              primitiveExport config program.stage prim = .ok (words i)) ∧
            output.primitives = ((List.range launch.primitives.size).map fun i =>
              (i, words i)).toArray := by
  obtain ⟨layout, h⟩ := lowerVertex_eq_ok hlower hok
  have hstays : Block.All program Instr.Stays program.body :=
    fun v hv i hi => stays_of_isLaneLocal (hbody v hv i hi)
  have hpacks : ∀ i prim, launch.primitive? i = some prim → h.plan.Packs launch prim := by
    intro i prim hprim
    refine ⟨fun hpass => htopology (h.passthrough_eq hid ▸ hpass), fun x hx => ?_⟩
    have hmem : prim ∈ launch.primitives := Array.mem_of_getElem? hprim
    refine hindices prim hmem x ?_
    rwa [VertexPlan.take_vertices prim (VertexPlan.vertexCount_bounds _).2]
  have hsuits : h.plan.Suits _ _ (∃ i < launch.inputVertices, ∃ fault,
      (unit.workgroup ⟨program, #[]⟩ launch).Invokes i (.faulted fault)) :=
    h.suits hstays hlaunch (fun i hi fault hinv => ⟨i, hi, fault, hinv⟩) (.inr hpacks) fun relay hrelay => by
        rw [h.layout_eq hid] at hrelay
        cases hrelay
  have hvalid := Launch.valid_of_validate hlaunch
  refine ⟨_, h.toExecutable hstays, (h.run_exports hsuits hlaunch).mono ?_⟩
  rintro output _ - ⟨T, hT, hgathers⟩
  refine ⟨hgathers.allocation.trans ((hT 0 hvalid.lanes).space rfl), ?_, ?_⟩
  · obtain ⟨final, vertex, hfinal, hvertex, hvertices⟩ := h.lanewise_vertices hbody hvalid.vertices hT
    refine ⟨final, hfinal, hgathers.vertices.trans (hvertices.trans (congrArg _ (List.map_congr_left ?_)))⟩
    exact fun i hi => congrArg _ (h.eq_vertexExport hid (hvertex i (List.mem_range.mp hi)))
  · rw [hgathers.primitives]
    exact h.lanewise_primitives hid hpacks hvalid.primitives hT

/-- A vertex program with a branch and a loop. -/
def forkProgram : Program where
  stage := .vertex
  definitions := #[⟨.intrinsic (.input .localInvocationIndex), .u32⟩, ⟨.const .u32 2, .u32⟩,
    ⟨.binary .lt ⟨0⟩ ⟨1⟩, .bool⟩, ⟨.intrinsic (.storeOutput ⟨0, 0, 0⟩ ⟨0⟩), .void⟩,
    ⟨.intrinsic (.storeOutput ⟨1, 0, 0⟩ ⟨1⟩), .void⟩]
  body := [.instr ⟨0⟩, .instr ⟨1⟩, .instr ⟨2⟩,
    .branch ⟨2⟩ [.instr ⟨3⟩] [.loop [.instr ⟨4⟩, .leave]]]

theorem isLaneLocal_forkProgram : Block.All forkProgram (·.isLaneLocal) forkProgram.body := by
  intro v hv i hi
  have hmem : v ∈ [(⟨0⟩ : Value), ⟨1⟩, ⟨2⟩, ⟨3⟩, ⟨4⟩] := hv
  simp only [List.mem_cons, List.not_mem_nil, or_false] at hmem
  rcases hmem with rfl | rfl | rfl | rfl | rfl <;> cases hi <;> rfl

/-- One triangle of three vertices. -/
def oneTriangle : Launch where
  numLanes := 3
  inputVertices := 3
  primitives := #[.triangle 0 1 2 7]

/-- The first two lanes store their number, the third takes the loop. -/
theorem invokes_forkProgram : ∀ i < 3, ∃ inv,
    (ComputeUnit.workgroup { wave := .wave64 } ⟨forkProgram, #[]⟩ oneTriangle).Invokes i (.next inv) ∧
      inv.lane.outputs = if i < 2 then [(⟨0, 0, 0⟩, UInt64.ofNat i)] else [(⟨1, 0, 0⟩, 2)] := by
  intro i hi
  obtain rfl | rfl | rfl : i = 0 ∨ i = 1 ∨ i = 2 := by omega
  iterate 2
    · refine ⟨?_, ?run, ?_⟩
      case run =>
        iterate 3 refine .instr rfl (.scalar rfl) ?_
        refine .branch rfl ?_ (.nil _)
        refine .instr rfl (.scalar rfl) ?_
        exact .nil _
      rfl
  · refine ⟨?_, ?run, ?_⟩
    case run =>
      iterate 3 refine .instr rfl (.scalar rfl) ?_
      refine .branch rfl ?_ (.nil _)
      refine .loop_left ?_ (.nil _)
      refine .instr rfl (.scalar rfl) ?_
      exact .leave _
    rfl

theorem runsToEnd_forkProgram : runsToEnd (lowerVertex {} forkProgram) oneTriangle { wave := .wave64 } = true := by
  decide +kernel

theorem run_lowerVertex_ensures_fork :
    ∃ result report, lowerVertex {} forkProgram = .ok result ∧ result.outcome = .ok report ∧
      ∃ executable, result.program.toExecutable = .ok (.ok executable) ∧ ∃ output after,
        ComputeUnit.run executable oneTriangle { wave := .wave64 } = .done output after ∧
        output.allocation = some ⟨3, 1⟩ ∧
        output.vertices = #[(0, [(⟨0, 0, 0⟩, 0)]), (1, [(⟨0, 0, 0⟩, 1)]), (2, [(⟨1, 0, 0⟩, 2)])] ∧
        output.primitives = #[(0, ⟨0x200400⟩)] := by
  obtain ⟨result, report, hlower, hok⟩ :=
    exists_lowerVertex (show checkVertex {} forkProgram = .ok () by decide +kernel)
  obtain ⟨executable, hexec, hrun⟩ := run_lowerVertex_ensures hlower hok (fun _ => rfl)
    isLaneLocal_forkProgram (show oneTriangle.validate (ComputeUnit.wave { wave := .wave64 }) = .ok ()
      from rfl) (by simp [oneTriangle, InputPrimitive.triangle, Topology.vertexCount, ExportWord.indexMask]) nofun
  obtain ⟨output, after, hdone, hspace, ⟨final, hfinal, hvertices⟩, words, hwords, hprimitives⟩ :=
    exists_of_runsToEnd runsToEnd_forkProgram hlower hexec hrun
  refine ⟨result, report, hlower, hok, executable, hexec, output, after, hdone, hspace, ?_, ?_⟩
  · have houtputs (i : Nat) (hi : i < 3) : (final i).lane.outputs =
        if i < 2 then [(⟨0, 0, 0⟩, UInt64.ofNat i)] else [(⟨1, 0, 0⟩, 2)] := by
      obtain ⟨inv, hinv, houtputs⟩ := invokes_forkProgram i hi
      cases (hfinal i hi _).mp hinv
      exact houtputs
    rw [hvertices]
    change #[_, _, _] = _
    simp [vertexExport, houtputs]
  · have hword : words 0 = ⟨0x200400⟩ :=
      Except.ok.inj ((hwords 0 (.triangle 0 1 2 7) rfl).symm.trans (by decide +kernel))
    rw [hprimitives, ← hword]
    rfl

end PrimitiveShader.Lowering
