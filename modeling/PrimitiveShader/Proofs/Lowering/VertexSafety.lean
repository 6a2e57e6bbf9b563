import PrimitiveShader.Proofs.Lowering.VertexRun

/-!
# Lowered vertex and tessellation programs keep the rules of the hardware

Whatever the source computes, a run can only fail by the step limit. Where primitive numbers are
relayed, the vertices must be vertices of the workgroup and the provoking vertices of two primitives
must not be the same, since both lanes would write to the same place.
-/

namespace PrimitiveShader.Lowering

open Emit

/-- What a vertex program with relayed primitive numbers asks of its launch. -/
structure RelaySafe (config : Config) (launch : Launch) : Prop where
  vertices : launch.inputVertices ≤ config.maxInputVertices
  indices : ∀ prim ∈ launch.primitives,
    ∀ x ∈ prim.vertices.toList.take config.topology.vertexCount, x.toNat < launch.inputVertices
  provoking : (launch.primitives.toList.map (·.vertex config.provokingIndex)).Nodup

/-- The body of the source is part of the lowered program. -/
theorem VertexPlan.places_body (plan : VertexPlan) (early : Bool) (body : Block) :
    Places (Block.values body) (plan.wholeProgram early body) := by
  unfold wholeProgram
  refine .bind_right fun _ => .bind_right fun _ => .bind_right fun _ => ?_
  cases early with
  | true =>
    exact .bind_right fun _ => .bind_right fun _ => .bind_right fun _ => .ifThen _ (.bind_left (.place body))
  | false =>
    rw [if_neg (by decide), runThenExport]
    exact .bind_left (.bind_right fun _ => .bind_right fun _ => .bind_right fun _ =>
      .bind_left (.ifThen _ (.place body)))

variable {config : Config} {prim : InputPrimitive} {launch : Launch} {i : Nat}

/-- What a lane finds as the provoking vertex of its primitive is that vertex. -/
theorem RelaySafe.half_provoking {wave : WaveWidth} (h : RelaySafe config launch) (hvalid : launch.Valid wave)
    (hprim : launch.primitive? i = some prim) :
    prim.half config.provokingIndex = (prim.vertex config.provokingIndex).toUInt64 ∧
      (prim.vertex config.provokingIndex).toNat < launch.inputVertices := by
  have hcount := VertexPlan.vertexCount_bounds config.topology
  have hlt : config.provokingIndex < config.topology.vertexCount := by
    unfold Config.provokingIndex ProvokingVertex.index
    cases config.provokingVertex <;> dsimp only <;> omega
  have hvertex : ∀ j < config.topology.vertexCount, (prim.vertex j).toNat < launch.inputVertices := by
    intro j hj
    refine h.indices prim (Array.mem_of_getElem? hprim) _ ?_
    rw [VertexPlan.take_vertices prim hcount.2]
    exact List.mem_map.mpr ⟨j, List.mem_range.mpr hj, rfl⟩
  have hlanes := hvalid.numLanes_le
  have hvertices := hvalid.vertices
  refine ⟨prim.half_eq (by omega) fun j hj => ?_, hvertex _ hlt⟩
  have := hvertex j (by omega)
  omega

/-- Two primitives do not have the same provoking vertex. -/
theorem RelaySafe.eq_of_vertex_eq (h : RelaySafe config launch)
    {j : Nat} {prim' : InputPrimitive} (hprim : launch.primitive? i = some prim)
    (hprim' : launch.primitive? j = some prim')
    (heq : prim.vertex config.provokingIndex = prim'.vertex config.provokingIndex) : i = j := by
  obtain ⟨hi, rfl⟩ := Array.getElem?_eq_some_iff.mp hprim
  obtain ⟨hj, rfl⟩ := Array.getElem?_eq_some_iff.mp hprim'
  have hdistinct := List.pairwise_iff_getElem.mp h.provoking
  rcases Nat.lt_trichotomy i j with hlt | rfl | hlt
  · have hne := hdistinct i j (by simpa using hi) (by simpa using hj) hlt
    simp only [List.getElem_map, Array.getElem_toList] at hne
    exact absurd heq hne
  · rfl
  · have hne := hdistinct j i (by simpa using hj) (by simpa using hi) hlt
    simp only [List.getElem_map, Array.getElem_toList] at hne
    exact absurd heq.symm hne

namespace LowersVertex

variable {program lowered : Program} {layout : SharedLayout} {unit : ComputeUnit} {executable : Executable}

variable (h : LowersVertex config program layout lowered)
include h

/-- A program that is ready to run has no entry points, so its source has none. -/
theorem stays_of_toExecutable
    (hexec : lowered.toExecutable = .ok (.ok executable)) (hplain : Block.All program (·.isPlain) program.body) :
    Block.All program Instr.Stays program.body := by
  obtain ⟨early, emitted, hemits, rfl⟩ := h.emits
  have hgrows := Emit.grows _ hemits
  intro v hv i hi
  have hwithin : program.Within { emitted with sharedSize := layout.size } :=
    ⟨hgrows.definitions, hgrows.vars⟩
  exact ⟨hplain v hv i hi, (Program.toExecutable_eq_ok hexec).2 v
    (VertexPlan.places_body _ early program.body _ () emitted hemits v hv) i (hwithin.instr_eq hi)⟩

/-- The relay has room for every vertex, and each of its places has one writer. -/
theorem relays (hsafe : program.stage = .vertex → config.exportPrimitiveId = true → RelaySafe config launch)
    (hvalid : launch.Valid unit.wave) {relay : Region} (hrelay : layout.primitiveIdRelay = some relay) :
    h.plan.Relays (unit.workgroup ⟨lowered, (Block.code 0 lowered.body).toArray⟩ launch) relay := by
  obtain ⟨hsound, hsmall, hroom⟩ := vertexLayout_eq_ok h.regions
  obtain ⟨hids, hsize⟩ := hroom relay hrelay
  obtain ⟨hstage, hexport⟩ : program.stage = .vertex ∧ config.exportPrimitiveId = true := by
    simpa [relaysIds] using hids
  have hsafe := hsafe hstage hexport
  have hbounded := hsound.bounded 3 relay hrelay
  have hshared : lowered.sharedSize = layout.size := by
    obtain ⟨_, _, _, rfl⟩ := h.emits
    rfl
  have hvertices := hsafe.vertices
  refine ⟨fun n hn => ⟨?_, ?_, ?_⟩, fun i prim hprim => ?_, fun i j prim prim' hprim hprim' heq => ?_⟩
  · have hn' : n < launch.inputVertices := hn
    omega
  · change relay.offset + relay.size ≤ lowered.sharedSize
    omega
  · change lowered.sharedSize < 2 ^ 32
    omega
  · obtain ⟨hhalf, hlt⟩ := hsafe.half_provoking hvalid hprim
    change (prim.half config.provokingIndex).toNat < launch.inputVertices
    rwa [hhalf, UInt32.toNat_toUInt64]
  · have hhalf := (hsafe.half_provoking hvalid hprim).1
    have hhalf' := (hsafe.half_provoking hvalid hprim').1
    change prim.half config.provokingIndex = prim'.half config.provokingIndex at heq
    rw [hhalf, hhalf', UInt32.toUInt64_inj] at heq
    exact hsafe.eq_of_vertex_eq hprim hprim' heq

/-- A run ends well, or it hits the step limit or a fault of the source. -/
theorem run_ensures
    (hexec : lowered.toExecutable = .ok (.ok executable)) (hplain : Block.All program (·.isPlain) program.body)
    (hlaunch : launch.validate unit.wave = .ok ())
    (hsafe : program.stage = .vertex → config.exportPrimitiveId = true → RelaySafe config launch) :
    (ComputeUnit.run executable launch unit).Ensures True fun _ _ => True := by
  have hstays := h.stays_of_toExecutable hexec hplain
  obtain ⟨rfl, -⟩ := Program.toExecutable_eq_ok hexec
  have hsuits : h.plan.Suits _ _ True := h.suits hstays hlaunch (fun _ _ _ _ => trivial)
    (.inl trivial) fun relay hrelay => h.relays hsafe (Launch.valid_of_validate hlaunch) hrelay
  exact (h.run_exports hsuits hlaunch).mono fun _ _ _ _ => trivial

end LowersVertex

end PrimitiveShader.Lowering
