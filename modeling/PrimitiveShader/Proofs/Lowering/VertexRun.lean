import PrimitiveShader.Proofs.Emission.Executable
import PrimitiveShader.Proofs.Layout
import PrimitiveShader.Proofs.Lowering.Vertex

/-!
# Lowered vertex and tessellation programs

What a lowering hands back, and what a workgroup that runs it exports.
-/

namespace PrimitiveShader.Lowering

/-- Whether primitive numbers are handed over in shared memory. -/
def relaysIds (config : Config) (program : Program) : Bool :=
  program.stage = .vertex && config.exportPrimitiveId

/-- What is fixed for the lowering of a program. -/
def VertexPlan.ofProgram (config : Config) (program : Program) (layout : SharedLayout) :
    VertexPlan where
  config
  stage := program.stage
  passthrough := config.considerPassthrough && !relaysIds config program
  relay := layout.primitiveIdRelay

/-- The layout of the shared memory. -/
def vertexLayout (config : Config) (program : Program) : Except Fault SharedLayout :=
  if relaysIds config program then SharedLayout.ofRequests [.primitiveIdRelay config.maxInputVertices]
  else .ok .empty

variable {config : Config} {lowered : Lowered} {program : Program}

/-- The layout has at most the relay, with room for a number per vertex. -/
theorem vertexLayout_eq_ok {layout : SharedLayout} (h : vertexLayout config program = .ok layout) :
    layout.Sound ∧ layout.size < 2 ^ 32 ∧ ∀ relay, layout.primitiveIdRelay = some relay →
      relaysIds config program = true ∧ relay.size = config.maxInputVertices * 4 := by
  unfold vertexLayout at h
  split at h
  · rename_i hrelays
    obtain ⟨hsound, hsmall⟩ := SharedLayout.sound_of_ofRequests h
    exact ⟨hsound, hsmall, fun relay hrelay => ⟨hrelays,
      SharedLayout.size_of_ofRequests h (by simp) _ List.mem_cons_self hrelay⟩⟩
  · cases h
    refine ⟨⟨fun role r hr => ?_, fun role _ r _ _ hr => ?_⟩, by decide, nofun⟩ <;> simp [SharedLayout.slot_empty] at hr

/-- What a successful lowering has found and emitted. -/
structure LowersVertex (config : Config) (program : Program) (layout : SharedLayout)
    (lowered : Program) : Prop where
  accepted : config.validate = .ok ()
  stage : program.stage = .vertex ∨ program.stage = .tessEval
  valid : program.validate = .ok ()
  culling : config.considerCulling = false
  regions : vertexLayout config program = .ok layout
  emits : ∃ early emitted,
    (VertexPlan.ofProgram config program layout).wholeProgram early program.body
      { program with body := [] } = .ok ((), emitted) ∧
    lowered = { emitted with sharedSize := layout.size }

theorem checkVertex_eq_ok_iff : checkVertex config program = .ok () ↔
      config.validate = .ok () ∧ (program.stage = .vertex ∨ program.stage = .tessEval) ∧
        program.validate = .ok () ∧ config.considerCulling = false := by
  simp only [checkVertex, except_seq_eq_ok, guard_eq_ok, refuse_end_eq_ok, mapError_eq_ok, Bool.not_eq_true]

/-- A program that passes the check is laid out and rewritten, and the result is checked. -/
theorem lowerVertex_eq (h : checkVertex config program = .ok ()) :
    ∃ (report : SharedLayout → LoweringReport) (log : String → List LogRecord), lowerVertex config program = (do
        let layout ← vertexLayout config program
        let text ← layout.text
        let emitted ← ((VertexPlan.ofProgram config program layout).wholeProgram
          program.isStraightLine program.body).finish { program with body := [] }
        return .checked { emitted with sharedSize := layout.size } (report layout) (log text)) := by
  have hlayout (k : SharedLayout → Except Fault Lowered) : (if relaysIds config program then
        SharedLayout.ofRequests [.primitiveIdRelay config.maxInputVertices] >>= k
      else pure .empty >>= k) = vertexLayout config program >>= k := by
    unfold vertexLayout
    split <;> rfl
  unfold lowerVertex
  rw [h]
  exact ⟨_, _, hlayout _⟩

/-- A lowering that comes to an end leaves the program alone or rewrites and checks it. -/
theorem lowerVertex_cases (h : lowerVertex config program = .ok lowered) :
    (∃ error, lowered = .rejected program error) ∨
      ∃ layout rewritten report log, LowersVertex config program layout rewritten ∧
        lowered = .checked rewritten report log := by
  cases hc : checkVertex config program with
  | error e =>
    simp only [lowerVertex, hc, Except.ok.injEq] at h
    exact .inl ⟨e, h.symm⟩
  | ok u =>
    obtain ⟨hconfig, hstage, hvalid, hculling⟩ := checkVertex_eq_ok_iff.mp hc
    obtain ⟨report, log, heq⟩ := lowerVertex_eq hc
    rw [heq] at h
    obtain ⟨layout, hlayout, h⟩ := except_bind_eq_ok.mp h
    obtain ⟨text, -, h⟩ := except_bind_eq_ok.mp h
    obtain ⟨emitted, hemits, h⟩ := except_bind_eq_ok.mp h
    cases h
    exact .inr ⟨layout, _, _, _,
      ⟨hconfig, hstage, hvalid, hculling, hlayout, _, emitted, Emit.finish_eq_ok_iff.mp hemits, rfl⟩, rfl⟩

theorem lowerVertex_eq_ok {report : LoweringReport} (h : lowerVertex config program = .ok lowered)
    (hok : lowered.outcome = .ok report) : ∃ layout, LowersVertex config program layout lowered.program := by
  rcases lowerVertex_cases h with ⟨error, rfl⟩ | ⟨layout, rewritten, _, _, hlowers, rfl⟩
  · cases hok
  · exact ⟨layout, hlowers⟩

/-- Whether the program that comes from a lowering runs to its end. -/
def runsToEnd (lowering : Except Fault Lowered) (launch : Launch) (unit : ComputeUnit) : Bool :=
  match lowering with
  | .ok { program, .. } =>
    match program.toExecutable with
    | .ok (.ok executable) =>
      match ComputeUnit.run executable launch unit with
      | .done _ _ => true
      | _ => false
    | _ => false
  | _ => false

theorem exists_of_runsToEnd {lowering : Except Fault Lowered} {lowered : Lowered} {executable : Executable}
    {launch : Launch} {unit : ComputeUnit} {F : Prop} {Q : WorkgroupResult → ComputeUnit → Prop}
    (h : runsToEnd lowering launch unit = true) (hlower : lowering = .ok lowered)
    (hexec : lowered.program.toExecutable = .ok (.ok executable))
    (hrun : (ComputeUnit.run executable launch unit).Ensures F Q) :
    ∃ output after, ComputeUnit.run executable launch unit = .done output after ∧ Q output after := by
  subst hlower
  simp only [runsToEnd, hexec] at h
  cases hdone : ComputeUnit.run executable launch unit with
  | done output after =>
    rw [hdone] at hrun
    exact ⟨output, after, rfl, hrun⟩
  | failed | faulted =>
    rw [hdone] at h
    cases h

/-! ## Barriers -/

namespace VertexPlan

variable {plan : VertexPlan}

theorem meets_around {send finish : Emit Unit} [Emit.Steady program false send] [Emit.Steady program false finish] :
    Emit.Meets program (if plan.relay.isSome then 1 else 0)
      (send >>= fun _ => plan.relayBarrier >>= fun _ => finish) := by
  unfold relayBarrier
  split
  · exact .after fun _ => .barrier .none
  · exact .after fun _ => .none

theorem meets_wholeProgram {body : Block} [Emit.Steady program false (Emit.place body)] (early : Bool) :
    Emit.Meets program (if plan.relay.isSome then 1 else 0) (plan.wholeProgram early body) := by
  refine .after fun _ => .after fun _ => .after fun _ => ?_
  cases early with
  | true => exact meets_around
  | false =>
    have hsend : Emit.Steady program false (plan.runAndSend body) := by
      unfold runAndSend
      infer_instance
    rw [if_neg Bool.false_ne_true, runThenExport]
    exact meets_around

end VertexPlan

/-! ## Running it -/

namespace LowersVertex

variable {lowered : Program} {layout : SharedLayout} {launch : Launch} {unit : ComputeUnit} {faults : Prop}

/-- The plan of the lowering. -/
abbrev plan (_ : LowersVertex config program layout lowered) : VertexPlan :=
  .ofProgram config program layout

variable (h : LowersVertex config program layout lowered)
include h

theorem toExecutable (hstays : Block.All program Instr.Stays program.body) :
    lowered.toExecutable = .ok (.ok ⟨lowered, (Block.code 0 lowered.body).toArray⟩) := by
  obtain ⟨early, emitted, hemits, rfl⟩ := h.emits
  have hbody := Emit.Steady.placeBody h.valid hstays true
  have hwhole : program.Within { program with body := [] } := .same
  have hsteady := (VertexPlan.steady_wholeProgram early).steady hwhole hemits
  rw [List.length_nil, List.drop_zero] at hsteady
  exact Program.toExecutable_of_steady (hsteady.within .same)

/-- The waves meet where numbers are handed over, and nowhere else. -/
theorem barriers_eq (hstays : Block.All program Instr.Stays program.body) :
    Block.barriers lowered lowered.body = if h.plan.relay.isSome then 1 else 0 := by
  obtain ⟨early, emitted, hemits, rfl⟩ := h.emits
  have hbody := Emit.Steady.placeBody h.valid hstays false
  have hmeets := @VertexPlan.meets_wholeProgram program h.plan _ hbody early _ () emitted { emitted with sharedSize := layout.size }
    .same hemits .same
  rwa [List.length_nil, List.drop_zero] at hmeets

theorem layout_size : layout.size < 2 ^ 32 :=
  (vertexLayout_eq_ok h.regions).2.1

/-- A launch of the lowered program, seen next to its source. -/
theorem suits (hstays : Block.All program Instr.Stays program.body)
    (hlaunch : launch.validate unit.wave = .ok ()) (hpanics : ∀ i < launch.inputVertices, ∀ fault,
      (unit.workgroup ⟨program, #[]⟩ launch).Invokes i (.faulted fault) → faults)
    (hpacks : faults ∨ ∀ i prim, launch.primitive? i = some prim → h.plan.Packs launch prim)
    (hrelays : ∀ relay, layout.primitiveIdRelay = some relay →
      h.plan.Relays (unit.workgroup ⟨lowered, (Block.code 0 lowered.body).toArray⟩ launch) relay) :
    h.plan.Suits (unit.workgroup ⟨program, #[]⟩ launch)
      (unit.workgroup ⟨lowered, (Block.code 0 lowered.body).toArray⟩ launch) faults := by
  obtain ⟨early, emitted, hemits, hlowered⟩ := h.emits
  have hgrows := Emit.grows _ hemits
  have hvalid := Launch.valid_of_validate hlaunch
  refine ⟨⟨?_, ?_, rfl, rfl⟩, ⟨?_, hvalid.waves⟩, hvalid, h.valid, hstays, hpanics, hpacks, hrelays⟩
  · change program.Within lowered
    rw [hlowered]
    exact ⟨hgrows.definitions, hgrows.vars⟩
  · change lowered.stage = program.stage
    rw [hlowered]
    exact hgrows.stage
  · change lowered.sharedSize < 2 ^ 64
    rw [hlowered]
    exact Nat.lt_trans h.layout_size (by decide)

/-- What a run of the lowered program exports. -/
theorem run_exports (hsuits : h.plan.Suits (unit.workgroup ⟨program, #[]⟩ launch)
      (unit.workgroup ⟨lowered, (Block.code 0 lowered.body).toArray⟩ launch) faults)
    (hlaunch : launch.validate unit.wave = .ok ()) :
    (ComputeUnit.run ⟨lowered, (Block.code 0 lowered.body).toArray⟩ launch unit).Ensures faults
      fun result _ => ∃ T, (∀ i < launch.numLanes, h.plan.Exports (unit.workgroup ⟨program, #[]⟩ launch) i (T i)) ∧
        (unit.workgroup ⟨lowered, (Block.code 0 lowered.body).toArray⟩ launch).Gathers T result := by
  obtain ⟨early, emitted, hemits, hlowered⟩ := h.emits
  have hplays := hsuits.wholeProgram_plays early () emitted hemits (hlowered ▸ .same)
  rw [List.length_nil, List.drop_zero] at hplays
  have hbody : emitted.body = lowered.body := by rw [hlowered]
  rw [hbody] at hplays
  have hfew : Block.barriers lowered lowered.body ≤ Shared.maxBarriers := by
    rw [h.barriers_eq hsuits.stays]
    split <;> decide
  exact ComputeUnit.run_of_plays hlaunch rfl hplays hfew (fun i _ => ⟨_, rfl⟩) fun T hT =>
    VertexPlan.roomy_of_exports hsuits.launched.lanes hT

end LowersVertex

end PrimitiveShader.Lowering
