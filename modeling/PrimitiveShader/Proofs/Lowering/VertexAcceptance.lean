import PrimitiveShader.Proofs.Emission.Enclosure
import PrimitiveShader.Proofs.Lowering.VertexWriting

/-!
# Which vertex and tessellation programs are lowered

A lowering never faults: a configuration or a program that it refuses is refused by a check at the start, and
from then on nothing can go wrong (`Lowering.exists_lowerVertex`). The body of the source stays in one piece,
inside one branch on the lane's input vertex, and everything else in the lowered program is new
(`Lowering.LowersVertex.encloses`).
-/

namespace PrimitiveShader.Lowering

open Emit

/-! ## No faults -/

variable {config : Config} {program : Program}

/-- The layout of an accepted configuration can be computed. -/
theorem exists_vertexLayout (hconfig : config.validate = .ok ()) (program : Program) :
    ∃ layout, vertexLayout config program = .ok layout := by
  obtain ⟨⟨-, hsize⟩, -, -, hle⟩ := Config.validate_eq_ok_iff.mp hconfig
  have hvertices : config.maxInputVertices ≤ 256 := Nat.le_trans hle hsize
  unfold vertexLayout
  split
  · apply SharedLayout.exists_ofRequests
    · simp [LayoutRequest.role]
    · simp only [LayoutRequest.cost, LayoutRequest.size, LayoutRequest.alignment, List.map_cons, List.map_nil,
        List.sum_cons, List.sum_nil]
      omega
  · exact ⟨{}, rfl⟩

theorem exists_lowerVertex (hcheck : checkVertex config program = .ok ()) :
    ∃ lowered report, lowerVertex config program = .ok lowered ∧ lowered.outcome = .ok report := by
  obtain ⟨hconfig, -, hvalid, -⟩ := checkVertex_eq_ok_iff.mp hcheck
  obtain ⟨layout, hlayout⟩ := exists_vertexLayout hconfig program
  obtain ⟨hsound, hsmall, -⟩ := vertexLayout_eq_ok hlayout
  obtain ⟨text, htext⟩ := SharedLayout.exists_text hsound hsmall
  obtain ⟨⟨⟩, emitted, hemits, hvalidated⟩ := (VertexPlan.writes_wholeProgram hvalid
    (relayFits_of_vertexLayout hconfig hlayout) program.isStraightLine).validate
  obtain ⟨report, log, heq⟩ := lowerVertex_eq hcheck
  exact ⟨_, report layout, heq.trans (except_bind_eq_ok.mpr ⟨layout, hlayout, except_bind_eq_ok.mpr
    ⟨text, htext, except_bind_eq_ok.mpr ⟨emitted, Emit.finish_eq_ok_iff.mpr hemits, rfl⟩⟩⟩),
    Lowered.checked_outcome_eq_ok_iff.mpr ⟨hvalidated layout.size, rfl⟩⟩

/-! ## The body stays in one piece -/

namespace VertexPlan

variable {plan : VertexPlan}

instance : Novel (Instr.Runnable true) plan.relayBarrier := by
  unfold relayBarrier
  infer_instance

theorem exists_inner {e : Emit Unit} [he : Novel (Instr.Runnable true) e] {p p' : Program} (hw : program.Within p)
    (h : (Emit.place program.body >>= fun _ => e) p = .ok ((), p')) :
    ∃ inner tail, p'.body = p.body ++ (inner ++ tail) ∧ inner = program.body ∧ Block.NewerThan program tail := by
  obtain ⟨u, p₁, hplace, hrest⟩ := bind_eq_ok_iff.mp h
  obtain rfl := place_eq_ok hplace
  obtain ⟨tail, htail⟩ := (e.grows hrest).body
  have hnewer := he.newer hrest
  rw [← htail, List.drop_left] at hnewer
  refine ⟨program.body, tail, ?_, rfl, hnewer.of_within ⟨hw.definitions, hw.vars⟩⟩
  rw [← htail, List.append_assoc]

theorem wraps_runThenExport : Wraps program .hasInputVertex (· = program.body) (plan.runThenExport program.body) := by
  have hbranch : Wraps program .hasInputVertex (· = program.body) (Emit.input .hasInputVertex >>= fun cond =>
      Emit.ifThen cond (Emit.place program.body)) := by
    refine .branch fun p p' hw h => ?_
    rw [← bind_pure (Emit.place program.body)] at h
    exact exists_inner hw h
  rw [runThenExport]
  refine .before (.after fun var => .after fun _ => ?_)
  rw [← bind_assoc]
  exact hbranch.before

theorem wraps_wholeProgram (early : Bool) :
    Wraps program .hasInputVertex (· = program.body) (plan.wholeProgram early program.body) := by
  refine .after fun _ => .after fun _ => .after fun _ => ?_
  cases early with
  | true => exact .after fun _ => .after fun _ => .branch fun _ _ => exists_inner
  | false => exact wraps_runThenExport

end VertexPlan

/-- The body of the source is where it was, in one branch on the lane's input vertex. -/
theorem LowersVertex.encloses {lowered : Program} {layout : SharedLayout}
    (h : LowersVertex config program layout lowered) : program.Within lowered ∧
      Block.Encloses program lowered .hasInputVertex program.body lowered.body := by
  obtain ⟨early, emitted, hemits, rfl⟩ := h.emits
  have hgrows := Emit.grows _ hemits
  obtain ⟨inner, rfl, hencloses⟩ := VertexPlan.wraps_wholeProgram early _ () emitted .same hemits
  rw [List.length_nil, List.drop_zero] at hencloses
  exact ⟨⟨hgrows.definitions, hgrows.vars⟩, hencloses.within .same⟩

/-- A lowering always comes to an end. It succeeds exactly if the configuration and the program are valid, the
program is one of vertices and culling is not asked for. Then everything that the source places is still placed
once, in the same order and nesting, in one branch on the lane's input vertex. -/
theorem lowerVertex_succeeds_iff (config : Config) (program : Program) :
    ∃ lowered, lowerVertex config program = .ok lowered ∧ ((∃ report, lowered.outcome = .ok report) ↔
        config.validate = .ok () ∧ (program.stage = .vertex ∨ program.stage = .tessEval) ∧
          program.validate = .ok () ∧ config.considerCulling = false) ∧ ∀ report, lowered.outcome = .ok report →
        program.Within lowered.program ∧
        Block.Encloses program lowered.program .hasInputVertex program.body lowered.program.body ∧
        ∀ v ∈ Block.values program.body, (Block.values lowered.program.body).count v = 1 := by
  rw [← checkVertex_eq_ok_iff]
  cases hcheck : checkVertex config program with
  | error e =>
    refine ⟨.rejected program e, by rw [lowerVertex, hcheck], ⟨fun ⟨_, h⟩ => ?_, fun h => ?_⟩, fun _ h => ?_⟩
    · cases h
    · cases h
    · cases h
  | ok u =>
    obtain ⟨lowered, report, hlower, hok⟩ := exists_lowerVertex hcheck
    obtain ⟨layout, hlowers⟩ := lowerVertex_eq_ok hlower hok
    obtain ⟨hwithin, hencloses⟩ := hlowers.encloses
    refine ⟨lowered, hlower, ⟨fun _ => rfl, fun _ => ⟨report, hok⟩⟩, fun _ _ => ⟨hwithin, hencloses, ?_⟩⟩
    intro v hv
    obtain ⟨hbody, hnodup⟩ := Program.validate_eq_ok_iff.mp hlowers.valid
    rw [hencloses.count_eq (hbody.lt_size v hv)]
    exact List.count_eq_one_of_mem hnodup hv

end PrimitiveShader.Lowering
