import PrimitiveShader.Proofs.Emission.Enclosure
import PrimitiveShader.Proofs.Lowering.Geometry.Run
import PrimitiveShader.Proofs.Lowering.Geometry.Validity

/-!
# What a geometry program is rewritten to

The body of a geometry program is rewritten node by node (`Block.Becomes`). Stored outputs and entry points give
way to new code, and all else stays where it is. Around the rewritten body there is only new code, so a lowered
program has no entry points and places what is left of its source once (`lowerGeometry_rewrites`).
-/

namespace PrimitiveShader

open Emit

/-! ## Rewritten nodes -/

mutual

/-- What a node of the source becomes in a lowered geometry program. -/
inductive Node.Becomes (source : Program) : Node → Block → Prop
  | kept {v : Value} {instr : Instr} (hi : source.instr v = .ok instr) (hkept : instr.isDropped = false) :
    Node.Becomes source (.instr v) [.instr v]
  | replaced {v : Value} {instr : Instr} {nodes : Block} (hi : source.instr v = .ok instr)
    (hdropped : instr.isDropped = true) (hnew : nodes.NewerThan source) : Node.Becomes source (.instr v) nodes
  | branch {cond : Value} {thenBlock elseBlock thenBlock' elseBlock' : List Node}
    (hthen : Block.Becomes source thenBlock thenBlock') (helse : Block.Becomes source elseBlock elseBlock') :
    Node.Becomes source (.branch cond thenBlock elseBlock) [.branch cond thenBlock' elseBlock']
  | loop {body body' : List Node} (hbody : Block.Becomes source body body') :
    Node.Becomes source (.loop body) [.loop body']
  | leave : Node.Becomes source .leave [.leave]

/-- What the nodes of a block become, one after the other. -/
inductive Block.Becomes (source : Program) : List Node → Block → Prop
  | nil : Block.Becomes source [] []
  | cons {node : Node} {rest : List Node} {nodes nodes' : Block} (hnode : Node.Becomes source node nodes)
    (hrest : Block.Becomes source rest nodes') : Block.Becomes source (node :: rest) (nodes ++ nodes')

end

mutual

theorem Node.Becomes.count_eq {source : Program} {v : Value} {instr : Instr} (hv : source.instr v = .ok instr) :
    ∀ {node : Node} {nodes : Block}, Node.Becomes source node nodes →
      (Block.values nodes).count v = if instr.isDropped then 0 else node.values.count v
  | _, _, .kept (v := w) hi hkept => by
    by_cases hvw : w = v
    · subst hvw
      cases hi.symm.trans hv
      simp [Block.values, hkept]
    · simp [Block.values, Node.values, hvw]
  | _, _, .replaced (v := w) hi hdropped hnew => by
    rw [hnew.count_eq_zero (Program.lt_of_instr hv)]
    by_cases hvw : w = v
    · subst hvw
      cases hi.symm.trans hv
      simp [hdropped]
    · simp [Node.values, hvw]
  | _, _, .branch hthen helse => by
    simp only [Block.values, Node.values, List.append_nil, List.count_append, hthen.count_eq hv, helse.count_eq hv]
    split <;> rfl
  | _, _, .loop hbody => by
    simp only [Block.values, Node.values, List.append_nil, hbody.count_eq hv]
  | _, _, .leave => by simp [Block.values, Node.values]

/-- What is dropped is not placed any more, and all else as often as before. -/
theorem Block.Becomes.count_eq {source : Program} {v : Value} {instr : Instr} (hv : source.instr v = .ok instr) :
    ∀ {block : List Node} {nodes : Block}, Block.Becomes source block nodes →
      (Block.values nodes).count v = if instr.isDropped then 0 else (Block.values block).count v
  | _, _, .nil => by simp [Block.values]
  | _, _, .cons hnode hrest => by
    simp only [Block.values_append, Block.values, List.count_append, hnode.count_eq hv, hrest.count_eq hv]
    split <;> rfl

end

namespace Lowering

/-! ## The staged body -/

namespace GeometryPlan

variable {plan : GeometryPlan} {source p p' : Program}

/-- What is emitted for a dropped instruction is new, and of a kind that the code for counts belongs to. -/
theorem novel_stageAs {K : Instr → Prop} [Instr.Common K] {value : Value} {instr : Instr} (h : instr.isDropped = true)
    (hcounts : ∀ stream vertices count, instr = .intrinsic (.geometry (.setCounts stream vertices count)) →
      plan.config.geometry.usesStream stream = true → Novel K (plan.stateCounts stream vertices count)) :
    Novel K (plan.stageAs value instr) := by
  cases instr with
  | intrinsic op =>
    cases op with
    | geometry op =>
      cases op with
      | setCounts stream vertices count =>
        simp only [stageAs]
        split
        · exact hcounts stream vertices count rfl ‹_›
        · infer_instance
      | _ =>
        unfold stageAs
        infer_instance
    | storeOutput slot data =>
      unfold stageAs
      infer_instance
    | _ => cases h
  | _ => cases h

mutual

theorem becomes_stageNode : ∀ (node : Node) {p p' : Program}, (∀ v ∈ node.values, ∃ i, source.instr v = .ok i) →
    source.Within p → plan.stageNode node p = .ok ((), p') → node.Becomes source (p'.body.drop p.body.length)
  | .instr value, p, p', hdefined, hw, h => by
    obtain ⟨instr, hi⟩ := hdefined value (List.mem_singleton_self value)
    unfold stageNode at h
    have hstage := stageInstr_eq_ok hw hi h
    cases hkept : instr.isDropped with
    | true =>
      have hnovel : Novel (Instr.Runnable true) (plan.stageAs value instr) :=
        novel_stageAs hkept fun _ _ _ _ _ => inferInstance
      exact .replaced hi hkept ((hnovel.newer hstage).of_within hw)
    | false =>
      rw [stageAs_of_isDropped_eq_false plan value hkept] at hstage
      obtain rfl := place_eq_ok hstage
      rw [List.drop_left]
      exact .kept hi hkept
  | .branch cond thenBlock elseBlock, p, p', hdefined, hw, h => by
    unfold stageNode at h
    obtain ⟨inner, inner', hthen, helse, rfl⟩ := ifThenElse_eq_ok h
    have hw₁ := hw.withBody []
    have hw₂ := (hw₁.trans (Emit.grows _ hthen).toWithin).withBody []
    rw [List.drop_left]
    exact .branch (becomes_stageBlock thenBlock (fun v hv => hdefined v (List.mem_append_left _ hv)) hw₁ hthen)
      (becomes_stageBlock elseBlock (fun v hv => hdefined v (List.mem_append_right _ hv)) hw₂ helse)
  | .loop body, p, p', hdefined, hw, h => by
    unfold stageNode at h
    obtain ⟨inner, hbody, rfl⟩ := loop_eq_ok h
    rw [List.drop_left]
    exact .loop (becomes_stageBlock body hdefined (hw.withBody []) hbody)
  | .leave, p, p', _, _, h => by
    unfold stageNode at h
    obtain rfl := place_eq_ok h
    rw [List.drop_left]
    exact .leave

/-- The emitted code is the rewritten block. -/
theorem becomes_stageBlock : ∀ (block : List Node) {p p' : Program},
    (∀ v ∈ Block.values block, ∃ i, source.instr v = .ok i) → source.Within p →
    plan.stageBlock block p = .ok ((), p') → Block.Becomes source block (p'.body.drop p.body.length)
  | [], p, p', _, _, h => by
    unfold stageBlock at h
    cases h
    rw [List.drop_length]
    exact .nil
  | node :: rest, p, p', hdefined, hw, h => by
    unfold stageBlock at h
    obtain ⟨⟨⟩, p₁, hnode, hrest⟩ := bind_eq_ok_iff.mp h
    have hgrows := Emit.grows _ hnode
    rw [drop_body_eq hgrows (Emit.grows _ hrest)]
    exact .cons (becomes_stageNode node (fun v hv => hdefined v (List.mem_append_left _ hv)) hw hnode)
      (becomes_stageBlock rest (fun v hv => hdefined v (List.mem_append_right _ hv)) (hw.trans hgrows.toWithin) hrest)

end

/-- All around the rewritten body is new. -/
theorem wraps_wholeProgram (hvalid : source.validate = .ok ()) (compacts : Bool) :
    Wraps source .hasInputPrimitive (Block.Becomes source source.body) (plan.wholeProgram compacts source.body) := by
  unfold wholeProgram
  refine .after fun _ => .before (.branch fun p p' hw h => ?_)
  refine ⟨p'.body.drop p.body.length, [], ?_, becomes_stageBlock source.body
    (fun v => Program.exists_instr_of_validate hvalid) hw h, .nil _⟩
  obtain ⟨rest, hrest⟩ := (Emit.grows _ h).body
  rw [← hrest, List.drop_left, List.append_nil]

end GeometryPlan

/-! ## The lowered program -/

namespace LowersGeometry

variable {config : Config} {program declared lowered : Program} {survey : Survey} {plan : GeometryPlan}

variable (h : LowersGeometry config program survey plan declared lowered)
include h

/-- The rewritten body is in one branch on the lane's input primitive. -/
theorem encloses :
    program.Within lowered ∧ ∃ rewritten, Block.Becomes program program.body rewritten ∧
      Block.Encloses program lowered .hasInputPrimitive rewritten lowered.body := by
  obtain ⟨emitted, hemits, rfl⟩ := h.emits
  have hstart := h.keeps.grows.toWithin.withBody []
  obtain ⟨rewritten, hbecomes, hencloses⟩ := GeometryPlan.wraps_wholeProgram h.valid _ _ () emitted hstart hemits
  rw [List.length_nil, List.drop_zero] at hencloses
  have hw := hstart.trans (Emit.grows _ hemits).toWithin
  exact ⟨⟨hw.definitions, hw.vars⟩, rewritten, hbecomes, hencloses.within .same⟩

/-- What the source places is placed as often as before, if at all. -/
theorem count_eq {v : Value} {instr : Instr}
    (hi : program.instr v = .ok instr) : (Block.values lowered.body).count v =
      if instr.isDropped then 0 else (Block.values program.body).count v := by
  obtain ⟨-, rewritten, hbecomes, hencloses⟩ := h.encloses
  rw [hencloses.count_eq (Program.lt_of_instr hi), hbecomes.count_eq hi]

end LowersGeometry

/-- A lowered geometry program has no entry points and can be run. The body of its source is rewritten node by
node, inside one branch on the lane's input primitive. All else in the lowered program is new. -/
theorem lowerGeometry_rewrites {config : Config} {program : Program} {lowered : Lowered} {report : LoweringReport}
    (hlower : lowerGeometry config program = .ok lowered) (hok : lowered.outcome = .ok report) :
    (∀ v ∈ Block.values lowered.program.body, ∃ instr, lowered.program.instr v = .ok instr ∧
        instr.isEntryPoint = false) ∧ (∃ executable, lowered.program.toExecutable = .ok (.ok executable)) ∧
      program.Within lowered.program ∧ (∃ rewritten, Block.Becomes program program.body rewritten ∧
        Block.Encloses program lowered.program .hasInputPrimitive rewritten lowered.program.body) ∧
      ∀ v ∈ Block.values program.body, ∃ instr, program.instr v = .ok instr ∧
        (Block.values lowered.program.body).count v = if instr.isDropped then 0 else 1 := by
  obtain ⟨survey, plan, declared, h, -⟩ := lowerGeometry_eq_ok hlower hok
  obtain ⟨hwithin, hencloses⟩ := h.encloses
  refine ⟨fun v hv => ?_, ⟨_, h.toExecutable⟩, hwithin, hencloses, fun v hv => ?_⟩
  · obtain ⟨instr, hi⟩ := Program.exists_instr_of_validate (validate_of_lowerGeometry hlower hok) hv
    exact ⟨instr, hi, (Program.toExecutable_eq_ok h.toExecutable).2 v hv instr hi⟩
  · obtain ⟨instr, hi⟩ := Program.exists_instr_of_validate h.valid hv
    obtain ⟨-, hnodup⟩ := Program.validate_eq_ok_iff.mp h.valid
    refine ⟨instr, hi, ?_⟩
    rw [h.count_eq hi, List.count_eq_one_of_mem hnodup hv]

/-- A geometry program that emits its vertex in a loop of one round. -/
def loopingProgram : Program where
  stage := .geometry
  definitions := #[⟨.const .u32 0, .u32⟩, ⟨.const .u32 1, .u32⟩, ⟨.binary .eq ⟨0⟩ ⟨0⟩, .bool⟩,
    ⟨.intrinsic (.storeOutput ⟨0, 0, 0⟩ ⟨1⟩), .void⟩, ⟨.intrinsic (.geometry (.emitVertex 0 ⟨0⟩ ⟨0⟩)), .void⟩,
    ⟨.intrinsic (.geometry (.endPrimitive 0)), .void⟩, ⟨.intrinsic (.geometry (.setCounts 0 ⟨1⟩ ⟨1⟩)), .void⟩]
  body := [.instr ⟨0⟩, .instr ⟨1⟩, .loop [.instr ⟨2⟩, .instr ⟨3⟩, .instr ⟨4⟩, .branch ⟨2⟩ [.leave] []],
    .instr ⟨5⟩, .instr ⟨6⟩]

/-- The loop stays, with its condition. What it stores and emits is not there any more. -/
theorem lowerGeometry_rewrites_looping : ∃ lowered report,
    lowerGeometry {} loopingProgram = .ok lowered ∧ lowered.outcome = .ok report ∧
    (∃ executable, lowered.program.toExecutable = .ok (.ok executable)) ∧
    (∃ rewritten, Block.Becomes loopingProgram loopingProgram.body rewritten ∧
      Block.Encloses loopingProgram lowered.program .hasInputPrimitive rewritten lowered.program.body) ∧
    (Block.values lowered.program.body).count ⟨2⟩ = 1 ∧ (Block.values lowered.program.body).count ⟨4⟩ = 0 := by
  obtain ⟨lowered, report, hlower, hok⟩ :=
    exists_lowerGeometry_of_checks {} loopingProgram (by decide +kernel) (by decide +kernel) (by decide +kernel)
  obtain ⟨-, hexec, -, hrewritten, hcount⟩ := lowerGeometry_rewrites hlower hok
  obtain ⟨condition, hcondition, hkept⟩ := hcount ⟨2⟩ (by decide)
  obtain ⟨emission, hemission, hgone⟩ := hcount ⟨4⟩ (by decide)
  cases hcondition
  cases hemission
  exact ⟨lowered, report, hlower, hok, hexec, hrewritten, hkept, hgone⟩

end Lowering

end PrimitiveShader
