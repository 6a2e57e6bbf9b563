import PrimitiveShader.Proofs.Lowering.Compaction
import PrimitiveShader.Proofs.Lowering.Geometry.Staging
import PrimitiveShader.Proofs.Scalar.Placement

/-!
# Bodies of geometry programs

A thread that runs the staged body goes through the states of an invocation of the source. It keeps the
outputs of the invocation in variables, and whatever the invocation hands over is staged in the bytes
of the thread's places (`GeometryPlan.Stages`). The proof follows the body node by node
(`GeometryPlan.wp_stageBlock`), for any nesting of branches and loops.
-/

namespace PrimitiveShader.Lowering.GeometryPlan

open Emit

/-! ## What is emitted for one instruction -/

/-- Emits what becomes of an instruction. -/
def stageAs (plan : GeometryPlan) (value : Value) (instr : Instr) : Emit Unit :=
  let limits := plan.config.geometry
  match instr with
  | .intrinsic (.storeOutput slot data) => plan.keepOutput slot data
  | .intrinsic (.geometry (.emitVertex stream vertexCount before)) =>
    if limits.usesStream stream then plan.stageVertex stream vertexCount before else pure ()
  | .intrinsic (.geometry (.endPrimitive _)) => pure ()
  | .intrinsic (.geometry (.setCounts stream vertexCount primitiveCount)) =>
    if limits.usesStream stream then plan.stateCounts stream vertexCount primitiveCount else pure ()
  | _ => Emit.place [.instr value]

variable {plan : GeometryPlan}

theorem stageInstr_eq (value : Value) : plan.stageInstr value =
    (Emit.get >>= fun program => liftM (program.instr value) >>= plan.stageAs value) := rfl

/-- What is emitted for an instruction of the source. -/
theorem stageInstr_eq_ok {source p p' : Program} {value : Value} {instr : Instr} {u : Unit} (hw : source.Within p)
    (hi : source.instr value = .ok instr) (h : plan.stageInstr value p = .ok (u, p')) :
    plan.stageAs value instr p = .ok (u, p') := by
  rw [stageInstr_eq] at h
  obtain ⟨_, _, hget, h⟩ := bind_eq_ok_iff.mp h
  cases hget
  obtain ⟨i, hpi, h⟩ := lift_bind_eq_ok_iff.mp h
  rw [hw.instr_eq hi] at hpi
  cases hpi
  exact h

/-! ## The parts of a lowered program -/

/-- Emits the body between two barriers. -/
def front (plan : GeometryPlan) (body : Block) : Emit Unit := do
  Emit.effect .barrier
  plan.stageBody body
  Emit.effect .barrier

theorem wholeProgram_eq_front (compacts : Bool) (body : Block) :
    plan.wholeProgram compacts body = (plan.front body >>= fun _ => plan.finale compacts) := by
  simp only [wholeProgram, front, bind_assoc]

/-! ## All of it can be run -/

section

variable {value : Value} {source : Program} {barriers : Bool}

/-- An instruction of the source that is not a barrier, unless those are admitted. -/
def Admits (source : Program) (barriers : Bool) (value : Value) : Prop :=
  ∃ instr, source.instr value = .ok instr ∧
    (barriers = false → instr ≠ .intrinsic .barrier)

theorem steady_stageAs {instr : Instr} (hi : source.instr value = .ok instr)
    (hbar : barriers = false → instr ≠ .intrinsic .barrier) : Steady source barriers (plan.stageAs value instr) := by
  have hplace (hentry : instr.isEntryPoint = false) : Steady source barriers (Emit.place [.instr value]) := by
    refine .place fun p hw v hv => ?_
    obtain rfl : v = value := by simpa [Block.values, Node.values] using hv
    exact ⟨instr, hw.instr_eq hi, hbar, hentry⟩
  unfold stageAs
  split
  · infer_instance
  · infer_instance
  · infer_instance
  · infer_instance
  · rename_i hemit hend hset
    refine hplace ?_
    cases instr with
    | intrinsic op =>
      cases op with
      | geometry op =>
        cases op with
        | emitVertex stream a b => exact absurd rfl (hemit stream a b)
        | endPrimitive stream => exact absurd rfl (hend stream)
        | setCounts stream a b => exact absurd rfl (hset stream a b)
      | _ => rfl
    | _ => rfl

theorem steady_stageInstr (h : Admits source barriers value) : Steady source barriers (plan.stageInstr value) where
  placed {p a p'} hw hp := by
    obtain ⟨instr, hi, hbar⟩ := h
    rw [stageInstr_eq] at hp
    obtain ⟨_, p₁, hget, hp⟩ := bind_eq_ok_iff.mp hp
    cases hget
    obtain ⟨i, hpi, hp⟩ := lift_bind_eq_ok_iff.mp hp
    rw [hw.instr_eq hi] at hpi
    cases hpi
    exact (steady_stageAs hi hbar).placed hw hp

mutual

theorem steady_stageNode : ∀ node : Node, (∀ v ∈ node.values, Admits source barriers v) →
    Steady source barriers (plan.stageNode node)
  | .instr value, h => by
    unfold stageNode
    exact steady_stageInstr (h value (by simp [Node.values]))
  | .branch cond thenBlock elseBlock, h => by
    have := steady_stageBlock thenBlock fun v hv => h v (by simp [Node.values, hv])
    have := steady_stageBlock elseBlock fun v hv => h v (by simp [Node.values, hv])
    unfold stageNode
    infer_instance
  | .loop body, h => by
    have := steady_stageBlock body fun v hv => h v (by simp [Node.values, hv])
    unfold stageNode
    infer_instance
  | .leave, _ => by
    unfold stageNode
    infer_instance

theorem steady_stageBlock : ∀ block : List Node, (∀ v ∈ Block.values block, Admits source barriers v) →
    Steady source barriers (plan.stageBlock block)
  | [], _ => by
    unfold stageBlock
    infer_instance
  | node :: rest, h => by
    have := steady_stageNode node fun v hv => h v (by simp [Block.values, hv])
    have := steady_stageBlock rest fun v hv => h v (by simp [Block.values, hv])
    unfold stageBlock
    infer_instance

end

end

/-! ## Threads that stage the vertices of an invocation -/

/-- The thread is where the invocation is. It keeps the outputs in variables, and has staged what the
invocation has handed over since `start`. -/
structure Stages (plan : GeometryPlan) (source : Program) (i : Nat) (start : Thread)
    (inv : Invocation) (t : Thread) : Prop extends Mirrors source inv t where
  sorted : inv.lane.outputs.Sorted
  kept : ∀ a ∈ plan.attributes, ∃ x, t.lane.readVar a.var = .ok x ∧
    a.type.convert x = a.type.convert ((inv.lane.outputs.find? a.slot).getD 0)
  view : t.view = plan.afterEvents i inv.events start.view
  outputs : t.lane.outputs = start.lane.outputs
  primitives : t.primitives = start.primitives
  vertices : t.vertices = start.vertices
  space : t.space = start.space

namespace Stages

variable {source declared p p' : Program} {i : Nat} {start t t' : Thread} {inv inv' : Invocation}

/-- The thread follows the invocation through an instruction that is placed as it is. -/
theorem follow (h : plan.Stages source i start inv t) (hkeeps : plan.Keeps source declared)
    (hf : Follows source inv t inv' t') : plan.Stages source i start inv' t' where
  toMirrors := hf.toMirrors
  sorted := hf.stored ▸ h.sorted
  kept a ha := by
    obtain ⟨x, hx, hsame⟩ := h.kept a ha
    exact ⟨x, (hf.vars a.var (hkeeps.vars a ha).1).trans hx, hf.stored ▸ hsame⟩
  view := by rw [hf.view, h.view, hf.events]
  outputs := hf.outputs.trans h.outputs
  primitives := hf.primitives.trans h.primitives
  vertices := hf.vertices.trans h.vertices
  space := hf.space.trans h.space

/-- The thread has run code for an output or an entry point. -/
theorem adjust (h : plan.Stages source i start inv t) (hw : source.Within p)
    {touched : Var → Prop} {view : Nat → UInt8} (hadj : Adjusted touched p { t with view } p' t')
    (htouched : ∀ x, touched x → source.vars.size ≤ x.index)
    (hregisters : inv'.lane.registers = inv.lane.registers) (hvars : inv'.lane.vars = inv.lane.vars)
    (hsorted : inv'.lane.outputs.Sorted) (hkept : ∀ a ∈ plan.attributes, ∃ x, t'.lane.readVar a.var = .ok x ∧
      a.type.convert x = a.type.convert ((inv'.lane.outputs.find? a.slot).getD 0))
    (hview : view = plan.afterEvents i inv'.events start.view) : plan.Stages source i start inv' t' where
  sized := ⟨hregisters ▸ h.sized.registers, hvars ▸ h.sized.vars⟩
  read v hv := by
    rw [hadj.read v (Nat.lt_of_lt_of_le hv hw.size_le)]
    change t.lane.read v = _
    rw [h.read v hv, Lane.read, Lane.read, hregisters]
  readVar x hx := by
    rw [hadj.vars x fun ht => Nat.lt_irrefl _ (Nat.lt_of_lt_of_le hx (htouched x ht))]
    change t.lane.readVar x = _
    rw [h.readVar x hx, Lane.readVar, Lane.readVar, hvars]
  sorted := hsorted
  kept := hkept
  view := hadj.view.trans hview
  outputs := hadj.outputs.trans h.outputs
  primitives := hadj.primitives.trans h.primitives
  vertices := hadj.vertices.trans h.vertices
  space := hadj.space.trans h.space

end Stages

variable {x y : Attribute → UInt64} {place : Nat} {type : ScalarType}

/-- The bytes of a component are all of it. -/
theorem convert_eq_and_lowOnes (hstaged : isStaged type) (x : UInt64) :
    type.bytes ≤ 8 ∧ type.convert x = x &&& Bits.lowOnes (8 * type.bytes) := by
  cases type <;> first | exact ⟨by decide, rfl⟩ | cases hstaged

/-- A component is stored by its low bytes. -/
theorem overwrite_congr (hstaged : isStaged type) {x y : UInt64}
    (h : type.convert x = type.convert y) (view : Nat → UInt8) (addr : Nat) :
    overwrite view addr type.bytes x = overwrite view addr type.bytes y := by
  have hbytes := (convert_eq_and_lowOnes hstaged x).1
  rw [(convert_eq_and_lowOnes hstaged x).2, (convert_eq_and_lowOnes hstaged y).2] at h
  funext a
  unfold overwrite
  split
  · rename_i ha
    have hlt : a - addr < type.bytes := by omega
    have hbyte (z : UInt64) : Bits.byte (z &&& Bits.lowOnes (8 * type.bytes)) (a - addr) = Bits.byte z (a - addr) := by
      rw [Bits.byte_and_lowOnes z (by omega), if_pos hlt]
    rw [← hbyte x, ← hbyte y, h]
  · rfl

theorem withFields_congr {region : Region} {attributes : List Attribute} (hstaged : ∀ a ∈ attributes, isStaged a.type)
    (h : ∀ a ∈ attributes, a.type.convert (x a) = a.type.convert (y a)) (view : Nat → UInt8) :
    plan.withFields region place x attributes view = plan.withFields region place y attributes view := by
  induction attributes generalizing view with
  | nil => rfl
  | cons a rest ih =>
    unfold withFields at ih ⊢
    rw [List.foldl_cons, List.foldl_cons, overwrite_congr (hstaged a List.mem_cons_self) (h a List.mem_cons_self)]
    exact ih (fun b hb => hstaged b (List.mem_cons_of_mem _ hb)) (fun b hb => h b (List.mem_cons_of_mem _ hb)) _

theorem withComponents_congr {stream : UInt8} (hstaged : ∀ a ∈ plan.attributes, isStaged a.type)
    (h : ∀ a ∈ plan.streamAttributes stream, a.type.convert (x a) = a.type.convert (y a)) (view : Nat → UInt8) :
    plan.withComponents stream place x view = plan.withComponents stream place y view := by
  unfold withComponents
  split
  · exact withFields_congr (fun a ha => hstaged a (List.mem_filter.mp ha).1) h view
  · rfl

/-! ## One instruction -/

section

variable {c : Setting} {source : Workgroup} {declared p : Program} {id : LaneId} {start t : Thread}
  {inv : Invocation} {visible : List Value} {value : Value} {L : Thread → Prop}

/-- What is needed around a body. -/
structure Hosts (plan : GeometryPlan) (c : Setting) (id : LaneId) (source : Workgroup)
    (declared : Program) : Prop extends plan.Stage c id, c.group.Hosts source where
  keeps : plan.Keeps source.program declared

variable {a b : Attribute} {slot : OutputSlot} {program : Program} {n : UInt64} {stream : UInt8}
  {Q : Unit → Program → Thread → Prop} {data : Value}

theorem Keeps.var_ne {source : Program} (h : plan.Keeps source declared)
    (ha : a ∈ plan.attributes) (hb : b ∈ plan.attributes) (hne : a ≠ b) : a.var ≠ b.var := by
  have hnodup : (plan.attributes.map (·.var.index)).Nodup := List.pairwise_map.mpr h.distinct
  exact fun heq => hne (List.inj_on_of_nodup_map hnodup ha hb (congrArg Var.index heq))

theorem Sound.slot_ne (h : plan.Sound) (ha : a ∈ plan.attributes)
    (hb : b ∈ plan.attributes) (hne : a ≠ b) : a.slot ≠ b.slot :=
  fun heq => hne (List.inj_on_of_nodup_map h.slots ha hb heq)

/-- The variables of one stream belong to no other. -/
theorem Keeps.not_isVarOf {source : Program} (h : plan.Keeps source declared)
    (ha : a ∈ plan.attributes) (hstream : a.slot.stream ≠ stream) : ¬ IsVarOf (plan.streamAttributes stream) a.var := by
  rintro ⟨b, hb, hvar⟩
  obtain ⟨hmem, hb⟩ := List.mem_filter.mp hb
  refine h.var_ne hmem ha ?_ hvar
  rintro rfl
  exact hstream (by simpa using hb)

/-- A stored output is kept in the variable of its component. -/
theorem wp_keepOutput_of_stages (hp : plan.Hosts c id source declared) (hw : declared.Within p)
    (h : plan.Stages source.program id.index start inv t) {σ : ScalarType} {y : UInt64}
    (hk : Knows p t data σ y) (hσ : σ ≠ .void) (hQ : ∀ p' u, p.Within p' → plan.Stages source.program id.index start
      { inv with lane := { inv.lane with outputs := inv.lane.outputs.insert slot y } } u → Q () p' u) :
    Emit.wp c id (plan.keepOutput slot data) p Q L t := by
  have hsource : source.program.Within p := hp.keeps.grows.toWithin.trans hw
  have hdecl : plan.Declared p := fun a ha => hw.varType?_eq (hp.keeps.vars a ha).2
  have hfind (s : OutputSlot) := SlotTable.find?_insert h.sorted slot s y
  have hsorted : (inv.lane.outputs.insert slot y).Sorted := SlotTable.sorted_update h.sorted slot _
  refine wp_keepOutput hp.staged hdecl hk hσ (fun hnone => hQ p t (.refl p) ?_) ?_
  · refine h.adjust hsource (.refl (fun _ => False) p t) (fun _ => False.elim) rfl rfl hsorted (fun a ha => ?_) h.view
    rw [hfind, if_neg (hnone a ha)]
    exact h.kept a ha
  · rintro a ha rfl p' u x hadj hx hsame
    refine hQ p' u hadj.within (h.adjust hsource hadj ?_ rfl rfl hsorted (fun b hb => ?_) h.view)
    · rintro _ rfl
      exact (hp.keeps.vars a ha).1
    rw [hfind]
    by_cases heq : b = a
    · subst heq
      rw [if_pos rfl]
      exact ⟨x, hx, hsame⟩
    · rw [if_neg (hp.slot_ne hb ha heq)]
      obtain ⟨z, hz, hsame⟩ := h.kept b hb
      exact ⟨z, (hadj.vars b.var (hp.keeps.var_ne ha hb (Ne.symm heq))).trans hz, hsame⟩

/-- A component of another stream is as before. -/
theorem Stages.kept_of_ne (h : plan.Stages source.program id.index start inv t)
    (ha : a ∈ plan.attributes) (hne : a.slot.stream ≠ stream) :
    ∃ x, t.lane.readVar a.var = .ok x ∧ a.type.convert x = a.type.convert
      ((SlotTable.find? (inv.lane.outputs.filter (·.1.stream ≠ stream)) a.slot).getD 0) := by
  rw [SlotTable.find?_filter inv.lane.outputs (fun slot => slot.stream ≠ stream) a.slot, if_pos (by simpa using hne)]
  exact h.kept a ha

theorem wp_stageVertex_of_stages (hp : plan.Hosts c id source declared) (hw : declared.Within p)
    (h : plan.Stages source.program id.index start inv t) {number before : Value} {b : UInt64}
    (hn : Knows p t number .u32 n) (hb : Knows p t before .u32 b)
    (hQ : ∀ p' u, p.Within p' → plan.Stages source.program id.index start
      ⟨{ inv.lane with outputs := inv.lane.outputs.filter (·.1.stream ≠ stream) },
        inv.events ++ [.vertex stream n b (inv.outputsOf stream)]⟩ u → Q () p' u) :
    Emit.wp c id (if plan.config.geometry.usesStream stream then
      plan.stageVertex stream number before else pure ()) p Q L t := by
  have hsource : source.program.Within p := hp.keeps.grows.toWithin.trans hw
  have hsorted : SlotTable.Sorted (inv.lane.outputs.filter (·.1.stream ≠ stream)) :=
    h.sorted.filter _
  have hevents := plan.afterEvents_append id.index inv.events (.vertex stream n b (inv.outputsOf stream)) start.view
  rw [← h.view] at hevents
  by_cases huse : plan.config.geometry.usesStream stream
  · rw [if_pos huse]
    -- The contents of the variables, and what the vertex takes of them.
    let x (a : Attribute) : UInt64 := (t.lane.readVar a.var).toOption.getD 0
    have hx : ∀ a ∈ plan.attributes, t.lane.readVar a.var = .ok (x a) := fun a ha => by
      obtain ⟨y, hy, -⟩ := h.kept a ha
      simp [x, hy, Except.toOption]
    have hsame : ∀ a ∈ plan.streamAttributes stream, a.type.convert (x a) =
        a.type.convert (((inv.outputsOf stream).find? a.slot).getD 0) := fun a ha => by
      obtain ⟨ha, hstream⟩ := List.mem_filter.mp ha
      obtain ⟨y, hy, hsame⟩ := h.kept a ha
      rw [hx a ha] at hy
      cases hy
      rw [hsame, Invocation.outputsOf,
        SlotTable.find?_filter inv.lane.outputs (fun slot => slot.stream = stream) a.slot, if_pos hstream]
    refine wp_stageVertex hp.toStage (fun a ha => hw.varType?_eq (hp.keeps.vars a ha).2) hn hb hx
      fun p' u hadj hzero => hQ p' u hadj.within ?_
    refine h.adjust hsource hadj ?_ rfl rfl hsorted (fun a ha => ?_) ?_
    · rintro _ ⟨a, ha, rfl⟩
      exact (hp.keeps.vars a (List.mem_filter.mp ha).1).1
    · by_cases hstream : a.slot.stream = stream
      · refine ⟨0, hzero a (List.mem_filter.mpr ⟨ha, by simpa using hstream⟩), ?_⟩
        rw [SlotTable.find?_filter inv.lane.outputs (fun slot => slot.stream ≠ stream) a.slot,
          if_neg (by simpa using hstream)]
        rfl
      · obtain ⟨y, hy, hsame⟩ := h.kept_of_ne ha hstream
        exact ⟨y, (hadj.vars a.var (hp.keeps.not_isVarOf ha hstream)).trans hy, hsame⟩
    · rw [hevents, afterEvent]
      simp only [huse, true_and]
      by_cases hlt : n.toNat < plan.config.geometry.maxVerticesOut
      · rw [if_pos hlt, if_pos hlt, withComponents_congr hp.staged hsame]
      · rw [if_neg hlt, if_neg hlt]
  · rw [if_neg huse]
    refine wp_pure (hQ p t (.refl p) ?_)
    refine h.adjust hsource (.refl (fun _ => False) p t) (fun _ => False.elim) rfl rfl hsorted
      (fun a ha => h.kept_of_ne ha ?_) ?_
    · rintro rfl
      exact huse (hp.used a ha)
    · rw [hevents, afterEvent, if_neg (by simp [huse])]

/-- Stated counts clear the flags of the places behind them. -/
theorem wp_stateCounts_of_stages (hp : plan.Hosts c id source declared) (hw : declared.Within p)
    (h : plan.Stages source.program id.index start inv t) {vertices primitives : Value} {x : UInt64}
    (hn : Knows p t vertices .u32 n) (hx : Knows p t primitives .u32 x)
    (hQ : ∀ p' u, p.Within p' → plan.Stages source.program id.index start
      { inv with events := inv.events ++ [.counts stream n x] } u → Q () p' u) :
    Emit.wp c id (if plan.config.geometry.usesStream stream then
      plan.stateCounts stream vertices primitives else pure ()) p Q L t := by
  have hsource : source.program.Within p := hp.keeps.grows.toWithin.trans hw
  have hevents := plan.afterEvents_append id.index inv.events (.counts stream n x) start.view
  rw [← h.view, afterEvent] at hevents
  by_cases huse : plan.config.geometry.usesStream stream
  · rw [if_pos huse] at hevents ⊢
    refine wp_stateCounts hp.toStage (lt_of_usesStream huse) hn hx fun p' u hadj =>
      hQ p' u hadj.within ?_
    refine h.adjust hsource hadj ?_ rfl rfl h.sorted (fun a ha => ?_) hevents.symm
    · exact fun v hv => Nat.le_trans hsource.vars_size_le hv
    · obtain ⟨y, hy, hsame⟩ := h.kept a ha
      have hlt := Program.lt_of_varType? (hw.varType?_eq (hp.keeps.vars a ha).2)
      exact ⟨y, (hadj.vars a.var (Nat.not_le_of_gt hlt)).trans hy, hsame⟩
  · rw [if_neg huse] at hevents ⊢
    exact wp_pure (hQ p t (.refl p) (h.adjust hsource (.refl (fun _ => False) p t)
      (fun _ => False.elim) rfl rfl h.sorted h.kept hevents.symm))

/-- The operands of an instruction that takes two numbers. -/
theorem pairType?_eq_some {a b : Value} (h : pairType? program.valueType? a b = some type) :
    program.typeOf a = .ok .u32 ∧ program.typeOf b = .ok .u32 := by
  unfold pairType? typeWhen at h
  cases ha : program.valueType? a with
  | none => simp [ha] at h
  | some σ =>
    cases hb : program.valueType? b with
    | none => simp [ha, hb] at h
    | some τ =>
      by_cases hboth : σ = .u32 ∧ τ = .u32
      · obtain ⟨rfl, rfl⟩ := hboth
        exact ⟨Program.valueType?_eq_some_iff.mp ha, Program.valueType?_eq_some_iff.mp hb⟩
      · simp [ha, hb, hboth] at h

theorem typeOf_storeOutput (h : program.resultType? (.intrinsic (.storeOutput slot data)) = some type) :
    ∃ σ, program.typeOf data = .ok σ ∧ σ ≠ .void := by
  simp only [Program.resultType?, Instr.resultType?, Intrinsic.resultType?, typeWhen] at h
  cases hσ : program.valueType? data with
  | none => simp [hσ] at h
  | some σ =>
    refine ⟨σ, Program.valueType?_eq_some_iff.mp hσ, ?_⟩
    rintro rfl
    simp [hσ, ScalarType.isInt] at h

theorem wp_stageAs (hp : plan.Hosts c id source declared) (hw : declared.Within p)
    (h : plan.Stages source.program id.index start inv t)
    (hsettled : inv.Settled source.program visible) {d : Definition}
    (hd : source.program.Supports (· ∈ visible) value d) (hplain : d.instr.isPlain)
    (hfault : ∀ fault, d.instr.Runs source id value inv (.error fault) → c.faults)
    (hQ : ∀ p' u inv', p.Within p' → d.instr.Runs source id value inv (.ok inv') →
      plan.Stages source.program id.index start inv' u → Q () p' u) :
    Emit.wp c id (plan.stageAs value d.instr) p Q L t := by
  have hsource : source.program.Within p := hp.keeps.grows.toWithin.trans hw
  have hknows {o : Value} (ho : o ∈ d.instr.operands) {σ : ScalarType} (hσ : source.program.typeOf o = .ok σ) :=
    h.toMirrors.knows hsource hsettled (hd.operands o ho).1 hσ
  have hplace (hentry : d.instr.isEntryPoint = false) (houtput : d.instr.isOutput = false) :
      Emit.wp c id (Emit.place [.instr value]) p Q L t := by
    refine wp_place fun _ _ p' hw' => ?_
    rw [Block.wp_cons]
    unfold Node.wp
    rw [show c.program.instr value = _ from hp.within.instr_eq (Program.instr_of_definition? hd.definition)]
    refine Instr.wp_mono (h.toMirrors.wp_of_runs hp.toHosts hd hplain hentry houtput hfault) ?_
    rintro u ⟨inv', hruns, hfollows⟩
    rw [Block.wp_nil]
    exact hQ p' u inv' hw' hruns (h.follow hp.keeps hfollows)
  obtain ⟨instr, type⟩ := d
  cases instr with
  | intrinsic op =>
    cases op with
    | storeOutput slot data =>
      obtain ⟨σ, hσ, hvoid⟩ := typeOf_storeOutput hd.type
      obtain ⟨y, hy, hk⟩ := hknows (by simp [Instr.operands, Intrinsic.operands]) hσ
      exact wp_keepOutput_of_stages hp hw h hk hvoid fun p' u hw' hu =>
        hQ p' u _ hw' (Instr.runs_storeOutput hy) hu
    | geometry op =>
      cases op with
      | emitVertex stream number before =>
        obtain ⟨hnumber, hbefore⟩ := pairType?_eq_some hd.type
        obtain ⟨n, hn, hkn⟩ := hknows (List.mem_cons_self ..) hnumber
        obtain ⟨b, hb, hkb⟩ := hknows (List.mem_cons_of_mem _ (List.mem_cons_self ..)) hbefore
        exact wp_stageVertex_of_stages hp hw h hkn hkb fun p' u hw' hu =>
          hQ p' u _ hw' (Instr.runs_emitVertex hn hb) hu
      | endPrimitive stream => exact wp_pure (hQ p t inv (.refl p) (.scalar rfl) h)
      | setCounts stream vertices primitives =>
        obtain ⟨hvertices, hprimitives⟩ := pairType?_eq_some hd.type
        obtain ⟨n, hn, hkn⟩ := hknows (List.mem_cons_self ..) hvertices
        obtain ⟨x, hx, hkx⟩ := hknows (List.mem_cons_of_mem _ (List.mem_cons_self ..)) hprimitives
        exact wp_stateCounts_of_stages hp hw h hkn hkx fun p' u hw' hu =>
          hQ p' u _ hw' (Instr.runs_setCounts hn hx) hu
    | _ => exact hplace rfl rfl
  | _ => exact hplace rfl rfl

/-! ## Blocks -/

/-- The thread is where some invocation with the property is. -/
def Reaches (plan : GeometryPlan) (source : Program) (i : Nat) (start : Thread)
    (visible : List Value) (R : Invocation → Prop) (t : Thread) : Prop :=
  ∃ inv, R inv ∧ plan.Stages source i start inv t ∧ inv.Settled source visible

theorem Reaches.mono {source : Program} {i : Nat} {visible' : List Value}
    {R : Invocation → Prop} (h : plan.Reaches source i start visible R t)
    (hsub : ∀ v ∈ visible', v ∈ visible) : plan.Reaches source i start visible' R t := by
  obtain ⟨inv, hR, hstages, hsettled⟩ := h
  exact ⟨inv, hR, hstages, hsettled.mono hsub⟩

/-- A thread that runs the staged body goes through the states of an invocation. The endings of the
invocation are known to be in `R`. -/
theorem wp_stageBlock (hp : plan.Hosts c id source declared) : ∀ (block : List Node) {inLoop : Bool}
    {visible : List Value} {inv : Invocation} {p : Program} {t : Thread} (R : Ending → Prop),
    Block.WellFormed source.program inLoop (· ∈ visible) block →
    Block.All source.program (·.isPlain) block → declared.Within p →
    plan.Stages source.program id.index start inv t → inv.Settled source.program visible →
    (∀ ending, Block.Runs source id block inv ending → R ending) → (∀ fault, R (.faulted fault) → c.faults) →
    Emit.wp c id (plan.stageBlock block) p (fun _ p' u => p.Within p' ∧
        plan.Reaches source.program id.index start visible (fun inv' => R (.next inv')) u)
      (plan.Reaches source.program id.index start visible fun inv' => R (.left inv')) t
  | [], _, _, inv, p, t, R, _, _, _, h, hsettled, hR, _ => by
    unfold stageBlock
    exact wp_pure ⟨.refl p, inv, hR _ (.nil inv), h, hsettled⟩
  | .instr value :: rest, _, _, inv, p, t, R, ⟨⟨d, hd⟩, hrest⟩, hall, hw, h, hsettled, hR, hfault => by
    have hi := Program.instr_of_definition? hd.definition
    have hlt : value.index < inv.lane.registers.size :=
      h.sized.registers ▸ Program.lt_of_definition? hd.definition
    unfold stageBlock stageNode
    rw [stageInstr_eq]
    refine wp_bind (wp_bind (wp_get (wp_bind (wp_lift fun instr hinstr => ?_))))
    rw [(hp.keeps.grows.toWithin.trans hw).instr_eq hi] at hinstr
    cases hinstr
    refine wp_stageAs hp hw h hsettled hd (hall.instr hi)
      (fun fault hr => hfault fault (hR _ (.instr_faulted hi hr))) fun p' u inv' hw' hr hu => ?_
    refine wp_mono (wp_stageBlock hp rest R (hrest.mono (.refl _) (by simp [Node.opens, eq_comm])) hall.head.2
      (hw.trans hw') hu (hsettled.step hi hlt hr) (fun e hr' => hR e (.instr hi hr hr')) hfault) ?_ ?_
    · rintro _ p'' v ⟨hw'', hv⟩
      exact ⟨hw'.trans hw'', hv.mono fun v hv => List.mem_cons_of_mem _ hv⟩
    · exact fun v hv => hv.mono fun v hv => List.mem_cons_of_mem _ hv
  | .branch cond thenBlock elseBlock :: rest, _, visible, inv, p, t, R, ⟨⟨⟨hvisible, hcond⟩, hthen, helse⟩, hrest⟩,
      hall, hw, h, hsettled, hR, hfault => by
    obtain ⟨a, ha, hk⟩ := h.toMirrors.knows (hp.keeps.grows.toWithin.trans hw) hsettled hvisible
      (Program.valueType?_eq_some_iff.mp hcond)
    have hR' := Block.behind_of_branch ha hR
    have hbehind : ∀ p₀, p.Within p₀ → ∀ p₁ u, (p₀.Within p₁ ∧
        plan.Reaches source.program id.index start visible (fun inv' => Block.Behind source id rest R (.next inv')) u) →
        ∀ p₂, Later p₁ u p₂ u → Emit.wp c id (plan.stageBlock rest) p₂ (fun _ p' u => p.Within p' ∧
            plan.Reaches source.program id.index start visible (fun inv' => R (.next inv')) u)
          (plan.Reaches source.program id.index start visible fun inv' => R (.left inv')) u := by
      rintro p₀ h₀ p₁ u ⟨h₁, inv', hnext, hu, hset⟩ p₂ h₂
      have hw₂ := (h₀.trans h₁).trans h₂.within
      refine wp_mono (wp_stageBlock hp rest R (hrest.mono (.refl _) (by simp [Node.opens])) hall.head.2
        (hw.trans hw₂) hu hset hnext hfault) ?_ fun _ hu => hu
      exact fun _ p' u hu => ⟨hw₂.trans hu.1, hu.2⟩
    unfold stageBlock stageNode
    refine wp_bind (wp_ifThenElse hk (fun hne p₀ h₀ => ?_) fun hzero p₀ h₀ => ?_)
    · simp only [hne, ↓reduceIte] at hR'
      exact wp_mono (wp_stageBlock hp thenBlock _ hthen
        (fun v hv => hall.head.1 v (by simp [Node.values, hv])) (hw.trans h₀.within) h hsettled hR'
        hfault) (fun _ => hbehind p₀ h₀.within) fun _ hu => hu
    · simp only [hzero, ↓reduceIte] at hR'
      exact wp_mono (wp_stageBlock hp elseBlock _ helse
        (fun v hv => hall.head.1 v (by simp [Node.values, hv])) (hw.trans h₀.within) h hsettled hR'
        hfault) (fun _ => hbehind p₀ h₀.within) fun _ hu => hu
  | .loop body :: rest, _, visible, inv, p, t, R, ⟨hbody, hrest⟩, hall, hw, h, hsettled, hR, hfault => by
    unfold stageBlock stageNode
    -- Before every round, whatever the loop still does ends in `R`.
    refine wp_bind (wp_loop (plan.Reaches source.program id.index start visible fun inv' =>
      ∀ e, Block.Runs source id (.loop body :: rest) inv' e → R e) ⟨inv, hR, h, hsettled⟩ ?_)
    rintro u p₀ ⟨inv', hR', hu, hset⟩ h₀
    refine wp_mono (wp_stageBlock hp body _ hbody (fun v hv => hall.head.1 v (by simp [Node.values, hv]))
      (hw.trans h₀) hu hset (Block.round_of_loop hR') hfault) (fun _ _ _ hv => hv.2) ?_
    rintro v ⟨inv₁, hleft, hv, hset₁⟩ p₁ h₁
    refine wp_mono (wp_stageBlock hp rest R (hrest.mono (.refl _) (by simp [Node.opens])) hall.head.2
      (hw.trans h₁) hv hset₁ hleft hfault) ?_ fun _ hu => hu
    exact fun _ p' u hu => ⟨h₁.trans hu.1, hu.2⟩
  | .leave :: rest, _, _, inv, p, t, R, _, _, _, h, hsettled, hR, _ => by
    unfold stageBlock stageNode
    exact wp_bind (wp_leave ⟨inv, hR _ (.leave inv), h, hsettled⟩)

end

end PrimitiveShader.Lowering.GeometryPlan
