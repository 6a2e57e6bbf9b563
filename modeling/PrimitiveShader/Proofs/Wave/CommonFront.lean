import PrimitiveShader.Proofs.Emission.Alike
import PrimitiveShader.Proofs.Scalar.Mirror
import PrimitiveShader.Proofs.Thread.Abreast
import PrimitiveShader.Proofs.Typing.Reachable

/-!
# Programs with a common front

Two programs may begin with code that is alike and end with different code (`Workgroup.CommonFront`). As long as
their waves are in the front they do the same to the registers that belong to it (`Wave.Matches`), and they count
the same. If nothing is counted behind the front, then all runs of the two programs that come to an end have
counted the same (`Workgroup.CommonFront.queryCounters_eq`), however many barriers there are behind the front.
-/

namespace PrimitiveShader

open Relation

/-- Both sides have counted the same. -/
abbrev Shared.CountsAs (s s' : Shared) : Prop := s'.result.queryCounters = s.result.queryCounters

/-! ## Code that does not count -/

namespace Wave

variable {group : Workgroup} {w w' : Wave} {value : Value} {instr : Instr} {s t : Shared}

/-- Other instructions do not change the query counters. -/
theorem queryCounters_of_execute (hquery : instr.isQuery = false)
    (h : w.execute group value instr s = .done w' t) : s.CountsAs t := by
  have hcharge (n : Nat) (result : WorkgroupResult) :
      (instr.charge^[n] result).queryCounters = result.queryCounters := by
    induction n generalizing result with
    | zero => rfl
    | succ n ih =>
      rw [Function.iterate_succ_apply, ih]
      unfold Instr.charge
      split <;> rfl
  have hbare := congrArg WorkgroupResult.queryCounters (bare_of_execute hquery h)
  rwa [hcharge] at hbare

theorem queryAdd_twin (stream : UInt8) {s' : Shared} (hs : s.CountsAs s') :
    (w.queryAdd stream value s).Twin (fun _ _ => True)
      (fun _ t _ t' => t.CountsAs t') (w.queryAdd stream value s') := by
  refine .forM (S := Shared.CountsAs) (fun l _ s s' hs => ?_) hs
  split
  · rename_i hstream
    refine .bind (.lift fun a _ => ?_)
    exact congrArg (fun counters : Vector UInt64 4 =>
      counters.set stream.toNat (counters[stream.toNat] + a) hstream) hs
  · rfl

theorem queryCounters_of_step {op : CodeOp} {p : Wave × Bool}
    (hop : ∀ v, op = .instr v → ∃ i, group.program.instr v = .ok i ∧ i.isQuery = false)
    (h : w.step group op s = .done p t) : s.CountsAs t := by
  by_cases hinstr : ∃ v, op = .instr v
  · obtain ⟨v, rfl⟩ := hinstr
    obtain ⟨i, hi, hquery⟩ := hop v rfl
    rcases stepInstr_cases h with ⟨-, -, rfl⟩ | ⟨-, j, hj, ⟨-, -, -, rfl⟩ | ⟨-, -, he⟩⟩
    · rfl
    · rfl
    · cases hi.symm.trans hj
      exact queryCounters_of_execute hquery he
  · rw [step_eq_steer fun v heq => hinstr ⟨v, heq⟩] at h
    rw [(control_eq_done_iff.mp h).2.2]

end Wave

namespace Workgroup

/-- Nothing is counted from operation `start` on, and no way leads back before it. -/
def Uncounted (group : Workgroup) (start : Nat) : Prop :=
  ∀ pc op, start ≤ pc → group.executable.code[pc]? = some op →
    op.From start ∧ ∀ v, op = .instr v → ∃ i, group.program.instr v = .ok i ∧ i.isQuery = false

namespace Uncounted

variable {group : Workgroup} {start : Nat} {before after : Progress} (hgroup : group.Uncounted start)
include hgroup

theorem advance (h : group.Advances before after) (hpc : ∀ w ∈ before.waves, start ≤ w.pc) :
    (∀ w ∈ after.waves, start ≤ w.pc) ∧ before.shared.CountsAs after.shared := by
  have hnext {w w' : Wave} {op : CodeOp} {s s' : Shared} {flag : Bool}
      (hop : group.executable.code[w.pc]? = some op) (hstep : w.step group op s = .done (w', flag) s')
      (hw : start ≤ w.pc) : start ≤ w'.pc ∧ s.CountsAs s' := by
    obtain ⟨hfrom, hquery⟩ := hgroup w.pc op hw hop
    exact ⟨Wave.le_pc_of_step hfrom hstep hw, Wave.queryCounters_of_step hquery hstep⟩
  cases h with
  | operation hop hstep =>
    simp only [Progress.waves, List.map_cons, List.forall_mem_append, List.forall_mem_cons] at hpc ⊢
    obtain ⟨hw, hcounters⟩ := hnext hop hstep hpc.2.1
    exact ⟨⟨hpc.1, hw, hpc.2.2⟩, hcounters⟩
  | barrier hop hstep =>
    simp only [Progress.waves, List.map_cons, List.map_append, List.forall_mem_append, List.forall_mem_cons] at hpc ⊢
    obtain ⟨hw, hcounters⟩ := hnext hop hstep hpc.2.1
    exact ⟨⟨⟨hpc.1, hw, by simp⟩, hpc.2.2⟩, hcounters⟩
  | finish hop =>
    simp only [Progress.waves, List.map_cons, List.map_append, List.forall_mem_append, List.forall_mem_cons] at hpc ⊢
    exact ⟨⟨⟨hpc.1, hpc.2.1, by simp⟩, hpc.2.2⟩, trivial⟩
  | meet hall => exact ⟨by simpa [Progress.waves, Pause.resume, Function.comp_def] using hpc, rfl⟩

theorem advances (h : ReflTransGen group.Advances before after) (hpc : ∀ w ∈ before.waves, start ≤ w.pc) :
    (∀ w ∈ after.waves, start ≤ w.pc) ∧ before.shared.CountsAs after.shared := by
  induction h with
  | refl => exact ⟨hpc, rfl⟩
  | tail _ hstep ih =>
    obtain ⟨hmid, hcounters⟩ := ih
    obtain ⟨hafter, hcounters'⟩ := hgroup.advance hstep hmid
    exact ⟨hafter, hcounters'.trans hcounters⟩

theorem turn {budget : Nat} {w : Wave} {s t : Shared} {p : Pause} (h : w.turn group budget s = .done p t)
    (hpc : start ≤ w.pc) : start ≤ p.wave.pc ∧ s.CountsAs t := by
  obtain ⟨hafter, hcounters⟩ := hgroup.advances (advances_of_turn h [] []) (by simpa [Progress.waves] using hpc)
  exact ⟨hafter p.wave (by simp [Progress.waves]), hcounters⟩

theorem rounds {runners : List Runner} {s t : Shared} (h : group.rounds runners s = .done () t)
    (hpc : ∀ r ∈ runners, start ≤ r.wave.pc) : s.CountsAs t := by
  obtain ⟨pauses, -, hsteps⟩ := advances_of_rounds h
  exact (hgroup.advances hsteps (by simpa [Progress.waves] using hpc)).2

end Uncounted

end Workgroup

/-! ## Lanes -/

/-- The lanes have the same in the registers and variables of `p`. There may be more of them on either side. -/
structure Lane.Matches (p : Program) (lane lane' : Lane) : Prop where
  read : ∀ v, (p.definition? v).isSome → lane'.read v = lane.read v
  readVar : ∀ x, (p.varType? x).isSome → lane'.readVar x = lane.readVar x

namespace Lane.Matches

variable {p : Program} {lane lane' new new' : Lane} {value : Value}

variable (h : lane.Matches p lane')
include h

theorem write (value : Value) (a : UInt64) :
    (lane.write value a).Matches p (lane'.write value a) :=
  ⟨fun v hv => Lane.read_write_congr (h.read v hv) value a, h.readVar⟩

theorem writeVar {x : Var} {a : UInt64} (hnew : lane.writeVar x a = .ok new)
    (hnew' : lane'.writeVar x a = .ok new') : new.Matches p new' := by
  unfold Lane.writeVar at hnew hnew'
  split at hnew <;> cases hnew
  split at hnew' <;> cases hnew'
  refine ⟨h.read, fun y hy => ?_⟩
  by_cases hxy : x.index = y.index
  · simp_all only [Lane.readVar, Array.getElem?_setIfInBounds_self_of_lt]
  · simpa only [Lane.readVar, Array.getElem?_setIfInBounds_ne hxy] using h.readVar y hy

theorem execute {group group' : Workgroup} {id : LaneId} {visible : Value → Prop}
    {d : Definition} (hd : p.Supports visible value d) (hstaging : d.instr.isStaging)
    (htype : ∀ v, (p.definition? v).isSome → group'.program.typeOf v = group.program.typeOf v)
    (hinput : ∀ input : LaneInput, input.eval group' id = input.eval group id)
    (hnew : lane.execute group id value d.instr = .ok new)
    (hnew' : lane'.execute group' id value d.instr = .ok new') : new.Matches p new' := by
  by_cases hcomputed : d.instr.isComputed
  · rw [Lane.execute_of_isComputed hcomputed] at hnew hnew'
    have hsame : lane'.compute group' id d.instr = lane.compute group id d.instr := by
      refine Lane.compute_congr (fun o ho => h.read o (hd.operands o ho).2) (fun x hx => h.readVar x ?_)
        (fun o ho => htype o (hd.operands o ho).2) hinput
      have hvar := hd.type
      rw [hx] at hvar
      exact Option.isSome_of_eq_some hvar
    rw [hsame] at hnew'
    obtain ⟨a, ha, hnew⟩ := except_bind_eq_ok.mp hnew
    obtain ⟨a', ha', hnew'⟩ := except_bind_eq_ok.mp hnew'
    cases ha.symm.trans ha'
    cases hnew
    cases hnew'
    exact h.write value a
  · cases hi : d.instr with
    | storeVar x a =>
      rw [hi] at hnew hnew'
      obtain ⟨b, hb, hnew⟩ := except_bind_eq_ok.mp hnew
      obtain ⟨b', hb', hnew'⟩ := except_bind_eq_ok.mp hnew'
      rw [h.read a (hd.operands a (by simp [hi, Instr.operands])).2] at hb'
      cases hb.symm.trans hb'
      exact h.writeVar hnew hnew'
    | intrinsic op =>
      rw [hi] at hstaging hcomputed hnew
      cases op with
      | storeOutput => cases hstaging
      | input => exact absurd rfl hcomputed
      | _ => cases hnew
    | _ => exact absurd (by rw [hi]; rfl) hcomputed

end Lane.Matches

/-! ## Waves -/

/-- The waves stand at the same operation with the same lanes on, and have the same in the registers and variables
of `p`. -/
abbrev Wave.Matches (p : Program) : Wave → Wave → Prop := Relates fun _ => Lane.Matches p

/-- An operation that keeps to what there is in `p`, and looks at nothing beyond the wave. -/
def CodeOp.Stages (p : Program) (op : CodeOp) : Prop :=
  op.Supported p ∧ ∀ v i, op = .instr v → p.instr v = .ok i → i.isStaging

namespace Workgroup

/-- Two workgroups with the same launch. Their programs have code that is alike before operation `stop`, and behind
it code that does not count. -/
structure CommonFront (p q : Program) (stop : Nat) (group group' : Workgroup) : Prop where
  launch : group'.launch = group.launch
  wave : group'.wave = group.wave
  stage : group'.program.stage = group.program.stage
  alike : p.Alike q
  within : p.Within group.program
  within' : q.Within group'.program
  code : ∀ pc < stop, group'.executable.code[pc]? = group.executable.code[pc]?
  front : ∀ pc < stop, ∀ op, group.executable.code[pc]? = some op → op.Stages p
  rest : group.Uncounted stop
  rest' : group'.Uncounted stop

end Workgroup

/-- Code behind a block that does not count. -/
theorem Workgroup.uncounted_of_code {group : Workgroup} {front rest : Block}
    (hcode : group.executable.code = (Block.code 0 (front ++ rest)).toArray)
    (hrest : ∀ v ∈ Block.values rest, ∃ i, group.program.instr v = .ok i ∧ i.isQuery = false) :
    group.Uncounted (Block.code 0 front).length := by
  intro pc op hpc hop
  rw [hcode, Block.code_append, Nat.zero_add, List.getElem?_toArray, List.getElem?_append_right hpc] at hop
  have hmem := List.mem_of_getElem? hop
  refine ⟨Block.from_of_code (Nat.le_refl _) hmem, fun v heq => hrest v ?_⟩
  exact Block.mem_values_of_code (heq ▸ hmem)

/-- Programs that begin with the same block. -/
theorem Workgroup.commonFront_of_code {p q : Program} {group group' : Workgroup} {front rest rest' : Block}
    (hlaunch : group'.launch = group.launch) (hwave : group'.wave = group.wave)
    (hstage : group'.program.stage = group.program.stage) (halike : p.Alike q) (hwithin : p.Within group.program)
    (hwithin' : q.Within group'.program) (hformed : Block.WellFormed p false (fun _ => False) front)
    (hstaging : Block.Staging p front) (hcode : group.executable.code = (Block.code 0 (front ++ rest)).toArray)
    (hcode' : group'.executable.code = (Block.code 0 (front ++ rest')).toArray)
    (hrest : ∀ v ∈ Block.values rest, ∃ i, group.program.instr v = .ok i ∧ i.isQuery = false)
    (hrest' : ∀ v ∈ Block.values rest', ∃ i, group'.program.instr v = .ok i ∧ i.isQuery = false) :
    group.CommonFront p q (Block.code 0 front).length group' where
  launch := hlaunch
  wave := hwave
  stage := hstage
  alike := halike
  within := hwithin
  within' := hwithin'
  code pc hpc := by
    rw [hcode, hcode', Block.code_append, Block.code_append, List.getElem?_toArray, List.getElem?_toArray,
      List.getElem?_append_left hpc, List.getElem?_append_left hpc]
  front pc hpc op hop := by
    rw [hcode, Block.code_append, List.getElem?_toArray, List.getElem?_append_left hpc] at hop
    have hmem := List.mem_of_getElem? hop
    refine ⟨hformed.supported op hmem, fun v i heq hi => ?_⟩
    obtain ⟨j, hj, hstages⟩ := hstaging v (Block.mem_values_of_code (heq ▸ hmem))
    cases hi.symm.trans hj
    exact hstages
  rest := uncounted_of_code hcode hrest
  rest' := uncounted_of_code hcode' hrest'

theorem Instr.isQuery_of_alike {i j : Instr} (h : i.Alike j) : j.isQuery = i.isQuery := by
  cases h <;> rfl

namespace Wave.Matches

variable {p q : Program} {stop : Nat} {group group' : Workgroup} {w w' w₁ w₁' : Wave} {value cond : Value}
  {s s' t t' : Shared}

variable (h : w.Matches p w')
include h

theorem read {v : Value} (hv : (p.definition? v).isSome) (l : Nat) :
    readRegister w'.lanes l v = readRegister w.lanes l v :=
  h.lanes.readRegister_eq fun _ _ hlane => hlane.read v hv

/-- All lanes that are on get the same result on both sides. -/
theorem assign {f : Nat → UInt64} (hu : w.assign value f = .ok w₁)
    (hu' : w'.assign value f = .ok w₁') : LanesRelate (fun _ => Lane.Matches p) w₁.lanes w₁'.lanes := by
  refine h.lanes.updateLanes h.exec_eq (fun l _ lane lane' new new' hlane hnew hnew' => ?_) hu hu'
  cases hnew
  cases hnew'
  exact hlane.write value (f l)

/-- An instruction adds the same to the counters. -/
theorem queryCounters_eq {visible : Value → Prop} {d : Definition} {j : Instr}
    (hd : p.Supports visible value d) (hij : d.instr.Alike j) (hs : s.CountsAs s')
    (he : w.execute group value d.instr s = .done w₁ t) (he' : w'.execute group' value j s' = .done w₁' t') :
    t.CountsAs t' := by
  by_cases hquery : d.instr.isQuery
  · cases hi : d.instr with
    | intrinsic op =>
      rw [hi] at hquery hij he
      cases op with
      | queryAdd stream count =>
        cases hij with
        | refl =>
          obtain ⟨_, t, hadd, he⟩ := Exec.bind_eq_done_iff.mp he
          obtain ⟨_, t', hadd', he'⟩ := Exec.bind_eq_done_iff.mp he'
          cases he
          cases he'
          have hcount : (p.definition? count).isSome :=
            (hd.operands count (by simp [hi, Instr.operands, Intrinsic.operands])).2
          rw [Wave.queryAdd_congr h.exec_eq fun l _ => h.read hcount l] at hadd'
          have htwin : (w.queryAdd stream count s).Twin _ _ (w.queryAdd stream count s') :=
            queryAdd_twin stream hs
          rw [hadd, hadd'] at htwin
          exact htwin
      | _ => cases hquery
    | _ =>
      rw [hi] at hquery
      cases hquery
  · rw [Bool.not_eq_true] at hquery
    have hcounters' := Wave.queryCounters_of_execute ((Instr.isQuery_of_alike hij).trans hquery) he'
    exact hcounters'.trans (hs.trans (Wave.queryCounters_of_execute hquery he).symm)

/-- A control operation of the front does the same to both waves. -/
theorem steer {op : CodeOp} (hop : op.Supported p) (hw : w.steer op = .ok w₁)
    (hw' : w'.steer op = .ok w₁') : w₁.Matches p w₁' := by
  refine h.of_steer (fun cond elseAt heq => ?_) hw hw'
  subst heq
  have htype : p.valueType? cond = some .bool := hop
  obtain ⟨d, hd, -⟩ := Option.map_eq_some_iff.mp htype
  exact Wave.maskOf_congr h.exec_eq fun l _ => h.read (Option.isSome_of_eq_some hd) l

end Wave.Matches

namespace Workgroup.CommonFront

variable {p q : Program} {stop : Nat} {group group' : Workgroup} (hgroup : group.CommonFront p q stop group')
  {w w' w₁ w₁' : Wave} {value : Value} {s s' t t' : Shared}
include hgroup

theorem typeOf_eq {v : Value} (hv : (p.definition? v).isSome) : group'.program.typeOf v = group.program.typeOf v := by
  obtain ⟨d, hd⟩ := Option.isSome_iff_exists.mp hv
  have htype : p.typeOf v = .ok d.type := by simp [Program.typeOf, Program.definition, hd, Except.map]
  rw [hgroup.within.typeOf_eq htype]
  exact hgroup.within'.typeOf_eq ((hgroup.alike.typeOf v).trans htype)

/-- An operation over the wave gives the lanes of both waves the same. -/
theorem lanes_of_crossLane (h : w.Matches p w') {op : CrossLaneOp}
    (hop : ∀ o ∈ (Intrinsic.crossLane op).operands, (p.definition? o).isSome)
    (hstaging : (Instr.intrinsic (.crossLane op)).isStaging) (he : w.crossLane group value op = .ok w₁)
    (he' : w'.crossLane group' value op = .ok w₁') : LanesRelate (fun _ => Lane.Matches p) w₁.lanes w₁'.lanes := by
  cases op with
  | ballot predicate type =>
    obtain ⟨mask, hmask, he⟩ := except_bind_eq_ok.mp he
    obtain ⟨mask', hmask', he'⟩ := except_bind_eq_ok.mp he'
    rw [Wave.maskOf_congr h.exec_eq fun l _ => h.read (hop predicate List.mem_cons_self) l, hmask] at hmask'
    cases hmask'
    exact h.assign he he'
  | elect =>
    simp only [Wave.crossLane, h.exec_eq] at he'
    exact h.assign he he'
  | reduceAdd source =>
    have hsource := hop source List.mem_cons_self
    obtain ⟨type, htype, he⟩ := except_bind_eq_ok.mp he
    obtain ⟨sum, hsum, he⟩ := except_bind_eq_ok.mp he
    obtain ⟨type', htype', he'⟩ := except_bind_eq_ok.mp he'
    obtain ⟨sum', hsum', he'⟩ := except_bind_eq_ok.mp he'
    rw [hgroup.typeOf_eq hsource, htype] at htype'
    rw [Wave.sumOf_congr h.exec_eq fun l _ => h.read hsource l, hsum] at hsum'
    cases htype'
    cases hsum'
    exact h.assign he he'
  | _ => cases hstaging

variable {d : Definition} {visible : Value → Prop}

/-- An instruction does the same to the lanes of both waves. -/
theorem lanes_of_execute (h : w.Matches p w') {j : Instr}
    (hd : p.Supports visible value d) (hstaging : d.instr.isStaging) (hij : d.instr.Alike j)
    (he : w.execute group value d.instr s = .done w₁ t) (he' : w'.execute group' value j s' = .done w₁' t') :
    LanesRelate (fun _ => Lane.Matches p) w₁.lanes w₁'.lanes := by
  have hoperands : ∀ o ∈ d.instr.operands, (p.definition? o).isSome := fun o ho => (hd.operands o ho).2
  have hlanes (hu : w.updateLanes (fun lane => Lane.execute group (Wave.laneId group w.id lane) value d.instr) = .ok w₁)
      (hu' : w'.updateLanes (fun lane => Lane.execute group' (Wave.laneId group' w'.id lane) value d.instr) = .ok w₁') :
      LanesRelate (fun _ => Lane.Matches p) w₁.lanes w₁'.lanes := by
    have hid (lane : Nat) : Wave.laneId group' w'.id lane = Wave.laneId group w.id lane := by
      rw [Wave.laneId, Wave.laneId, hgroup.wave, h.id_eq]
    refine h.lanes.updateLanes h.exec_eq (fun l _ lane lane' new new' hlane hnew hnew' => ?_) hu hu'
    rw [hid] at hnew'
    exact hlane.execute hd hstaging (fun v hv => hgroup.typeOf_eq hv)
      (LaneInput.eval_congr hgroup.launch hgroup.wave hgroup.stage _) hnew hnew'
  generalize d.instr = i at hij hstaging hoperands he hlanes
  cases hij with
  | store data addr base base' =>
    obtain ⟨_, _, -, he⟩ := Exec.bind_eq_done_iff.mp he
    obtain ⟨_, _, -, he'⟩ := Exec.bind_eq_done_iff.mp he'
    cases he
    cases he'
    exact h.lanes
  | refl =>
    cases j with
    | intrinsic op =>
      cases op with
      | crossLane op =>
        exact hgroup.lanes_of_crossLane h hoperands hstaging (Exec.lift_eq_done_iff.mp he).1
          (Exec.lift_eq_done_iff.mp he').1
      | storeShared | queryAdd =>
        obtain ⟨_, _, -, he⟩ := Exec.bind_eq_done_iff.mp he
        obtain ⟨_, _, -, he'⟩ := Exec.bind_eq_done_iff.mp he'
        cases he
        cases he'
        exact h.lanes
      | barrier => cases he
      | input => exact hlanes (Exec.lift_eq_done_iff.mp he).1 (Exec.lift_eq_done_iff.mp he').1
      | _ => cases hstaging
    | _ => exact hlanes (Exec.lift_eq_done_iff.mp he).1 (Exec.lift_eq_done_iff.mp he').1

theorem exists_alike_instr {i : Instr} (hi : p.instr value = .ok i) :
    group.program.instr value = .ok i ∧ ∃ j, group'.program.instr value = .ok j ∧ i.Alike j := by
  obtain ⟨j, hj, hij⟩ := hgroup.alike.exists_instr hi
  exact ⟨hgroup.within.instr_eq hi, j, hgroup.within'.instr_eq hj, hij⟩

/-- An instruction of the front does the same to both waves. -/
theorem stepInstr (h : w.Matches p w') (hd : p.Supports visible value d)
    (hstaging : d.instr.isStaging) {r r' : Wave × Bool} (hs : s.CountsAs s')
    (hstep : w.stepInstr group value s = .done r t) (hstep' : w'.stepInstr group' value s' = .done r' t') :
    r'.2 = r.2 ∧ r.1.Matches p r'.1 ∧ t.CountsAs t' := by
  have hnext : ({ w with pc := w.pc + 1 } : Wave).Matches p { w' with pc := w'.pc + 1 } :=
    h.pc_eq ▸ h.goto (w.pc + 1)
  obtain ⟨hi, j, hj, hij⟩ := hgroup.exists_alike_instr (Program.instr_of_definition? hd.definition)
  rcases Wave.stepInstr_cases hstep with ⟨hempty, rfl, rfl⟩ | ⟨hsome, i, hi₁, hrun⟩
  · rcases Wave.stepInstr_cases hstep' with ⟨-, rfl, rfl⟩ | ⟨hsome', -⟩
    · exact ⟨rfl, hnext, hs⟩
    · rw [h.exec_eq, hempty] at hsome'
      cases hsome'
  rcases Wave.stepInstr_cases hstep' with ⟨hempty', -⟩ | ⟨-, j₁, hj₁, hrun'⟩
  · rw [h.exec_eq, hsome] at hempty'
    cases hempty'
  cases hi.symm.trans hi₁
  cases hj.symm.trans hj₁
  rcases hrun with ⟨hbar, -, rfl, rfl⟩ | ⟨hbar, hflag, he⟩
  · rcases hrun' with ⟨-, -, rfl, rfl⟩ | ⟨hbar', -⟩
    · exact ⟨rfl, hnext, hs⟩
    · rw [hbar] at hij
      cases hij
      exact absurd rfl hbar'
  rcases hrun' with ⟨rfl, -⟩ | ⟨-, hflag', he'⟩
  · generalize d.instr = i at hij hbar
    cases hij
    exact absurd rfl hbar
  refine ⟨hflag'.trans hflag.symm, ⟨?_, hgroup.lanes_of_execute hnext hd hstaging hij he he'⟩,
    hnext.queryCounters_eq hd hij hs he he'⟩
  rw [Wave.execute_eq_done he', Wave.execute_eq_done he, h.same]

/-- An operation of the front does the same to both waves. -/
theorem step (h : w.Matches p w') {op : CodeOp} (hop : op.Stages p) {r r' : Wave × Bool}
    (hs : s.CountsAs s') (hstep : w.step group op s = .done r t)
    (hstep' : w'.step group' op s' = .done r' t') :
    r'.2 = r.2 ∧ r.1.Matches p r'.1 ∧ t.CountsAs t' := by
  by_cases hinstr : ∃ v, op = .instr v
  · obtain ⟨v, rfl⟩ := hinstr
    obtain ⟨⟨visible, d, hd⟩, hstages⟩ := hop
    exact hgroup.stepInstr h hd (hstages v d.instr rfl (Program.instr_of_definition? hd.definition)) hs hstep hstep'
  · rw [Wave.step_eq_steer fun v heq => hinstr ⟨v, heq⟩] at hstep hstep'
    obtain ⟨hw, hflag, rfl⟩ := Wave.control_eq_done_iff.mp hstep
    obtain ⟨hw', hflag', rfl⟩ := Wave.control_eq_done_iff.mp hstep'
    exact ⟨hflag'.trans hflag.symm, h.steer hop.1 hw hw', hs⟩

end Workgroup.CommonFront

/-! ## Runs -/

/-- Two waves at work side by side, or behind the front on both sides. -/
def Runner.Paired (p : Program) (stop : Nat) (r r' : Runner) : Prop :=
  r.Beside (Wave.Matches p) r' ∨ (stop ≤ r.wave.pc ∧ stop ≤ r'.wave.pc)

/-- Two waves that have paused side by side, or behind the front on both sides. -/
def Pause.Paired (p : Program) (stop : Nat) (r r' : Pause) : Prop :=
  r.Beside (Wave.Matches p) r' ∨ (stop ≤ r.wave.pc ∧ stop ≤ r'.wave.pc)

/-- Where only one side has come to its end, both sides have left the front. -/
theorem Pause.behind_of_paired {p : Program} {stop : Nat} {pauses pauses' : List Pause}
    (h : List.Forall₂ (Pause.Paired p stop) pauses pauses') {halt halt' : Halt} (hne : halt' ≠ halt)
    (hhalt : pauses.all (·.halt = halt)) (hhalt' : pauses'.all (·.halt = halt')) :
    (∀ r ∈ pauses.map Pause.resume, stop ≤ r.wave.pc) ∧ ∀ r ∈ pauses'.map Pause.resume, stop ≤ r.wave.pc := by
  induction h with
  | nil => exact ⟨by simp, by simp⟩
  | cons hr _ ih =>
    simp only [List.all_cons, Bool.and_eq_true, decide_eq_true_eq] at hhalt hhalt'
    rcases hr with hr | ⟨hpc, hpc'⟩
    · exact absurd (hhalt'.1.symm.trans (hr.halt.trans hhalt.1)) hne
    · obtain ⟨hrest, hrest'⟩ := ih hhalt.2 hhalt'.2
      exact ⟨List.forall_mem_cons.mpr ⟨hpc, hrest⟩, List.forall_mem_cons.mpr ⟨hpc', hrest'⟩⟩

namespace Workgroup.CommonFront

variable {b : Nat}

variable {p q : Program} {stop : Nat} {group group' : Workgroup} (hgroup : group.CommonFront p q stop group')
  {w w' : Wave} {s s' t t' : Shared}
include hgroup

theorem code_eq (h : w.Matches p w') (hpc : w.pc < stop) :
    group'.executable.code[w'.pc]? = group.executable.code[w.pc]? := by
  rw [h.pc_eq]
  exact hgroup.code w.pc hpc

/-- A turn that begins behind the front, or at the end of the code. -/
theorem turn_of_left {r r' : Pause} (h : w.Matches p w') (hleft : w.pc < stop → group.executable.code[w.pc]? = none)
    (hs : s.CountsAs s') (hturn : w.turn group b s = .done r t)
    (hturn' : w'.turn group' b s' = .done r' t') :
    r.Paired p stop r' ∧ t.CountsAs t' := by
  by_cases hpc : w.pc < stop
  · have hop := hleft hpc
    rw [Wave.turn_of_code_eq_none hop] at hturn
    rw [Wave.turn_of_code_eq_none ((hgroup.code_eq h hpc).trans hop)] at hturn'
    cases hturn
    cases hturn'
    exact ⟨.inl ⟨rfl, rfl, h⟩, hs⟩
  · have hpc := Nat.le_of_not_lt hpc
    obtain ⟨hr, hcounters⟩ := hgroup.rest.turn hturn hpc
    obtain ⟨hr', hcounters'⟩ := hgroup.rest'.turn hturn' (h.pc_eq ▸ hpc)
    exact ⟨.inr ⟨hr, hr'⟩, hcounters'.trans (hs.trans hcounters.symm)⟩

/-- Waves side by side take a turn side by side, unless they leave the front. -/
theorem turn_of_matches {r r' : Pause} (h : w.Matches p w')
    (hs : s.CountsAs s') (hturn : w.turn group b s = .done r t)
    (hturn' : w'.turn group' b s' = .done r' t') :
    r.Paired p stop r' ∧ t.CountsAs t' := by
  induction b generalizing w w' s s' with
  | zero =>
    refine hgroup.turn_of_left h (fun _ => ?_) hs hturn hturn'
    cases hop : group.executable.code[w.pc]? with
    | none => rfl
    | some op =>
      rw [Wave.turn_zero hop] at hturn
      cases hturn
  | succ b ih =>
    by_cases hleft : w.pc < stop → group.executable.code[w.pc]? = none
    · exact hgroup.turn_of_left h hleft hs hturn hturn'
    obtain ⟨hpc, hsome⟩ := Classical.not_imp.mp hleft
    obtain ⟨op, hop⟩ := Option.ne_none_iff_exists'.mp hsome
    rw [Wave.turn_succ hop] at hturn
    rw [Wave.turn_succ ((hgroup.code_eq h hpc).trans hop)] at hturn'
    obtain ⟨⟨w₁, flag⟩, s₁, hstep, hturn⟩ := Exec.bind_eq_done_iff.mp hturn
    obtain ⟨⟨w₁', flag'⟩, s₁', hstep', hturn'⟩ := Exec.bind_eq_done_iff.mp hturn'
    obtain ⟨hflag, hmatches, hs₁⟩ := hgroup.step h (hgroup.front w.pc hpc op hop) hs hstep hstep'
    obtain rfl : flag' = flag := hflag
    cases flag' with
    | true =>
      cases hturn
      cases hturn'
      exact ⟨.inl ⟨rfl, rfl, hmatches⟩, hs₁⟩
    | false => exact ih hmatches hs₁ hturn hturn'

variable {runners runners' : List Runner}

/-- A sweep of waves that are side by side, or behind the front on both sides. -/
theorem sweep {pauses pauses' : List Pause}
    (h : List.Forall₂ (Runner.Paired p stop) runners runners') (hs : s.CountsAs s')
    (hsweep : group.sweeping runners s = .done pauses t) (hsweep' : group'.sweeping runners' s' = .done pauses' t') :
    List.Forall₂ (Pause.Paired p stop) pauses pauses' ∧ t.CountsAs t' := by
  induction h generalizing s s' pauses pauses' with
  | nil =>
    cases hsweep
    cases hsweep'
    exact ⟨.nil, hs⟩
  | cons hr _ ih =>
    obtain ⟨P, s₁, ps, hturn, hrest, rfl⟩ := sweeping_cons_eq_done_iff.mp hsweep
    obtain ⟨P', s₁', ps', hturn', hrest', rfl⟩ := sweeping_cons_eq_done_iff.mp hsweep'
    rcases hr with hr | ⟨hpc, hpc'⟩
    · rw [hr.budget] at hturn'
      obtain ⟨hP, hs₁⟩ := hgroup.turn_of_matches hr.wave hs hturn hturn'
      exact (ih hs₁ hrest hrest').imp_left (.cons hP)
    · obtain ⟨hP, hcounters⟩ := hgroup.rest.turn hturn hpc
      obtain ⟨hP', hcounters'⟩ := hgroup.rest'.turn hturn' hpc'
      exact (ih (hcounters'.trans (hs.trans hcounters.symm)) hrest hrest').imp_left (.cons (.inr ⟨hP, hP'⟩))

/-- Two runs that come to an end have counted the same. -/
theorem queryCounters_eq
    (h : List.Forall₂ (Runner.Paired p stop) runners runners') (hs : s.CountsAs s')
    (hrun : group.rounds runners s = .done () t) (hrun' : group'.rounds runners' s' = .done () t') :
    t.CountsAs t' := by
  induction hn : totalBudget runners using Nat.strongRecOn generalizing runners runners' s s' with
  | ind n ih =>
    subst hn
    obtain ⟨pauses, u, hsweep, hafter⟩ := rounds_eq_done_iff.mp hrun
    obtain ⟨pauses', u', hsweep', hafter'⟩ := rounds_eq_done_iff.mp hrun'
    obtain ⟨hpauses, hu⟩ := hgroup.sweep h hs hsweep hsweep'
    rcases hafter with ⟨hfinished, rfl⟩ | ⟨hnot, hbarrier, -, hrounds⟩ <;>
      rcases hafter' with ⟨hfinished', rfl⟩ | ⟨hnot', hbarrier', -, hrounds'⟩
    · exact hu
    · have hbehind := Pause.behind_of_paired hpauses (by decide) hfinished hbarrier'
      exact (hgroup.rest'.rounds hrounds' hbehind.2).trans hu
    · have hbehind := Pause.behind_of_paired hpauses (by decide) hbarrier hfinished'
      exact hu.trans (hgroup.rest.rounds hrounds hbehind.1).symm
    · refine ih _ (totalBudget_resume_lt hsweep hnot hbarrier) ?_ ?_ hrounds hrounds' rfl
      · rw [List.forall₂_map_left_iff, List.forall₂_map_right_iff]
        exact hpauses.imp fun _ _ hr => hr.imp_left Pause.Beside.resume
      · exact hu

/-- At the start the waves are side by side. -/
theorem paired_runners (schedule : Schedule) (limit : Nat) :
    List.Forall₂ (Runner.Paired p stop) (group.runners schedule limit) (group'.runners schedule limit) := by
  have hlane : (Lane.start group.program).Matches p (Lane.start group'.program) := by
    refine ⟨fun v hv => ?_, fun x hx => ?_⟩
    · obtain ⟨d, hd⟩ := Option.isSome_iff_exists.mp hv
      have hlt := Program.lt_of_definition? hd
      have hlt₁ := Nat.lt_of_lt_of_le hlt hgroup.within.size_le
      have hlt₂ := Nat.lt_of_lt_of_le (hgroup.alike.size ▸ hlt) hgroup.within'.size_le
      simp only [Lane.read, Lane.start, Array.getElem?_replicate, hlt₁, hlt₂, ↓reduceIte]
    · obtain ⟨type, htype⟩ := Option.isSome_iff_exists.mp hx
      have hlt := Program.lt_of_varType? htype
      have hlt₁ := Nat.lt_of_lt_of_le hlt hgroup.within.vars_size_le
      have hlt₂ := Nat.lt_of_lt_of_le (hgroup.alike.vars ▸ hlt) hgroup.within'.vars_size_le
      simp only [Lane.readVar, Lane.start, Array.getElem?_replicate, hlt₁, hlt₂, ↓reduceIte]
  have hwave (id : Nat) : (Wave.start group id).Matches p (Wave.start group' id) := by
    unfold Wave.start
    rw [hgroup.wave, hgroup.launch]
    refine ⟨rfl, by simp, fun l lane lane' hl hl' => ?_⟩
    rw [Array.getElem?_replicate] at hl hl'
    cases (Option.ite_none_right_eq_some.mp hl).2
    cases (Option.ite_none_right_eq_some.mp hl').2
    exact hlane
  have hnum : group'.numWaves = group.numWaves := by
    unfold Workgroup.numWaves
    rw [hgroup.launch, hgroup.wave]
  have hall : List.Forall₂ (Runner.Paired p stop)
      ((List.range group.numWaves).map fun id => ⟨Wave.start group id, limit⟩)
      ((List.range group'.numWaves).map fun id => ⟨Wave.start group' id, limit⟩) := by
    rw [hnum, List.forall₂_map_left_iff, List.forall₂_map_right_iff, List.forall₂_same]
    exact fun id _ => .inl ⟨rfl, hwave id⟩
  cases schedule with
  | forward => exact hall
  | reverse => exact List.rel_reverse hall

end Workgroup.CommonFront

/-- The counters are handed over as they are. -/
theorem WorkgroupResult.queryCounters_of_finish {result output : WorkgroupResult} {numLanes : Nat}
    (h : result.finish numLanes = .ok output) : output.queryCounters = result.queryCounters := by
  unfold finish at h
  split at h
  · cases h
  · dsimp only at h
    split at h
    · cases h
    · split at h <;> cases h
      rfl

theorem ComputeUnit.queryCounters_of_run {executable : Executable} {launch : Launch} {unit unit' : ComputeUnit}
    {output : WorkgroupResult} (h : run executable launch unit = .done output unit') :
    ∃ t, (unit.workgroup executable launch).rounds
        ((unit.workgroup executable launch).runners unit.schedule unit.stepLimit)
        { memory := unit.startMemory executable } = .done () t ∧ output.queryCounters = t.result.queryCounters := by
  obtain ⟨-, m, hm, -⟩ := run_eq_done_iff.mp h
  unfold Workgroup.complete at hm
  split at hm
  · rename_i t ht
    split at hm <;> cases hm
    exact ⟨t, ht, WorkgroupResult.queryCounters_of_finish ‹_›⟩
  · cases hm
  · cases hm

end PrimitiveShader
