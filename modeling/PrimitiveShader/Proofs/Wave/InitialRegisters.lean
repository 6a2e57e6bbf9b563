import PrimitiveShader.Proofs.Typing.Run
import PrimitiveShader.Proofs.Wave.Computed

/-!
# Registers that are never read before they are set

The registers of a launch start at zero, but a valid program does not depend on that. Two runs of it that differ
in the contents of the registers at the start stay side by side: each lane that is on has computed whatever the
next operation may use, so both runs do the same (`Wave.Tracks.step`). The end of the run, with the memory that
it leaves, is the same for all contents (`ComputeUnit.runFrom_eq_run`). Only an instruction that reads the
registers of another lane could tell the contents apart, as that lane may have been off.
-/

namespace PrimitiveShader

variable {group : Workgroup}

/-! ## Steps -/

/-- Whether an instruction reads the registers of a lane that may be off. -/
def Instr.isLaneRead : Instr → Bool
  | .intrinsic (.crossLane (.readLane _ _)) => true
  | _ => false

/-- Every operation uses what is in scope, and none reads from a lane that may be off. -/
structure Workgroup.Scoped (group : Workgroup) : Prop where
  inScope : ∀ (pc : Nat) (op : CodeOp), group.executable.code[pc]? = some op →
    op.Scoped group.program (FlatScope.before group.executable.code) pc
  reads : ∀ value instr, .instr value ∈ group.executable.code → group.program.instr value = .ok instr →
    instr.isLaneRead = false

/-- The waves differ in nothing that the first may use. -/
def Wave.Tracks (group : Workgroup) (w w' : Wave) : Prop :=
  ∃ ran, w.Knows (FlatScope.before group.executable.code w.pc) ran ∧ w.Alongside group.program ran w'

namespace Wave.Alongside

variable {group : Workgroup} {ran : Ran} {w w' : Wave}

variable (h : w.Alongside group.program ran w')
include h

/-- An instruction, on the lanes that are on. -/
theorem stepInstr {visible : Value → Prop} {value : Value}
    {d : Definition} (hd : group.program.Supports visible value d)
    (hran : ran.Covers w.exec.lanes visible) (hread : d.instr.isLaneRead = false) (s : Shared) :
    (w.stepInstr group value s).Twin (fun s s' => s' = s)
      (fun p t p' t' => p'.2 = p.2 ∧ p.1.Alongside group.program (ran.add w.exec.lanes value) p'.1 ∧ t' = t)
      (w'.stepInstr group value s) := by
  obtain ⟨lanes', rfl⟩ : ∃ lanes', w' = { w with lanes := lanes' } := ⟨_, h.same⟩
  have hnext : Wave.Alongside group.program ran { w with pc := w.pc + 1 } _ := h.goto (w.pc + 1)
  unfold Wave.stepInstr
  split
  · rename_i hempty
    have hnil : w.exec.lanes = [] := LaneMask.lanes_eq_nil_iff.mpr hempty
    rw [hnil, Ran.add_nil]
    exact ⟨rfl, hnext, rfl⟩
  · rename_i hon
    refine .bind (.lift fun instr hinstr => ?_)
    obtain rfl : d.instr = instr :=
      Except.ok.inj ((Program.instr_of_definition? hd.definition).symm.trans hinstr)
    have hexecute := hnext.execute hd (fun l hl o ho => hran l hl o (hd.operands o ho).1)
      (Bool.eq_false_iff.mpr hon) (fun source index hi => by rw [hi] at hread; cases hread) s
    have htype := hd.type
    generalize d.instr = instr at hexecute htype
    split
    · have hvoid : group.program.valueType? value = some .void := by
        rw [Program.valueType?, hd.definition]
        exact htype.symm
      split
      · exact ⟨rfl, hnext.add_void hvoid _, rfl⟩
      · exact ⟨rfl, rfl⟩
    · exact .bind (hexecute.mono fun u t u' t' _ _ hu => ⟨rfl, hu⟩)

/-- A control operation looks at no register but the condition of a branch. -/
theorem steer {op : CodeOp} {scope : Nat → FlatScope}
    (hscoped : op.Scoped group.program scope w.pc) (hran : ran.Covers w.exec.lanes (scope w.pc).visible) :
    Both (Alongside group.program ran) (w.steer op) (w'.steer op) := by
  have hsteer : w'.steer op = _ := Relates.steer h fun cond elseAt hop => by
    subst hop
    exact h.maskOf_eq ⟨fun l hl => hran l hl cond hscoped.1.1, fun hvoid => by rw [hscoped.1.2] at hvoid; cases hvoid⟩
  rw [hsteer]
  cases hu : w.steer op with
  | error fault => rfl
  | ok u => exact ⟨rfl, (lanes_of_steer hu).symm ▸ h.lanes⟩

end Wave.Alongside

namespace Workgroup.Scoped

variable {group : Workgroup} (hgroup : group.Scoped) {w w' : Wave}
include hgroup

/-- An operation does the same to both waves, which then still differ in nothing that may be used. -/
theorem step {op : CodeOp} (hop : group.executable.code[w.pc]? = some op) (h : w.Tracks group w') (s : Shared) :
    (w.step group op s).Twin (fun s s' => s' = s)
      (fun p t p' t' => p'.2 = p.2 ∧ p.1.Tracks group p'.1 ∧ t' = t) (w'.step group op s) := by
  obtain ⟨ran, hknows, h⟩ := h
  have hscoped := hgroup.inScope w.pc op hop
  by_cases hinstr : ∃ value, op = .instr value
  · obtain ⟨value, rfl⟩ := hinstr
    obtain ⟨d, hd⟩ := hscoped
    have hread := hgroup.reads value d.instr (Array.mem_of_getElem? hop) (Program.instr_of_definition? hd.definition)
    refine (h.stepInstr hd hknows.exec hread s).mono fun p t p' t' hp _ hR => ?_
    obtain ⟨hflag, hlanes, ht⟩ := hR
    refine ⟨hflag, ⟨_, ?_, hlanes⟩, ht⟩
    rw [Wave.stepInstr_eq_done hp]
    exact hknows.instr hop p.1.lanes
  · have hne : ∀ value, op ≠ .instr value := fun value hvalue => hinstr ⟨value, hvalue⟩
    rw [Wave.step_eq_steer hne, Wave.step_eq_steer hne]
    refine .bind (Both.lift ((h.steer hscoped hknows.exec).and_eq.mono ?_))
    rintro u u' ⟨hu, hsteer⟩
    exact ⟨rfl, ⟨ran, hknows.steer hop hscoped hne hsteer, hu⟩, rfl⟩

theorem turn {budget : Nat} {s s' : Shared} (h : w.Tracks group w') (hs : s' = s) :
    (w.turn group budget s).Twin (fun s s' => s' = s)
      (fun p t p' t' => p.Beside (Wave.Tracks group) p' ∧ t' = t) (w'.turn group budget s') := by
  refine (Wave.turn_twin (J := fun _ w s w' s' => w.Tracks group w' ∧ s' = s)
    (P := fun w s w' s' => w.Tracks group w' ∧ s' = s) ?_ ?_ ⟨h, hs⟩).mono ?_
  · rintro b w s w' s' ⟨h, hs⟩
    obtain ⟨ran, -, hlanes⟩ := id h
    exact ⟨hlanes.pc_eq, hlanes.id_eq, hs, h, hs⟩
  · rintro b w s w' _ op hop ⟨h, rfl⟩
    exact (hgroup.step hop h _).mono fun p t p' t' _ _ ⟨hflag, hp⟩ => ⟨hflag, hp, fun _ => hp⟩
  · rintro p t p' t' - - ⟨hhalt, hbudget, hwave, ht⟩
    exact ⟨⟨hhalt, hbudget, hwave⟩, ht⟩

/-- The turns of two workgroups end in the same way. -/
theorem rounds_eq {runners runners' : List Runner}
    (h : List.Forall₂ (Runner.Beside (Wave.Tracks group)) runners runners') (s : Shared) :
    group.rounds runners' s = group.rounds runners s := by
  have hrounds : (group.rounds runners s).Twin (fun s s' => s' = s) (fun _ t _ t' => t' = t)
      (group.rounds runners' s) :=
    rounds_twin (S := fun s s' => s' = s) (fun hs => by rw [hs]) (fun hs => by rw [hs]) hgroup.turn h rfl
  obtain ⟨_, t, _, t', hr, hr', rfl⟩ | ⟨error, t, t', hr, hr', rfl⟩ | ⟨fault, hr, hr'⟩ := hrounds.elim <;> rw [hr, hr']

end Workgroup.Scoped

/-- The operations of a valid program are in scope. -/
theorem Workgroup.scoped_of_validate {program : Program}
    (hvalid : program.validate = .ok ()) (hexec : program.toExecutable = .ok (.ok group.executable))
    (hread : Block.All program (fun instr => instr.isLaneRead = false) program.body) : group.Scoped := by
  obtain ⟨executable, launch, wave⟩ := group
  obtain ⟨rfl, -⟩ := Program.toExecutable_eq_ok hexec
  obtain ⟨hbody, -⟩ := Program.validate_eq_ok_iff.mp hvalid
  have hcode : CodeAt (Block.code 0 program.body).toArray 0 (Block.code 0 program.body) := ⟨[], [], by simp, rfl⟩
  have hbefore : FlatScope.before (Block.code 0 program.body).toArray 0 = ⟨fun _ => False, []⟩ := rfl
  constructor
  · intro pc op hop
    have hscoped := hbody.scoped hcode hbefore pc op (by simpa using hop)
    rwa [Nat.zero_add] at hscoped
  · intro value instr hmem hinstr
    exact hread value (Block.mem_values_of_code (by simpa using hmem)) instr hinstr

/-! ## Runs from other registers -/

/-- The lane with other registers. -/
def Lane.filled (contents : Nat → UInt64) (lane : Lane) : Lane :=
  { lane with registers := lane.registers.mapIdx fun k _ => contents k }

/-- The wave with other registers on all of its lanes. -/
def Wave.filled (contents : Nat → Nat → UInt64) (w : Wave) : Wave :=
  { w with lanes := w.lanes.mapIdx fun l lane => lane.filled (contents l) }

theorem Lane.filled_start (program : Program) : (Lane.start program).filled (fun _ => 0) = Lane.start program := by
  have hregisters : (Lane.start program).registers.mapIdx (fun _ _ => 0) = (Lane.start program).registers :=
    Array.ext (by simp) fun k _ _ => by simp [Lane.start]
  rw [Lane.filled, hregisters]

theorem Wave.filled_start (group : Workgroup) (id : Nat) :
    (Wave.start group id).filled (fun _ _ => 0) = Wave.start group id := by
  have hlanes : (Wave.start group id).lanes.mapIdx (fun _ lane => lane.filled fun _ => 0) =
      (Wave.start group id).lanes :=
    Array.ext (by simp) fun l _ _ => by simp [Wave.start, Lane.filled_start]
  rw [Wave.filled, hlanes]

/-- The waves of a workgroup before their first operation, with the given contents of the registers of each
lane of each wave. -/
def Workgroup.runnersFrom (group : Workgroup) (contents : Nat → Nat → Nat → UInt64) (schedule : Schedule)
    (stepLimit : Nat) : List Runner :=
  (group.runners schedule stepLimit).map fun r => { r with wave := r.wave.filled (contents r.wave.id) }

/-- Runs one workgroup, whose registers have the given contents before the first operation. -/
def ComputeUnit.runFrom (contents : Nat → Nat → Nat → UInt64) (executable : Executable) (launch : Launch) :
    Exec ComputeUnit WorkgroupResult := fun unit =>
  match launch.validate unit.wave with
  | .error cause => .failed (.launch cause) unit
  | .ok () =>
    let group := unit.workgroup executable launch
    let runners := group.runnersFrom contents unit.schedule unit.stepLimit
    match group.complete runners (unit.startMemory executable) with
    | .done result memory => .done result { unit with memory }
    | .failed error memory => .failed error { unit with memory }
    | .faulted fault => .faulted fault

/-- The runs from two starts are the same if the waves end in the same way. -/
theorem ComputeUnit.runFrom_eq_run_of_complete {contents : Nat → Nat → Nat → UInt64} {executable : Executable}
    {launch : Launch} {unit : ComputeUnit} (h : (unit.workgroup executable launch).complete
        ((unit.workgroup executable launch).runnersFrom contents unit.schedule unit.stepLimit)
        (unit.startMemory executable) = (unit.workgroup executable launch).complete
        ((unit.workgroup executable launch).runners unit.schedule unit.stepLimit)
        (unit.startMemory executable)) : runFrom contents executable launch unit = run executable launch unit := by
  unfold runFrom run
  cases launch.validate unit.wave with
  | error cause => rfl
  | ok u =>
    exact congrArg (fun o : Outcome SharedMemory WorkgroupResult => (match o with
      | .done result memory => .done result { unit with memory }
      | .failed error memory => .failed error { unit with memory }
      | .faulted fault => .faulted fault : Outcome ComputeUnit WorkgroupResult)) h

/-- A launch starts with zero in every register. -/
theorem ComputeUnit.runFrom_zero (executable : Executable) (launch : Launch) :
    runFrom (fun _ _ _ => 0) executable launch = run executable launch := by
  funext unit
  have hrunners : (unit.workgroup executable launch).runnersFrom (fun _ _ _ => 0) unit.schedule unit.stepLimit =
      (unit.workgroup executable launch).runners unit.schedule unit.stepLimit := by
    refine (List.map_congr_left fun r hr => ?_).trans (List.map_id _)
    have hwave : r.wave.filled (fun _ _ => 0) = r.wave := by
      rw [wave_of_mem_runners hr, Wave.filled_start]
    rw [hwave]
    rfl
  exact runFrom_eq_run_of_complete (by rw [hrunners])

/-- Before its first operation a wave has computed nothing, so its registers may hold anything. -/
theorem Wave.tracks_filled {w : Wave} (hpc : w.pc = 0) (hframes : w.frames = [])
    (contents : Nat → Nat → UInt64) : w.Tracks group (w.filled contents) := by
  refine ⟨fun _ _ => False, .start _ _ hpc hframes, rfl, by simp [Wave.filled], fun l lane lane' hl hl' => ?_⟩
  simp only [Wave.filled, Array.getElem?_mapIdx, hl, Option.map_some, Option.some.injEq] at hl'
  subst hl'
  exact ⟨by simp [Lane.filled], fun v hv => hv.elim, rfl, fun _ _ => rfl, rfl⟩

/-- A valid program without reads from other lanes does not see what its registers hold before the first
operation: on every unit every launch ends in the same way and leaves the same memory. -/
theorem ComputeUnit.runFrom_eq_run {program : Program} {executable : Executable}
    (hvalid : program.validate = .ok ()) (hexec : program.toExecutable = .ok (.ok executable))
    (hread : Block.All program (fun instr => instr.isLaneRead = false) program.body)
    (contents : Nat → Nat → Nat → UInt64) (launch : Launch) :
    runFrom contents executable launch = run executable launch := by
  funext unit
  have hgroup : (unit.workgroup executable launch).Scoped := Workgroup.scoped_of_validate hvalid hexec hread
  have hbeside : List.Forall₂ (Runner.Beside (Wave.Tracks (unit.workgroup executable launch)))
      ((unit.workgroup executable launch).runners unit.schedule unit.stepLimit)
      ((unit.workgroup executable launch).runnersFrom contents unit.schedule unit.stepLimit) := by
    refine List.forall₂_map_right_iff.mpr (List.forall₂_same.mpr fun r hr => ⟨rfl, ?_⟩)
    have hstart := wave_of_mem_runners hr
    exact Wave.tracks_filled (by rw [hstart]; rfl) (by rw [hstart]; rfl) _
  refine runFrom_eq_run_of_complete ?_
  unfold Workgroup.complete
  rw [hgroup.rounds_eq hbeside]

/-- Lane 0 sets a variable in a branch, and every lane stores the variable to shared memory. -/
def branchingProgram : Program where
  stage := .vertex
  definitions := #[⟨.intrinsic (.input .localInvocationIndex), .u32⟩, ⟨.const .u32 1, .u32⟩,
    ⟨.binary .lt ⟨0⟩ ⟨1⟩, .bool⟩, ⟨.binary .add ⟨0⟩ ⟨1⟩, .u32⟩, ⟨.storeVar ⟨0⟩ ⟨3⟩, .void⟩,
    ⟨.loadVar ⟨0⟩, .u32⟩, ⟨.const .u32 4, .u32⟩, ⟨.binary .mul ⟨0⟩ ⟨6⟩, .u32⟩,
    ⟨.intrinsic (.storeShared ⟨5⟩ ⟨7⟩ 0), .void⟩]
  vars := #[⟨"sum", .u32⟩]
  body := [.instr ⟨0⟩, .instr ⟨1⟩, .instr ⟨2⟩, .branch ⟨2⟩ [.instr ⟨3⟩, .instr ⟨4⟩] [], .instr ⟨5⟩,
    .instr ⟨6⟩, .instr ⟨7⟩, .instr ⟨8⟩]
  sharedSize := 8

theorem ComputeUnit.runFrom_eq_run_branching :
    let executable : Executable := ⟨branchingProgram, (Block.code 0 branchingProgram.body).toArray⟩
    let unit : ComputeUnit := { wave := .wave32 }
    let contents : Nat → Nat → Nat → UInt64 := fun _ lane k => UInt64.ofNat (lane + k + 7)
    (run executable { numLanes := 2 } unit).state?.map (fun u => u.memory.bytes) = some #[1, 0, 0, 0, 0, 0, 0, 0] ∧
      runFrom contents executable { numLanes := 2 } unit = run executable { numLanes := 2 } unit := by
  intro executable unit contents
  refine ⟨by decide +kernel, ?_⟩
  have hread : Block.All branchingProgram (fun instr => instr.isLaneRead = false) branchingProgram.body := by
    intro v hv i hi
    have hcases : v = ⟨0⟩ ∨ v = ⟨1⟩ ∨ v = ⟨2⟩ ∨ v = ⟨3⟩ ∨ v = ⟨4⟩ ∨ v = ⟨5⟩ ∨ v = ⟨6⟩ ∨ v = ⟨7⟩ ∨ v = ⟨8⟩ := by
      simpa [Block.values, Node.values, branchingProgram, or_assoc] using hv
    rcases hcases with rfl | rfl | rfl | rfl | rfl | rfl | rfl | rfl | rfl <;> cases hi <;> rfl
  exact congrFun (runFrom_eq_run (show branchingProgram.validate = .ok () from rfl) rfl hread contents _) unit

end PrimitiveShader
