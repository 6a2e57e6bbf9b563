import PrimitiveShader.Proofs.Scalar.Run
import PrimitiveShader.Proofs.Schedule.StepLimit
import PrimitiveShader.Proofs.Thread.Run
import PrimitiveShader.Proofs.Typing.Waves
import PrimitiveShader.Proofs.Validity.Scope
import PrimitiveShader.Proofs.Wave.StructuredRun

/-!
# Runs without faults

A turn of a sound wave keeps the wave sound, and it faults only where faults are admitted or where
branches and loops are not balanced (`Wave.Sound.turn`). In a valid program they are balanced in every
turn of every wave (`Runner.Balanced`). So a valid program whose instructions ask for nothing that does
not exist runs to a result or to an error (`ComputeUnit.run_ends_without_fault`).
-/

namespace PrimitiveShader

variable {launch : Launch}

/-! ## The operations of a valid program -/

/-- The operation belongs to a valid program: its instruction is supported, its condition is one. -/
def CodeOp.Supported (program : Program) : CodeOp → Prop
  | .instr value => ∃ visible d, program.Supports visible value d
  | .branch cond _ => program.valueType? cond = some .bool
  | _ => True

/-- The flat code of a well-formed block. -/
theorem Block.WellFormed.supported {program : Program} {block : Block} {inLoop : Bool}
    (h : Block.WellFormed program inLoop (fun _ => False) block) :
    ∀ op ∈ Block.code 0 block, op.Supported program := by
  intro op hop
  obtain ⟨k, hk⟩ := List.mem_iff_getElem?.mp hop
  have hcode : CodeAt (Block.code 0 block).toArray 0 (Block.code 0 block) := ⟨[], [], by simp, rfl⟩
  have hscoped := h.scoped hcode rfl k op hk
  cases op with
  | instr value =>
    obtain ⟨d, hd⟩ := hscoped
    exact ⟨_, d, hd⟩
  | branch cond elseAt => exact hscoped.1.2
  | otherwise | endBranch | loop | leave | endLoop => trivial

/-- All that a wave of the workgroup can come across is supported, keeps to its type where types matter,
and asks for what exists where faults are not admitted. -/
structure Workgroup.Sound (group : Workgroup) (typed F : Prop) : Prop where
  launch : group.launch.Valid group.wave
  supported : ∀ op ∈ group.executable.code, op.Supported group.program
  keepsType : typed → ∀ v i, .instr v ∈ group.executable.code → group.program.instr v = .ok i →
    i.Typed group.wave
  total : F ∨ ∀ v i, .instr v ∈ group.executable.code → group.program.instr v = .ok i →
    i.Total group.launch typed

/-! ## Turns -/

namespace Wave

variable {group : Workgroup} {typed F : Prop} {w w' : Wave}

namespace Sound

variable {op : CodeOp}

/-- A control operation faults only where branches and loops are not balanced. -/
theorem steer_eq_error (h : w.Sound group typed) (hop : op.Supported group.program)
    {fault : Fault} (hf : w.steer op = .error fault) : fault = .controlStack := by
  cases op <;> simp only [steer, enterBranch, turnBranch, endBranch, leaveLoop, endLoop] at hf
  case instr | loop => cases hf
  case branch =>
    obtain ⟨mask, hmask, -⟩ := h.maskOf hop
    rw [hmask] at hf
    cases hf
  case otherwise | endBranch | leave =>
    split at hf <;> cases hf
    rfl
  case endLoop =>
    split at hf
    · split at hf <;> cases hf
      rfl
    · cases hf

/-- A step that succeeds keeps the wave sound if it does so with its lanes. -/
theorem of_step (h : w.Sound group typed) {next : Wave × Bool} {s s' : Shared}
    (hs : w.step group op s = .done next s') (hlanes : LanesSound group typed next.1.lanes) :
    next.1.Sound group typed := by
  obtain ⟨hid, hbelow⟩ := h.toBelow.step hs
  exact { toBelow := hbelow, id := hid ▸ h.id, lanes := hlanes }

/-- An instruction keeps the lanes sound. -/
theorem stepInstr (hgroup : group.Sound typed F) (h : w.Sound group typed) {value : Value}
    (hop : .instr value ∈ group.executable.code) (s : Shared) : (w.stepInstr group value s).Ends (fun _ => True) F
      fun next _ => LanesSound group typed next.1.lanes := by
  obtain ⟨visible, d, hd⟩ := hgroup.supported _ hop
  have hinstr : group.program.instr value = .ok d.instr := by
    simp [Program.instr, Program.definition, hd.definition, Except.map]
  unfold Wave.stepInstr
  split
  · exact h.lanes
  · rename_i hexec
    have hnext : Wave.Sound group typed { w with pc := w.pc + 1 } :=
      { exec := h.exec, frames := h.frames, id := h.id, lanes := h.lanes }
    have hexecute (hbarrier : d.instr ≠ .intrinsic .barrier) :=
      hnext.execute hgroup.launch (Bool.eq_false_iff.mpr hexec) hd (fun ht => hgroup.keepsType ht value _ hop hinstr)
        (hgroup.total.imp_right fun ht => ht value _ hop hinstr) hbarrier s
    simp only [hinstr, Exec.liftM_ok, pure_bind]
    generalize d.instr = instr at hexecute ⊢
    split
    · split
      · exact h.lanes
      · trivial
    · rename_i hbarrier
      exact .bind (hexecute hbarrier)

theorem step (hgroup : group.Sound typed F) (h : w.Sound group typed)
    (hop : op ∈ group.executable.code) {s : Shared} (hbalanced : w.step group op s ≠ .faulted .controlStack) :
    (w.step group op s).Ends (fun _ => True) F fun next _ => next.1.Sound group typed := by
  suffices (w.step group op s).Ends (fun _ => True) F
      fun next _ => LanesSound group typed next.1.lanes from this.mono fun _ _ => h.of_step
  by_cases hinstr : ∃ v, op = .instr v
  · obtain ⟨v, rfl⟩ := hinstr
    exact h.stepInstr hgroup hop s
  · rw [step_eq_steer fun v hv => hinstr ⟨v, hv⟩] at hbalanced ⊢
    cases hsteer : w.steer op with
    | error fault =>
      rw [hsteer, h.steer_eq_error (hgroup.supported op hop) hsteer] at hbalanced
      exact absurd rfl hbalanced
    | ok w' =>
      have hlanes : LanesSound group typed w'.lanes := lanes_of_steer hsteer ▸ h.lanes
      exact hlanes

theorem turn (hgroup : group.Sound typed F) : ∀ {budget : Nat} {w : Wave} {s : Shared},
    w.Sound group typed → w.turn group budget s ≠ .faulted .controlStack →
    (w.turn group budget s).Ends (fun _ => True) F fun pause _ => pause.wave.Sound group typed
  | budget, w, s, h, hbalanced => by
    cases hcode : group.executable.code[w.pc]? with
    | none =>
      rw [turn_of_code_eq_none hcode]
      exact h
    | some op =>
      cases budget with
      | zero =>
        rw [turn_zero hcode]
        trivial
      | succ budget =>
        rw [turn_succ hcode] at hbalanced ⊢
        have hstep := h.step hgroup (Array.mem_of_getElem? hcode) (s := s) fun hf =>
          hbalanced (by rw [Exec.bind_apply, hf])
        refine .bind (hstep.mono fun next t hnext hsound => ?_)
        rw [Exec.bind_apply, hnext] at hbalanced
        obtain ⟨w', atBarrier⟩ := next
        cases atBarrier with
        | true => exact hsound
        | false => exact turn hgroup hsound hbalanced

/-- A wave is sound before its first operation. -/
theorem start {id : Nat} (hid : id < Hardware.maxWaves) : (Wave.start group id).Sound group typed where
  exec := Setting.launched_below ⟨group, fun _ => none, False⟩ id
  frames frame hframe := by cases hframe
  id := hid
  lanes := by
    refine ⟨by simp [Wave.start], fun l lane hlane => ?_⟩
    simp only [Wave.start, Array.getElem?_replicate] at hlane
    split at hlane <;> cases hlane
    exact .start _ _

end Sound

/-! ## Balance -/

/-- A wave cannot tell what the others would have done at barriers that lie behind it. -/
theorem outcome_play_congr {others others' : Others} : ∀ (budget : Nat) (w : Wave) (scene : Scene),
    (∀ k, scene.barriers ≤ k → others k = others' k) →
    (w.play group others budget scene).outcome = (w.play group others' budget scene).outcome := by
  intro budget
  induction budget using Nat.strongRecOn with
  | ind budget ih =>
    intro w scene hsame
    rw [outcome_play, outcome_play]
    unfold carryOn
    split
    · rfl
    · rename_i w' left shared hrun
      rw [hsame _ (Nat.le_refl _)]
      exact ih left ((budget_of_run hrun).2 rfl) w' _ fun k hk => hsame k (Nat.le_of_succ_le hk)
    · rfl
    · rfl

end Wave

namespace Runner

variable {group : Workgroup} {r : Runner} {s s' : Shared}

/-- The branches and loops of the wave are balanced to its end, whatever the others do. Barriers are
counted from where the run began, so only large enough numbers of barriers matter. -/
def Balanced (group : Workgroup) (r : Runner) : Prop :=
  ∃ met, ∀ (others : Others) (scene : Scene), met ≤ scene.barriers →
    (r.wave.play group others r.budget scene).outcome ≠ .faulted .controlStack

theorem Balanced.turn (h : r.Balanced group) (s : Shared) : r.wave.turn group r.budget s ≠ .faulted .controlStack := by
  obtain ⟨met, h⟩ := h
  intro hfault
  refine h (fun _ s => s) ⟨s, met⟩ (Nat.le_refl _) ?_
  rw [Wave.outcome_play, show r.wave.run group r.budget s = _ from hfault]
  rfl

/-- A wave that stands at a barrier is still balanced. -/
theorem Balanced.resume (h : r.Balanced group) {pause : Pause}
    (hturn : r.wave.turn group r.budget s = .done pause s') (hhalt : pause.halt = .barrier) :
    pause.resume.Balanced group := by
  obtain ⟨met, h⟩ := h
  obtain ⟨w', left, halt⟩ := pause
  cases hhalt
  refine ⟨met + 1, ?_⟩
  rintro others ⟨shared, k⟩ hk
  obtain ⟨k, rfl⟩ := Nat.exists_eq_succ_of_ne_zero (Nat.ne_of_gt (Nat.lt_of_lt_of_le met.succ_pos hk))
  -- The others lead from where the turn has ended to the state in question.
  have hplay := h (fun j => if j = k then fun _ => shared else others j) ⟨s, k⟩ (Nat.le_of_succ_le_succ hk)
  rw [Wave.outcome_play, show r.wave.run group r.budget s = _ from hturn] at hplay
  dsimp only [Wave.carryOn] at hplay
  rwa [if_pos rfl, Wave.outcome_play_congr _ _ _ fun j hj => if_neg (Nat.ne_of_gt hj)] at hplay

end Runner

/-! ## Rounds -/

namespace Workgroup.Sound

variable {runners : List Runner}

variable {group : Workgroup} {typed F : Prop} (hgroup : group.Sound typed F)
include hgroup

variable (h : ∀ r ∈ runners, r.wave.Sound group typed ∧ r.Balanced group)
include h

/-- All waves of a sound workgroup stay sound and balanced over their turns. -/
theorem sweep (s : Shared) :
    (group.sweep runners s).Ends (fun _ => True) F fun pauses _ => ∀ p ∈ pauses,
      p.wave.Sound group typed ∧ (p.halt = .barrier → p.resume.Balanced group) := by
  induction runners generalizing s with
  | nil => exact fun p hp => absurd hp List.not_mem_nil
  | cons r rest ih =>
    obtain ⟨hsound, hbalanced⟩ := h r List.mem_cons_self
    have hturn := hsound.turn hgroup (hbalanced.turn s)
    unfold Workgroup.sweep
    rw [show r.wave.run group r.budget s = r.wave.turn group r.budget s from rfl]
    cases hr : r.wave.turn group r.budget s with
    | failed error t => trivial
    | faulted fault =>
      rw [hr] at hturn
      exact hturn
    | done pause t =>
      rw [hr] at hturn
      have hrest := ih (fun q hq => h q (List.mem_cons_of_mem r hq)) t
      dsimp only
      cases hs : group.sweep rest t with
      | failed error u => trivial
      | faulted fault =>
        rw [hs] at hrest
        exact hrest
      | done pauses u =>
        rw [hs] at hrest
        exact List.forall_mem_cons.mpr ⟨⟨hturn, hbalanced.resume hr⟩, hrest⟩

/-- Rounds fault in no other way than the count of barriers: every wave has paid for each of them. -/
theorem rounds {limit : Nat} {fault : Fault} {s : Shared} (hlimit : ∀ r ∈ runners, r.budget + s.result.barriers ≤ limit)
    (hfault : group.rounds runners s = .faulted fault) : F ∨ fault = .overflow ∧ Shared.maxBarriers < limit := by
  have hpaid {runners : List Runner} {s t : Shared} {pauses : List Pause}
      (h : ∀ r ∈ runners, r.wave.Sound group typed ∧ r.Balanced group)
      (hlimit : ∀ r ∈ runners, r.budget + s.result.barriers ≤ limit) (hs : group.sweep runners s = .done pauses t)
      (hbarrier : pauses.all (·.halt = .barrier)) (p : Pause) (hp : p ∈ pauses) :
      p.budget + t.result.barriers < limit := by
    have hcount := (waveAction_sweeping fun r hr => (h r hr).1.toBelow).barriers_eq hs
    obtain ⟨r, hr, hlt⟩ := budget_of_sweeping hs hp
    have hlt := hlt (by simpa using List.all_eq_true.mp hbarrier p hp)
    have := hlimit r hr
    omega
  fun_induction Workgroup.rounds group runners s with
  | case1 => cases hfault
  | case2 runners s pauses t hs hnot hbarrier hfew ih =>
    have hsweep := hgroup.sweep h s
    rw [hs] at hsweep
    refine ih (fun r hr => ?_) (fun r hr => ?_) hfault <;> obtain ⟨p, hp, rfl⟩ := List.mem_map.mp hr
    · exact ⟨(hsweep p hp).1, (hsweep p hp).2 (by simpa using List.all_eq_true.mp hbarrier p hp)⟩
    · exact hpaid h hlimit hs hbarrier p hp
  | case3 runners s pauses t hs hnot hbarrier hmany =>
    cases hfault
    obtain ⟨p, hp⟩ := List.exists_mem_of_ne_nil pauses (by rintro rfl; exact hnot rfl)
    have := hpaid h hlimit hs hbarrier p hp
    exact .inr ⟨rfl, by omega⟩
  | case4 => cases hfault
  | case5 => cases hfault
  | case6 runners s fault' hs =>
    have hsweep := hgroup.sweep h s
    rw [hs] at hsweep
    exact .inl hsweep

end Workgroup.Sound

/-! ## Whole runs -/

/-- The instruction reads or writes shared memory. -/
def Instr.isSharedAccess : Instr → Bool
  | .intrinsic (.loadShared _ _ _) => true
  | .intrinsic (.storeShared _ _ _) => true
  | _ => false

/-- Some instruction of the program reads or writes shared memory. -/
def Program.AccessesMemory (program : Program) : Prop :=
  ∃ v ∈ Block.values program.body, ∃ i, program.instr v = .ok i ∧ i.isSharedAccess

/-- Types have to matter for accesses to shared memory only. -/
theorem Instr.Total.of_true {typed : Prop} {i : Instr} (h : i.Total launch True)
    (hshared : i.isSharedAccess → typed) : i.Total launch typed := by
  cases i with
  | intrinsic op =>
    cases op with
    | loadShared | storeShared => exact hshared rfl
    | input input => cases input <;> exact h
    | _ => exact h
  | _ => exact h

/-- The workgroups of a valid program are sound. -/
theorem Workgroup.sound_of_validate {program : Program} {executable : Executable}
    (hvalid : program.validate = .ok ()) (hexec : program.toExecutable = .ok (.ok executable))
    {wave : WaveWidth} (hlaunch : launch.Valid wave) {typed F : Prop}
    (htyped : typed → Block.All program (Instr.Typed wave) program.body)
    (htotal : F ∨ Block.All program (Instr.Total launch typed) program.body) :
    Workgroup.Sound ⟨executable, launch, wave⟩ typed F := by
  obtain ⟨rfl, -⟩ := Program.toExecutable_eq_ok hexec
  have hwell := (Program.validate_eq_ok_iff.mp hvalid).1
  have hvalues {v : Value} (hmem : .instr v ∈ (Block.code 0 program.body).toArray) : v ∈ Block.values program.body :=
    Block.mem_values_of_code (List.mem_toArray.mp hmem)
  exact {
    launch := hlaunch
    supported := fun op hmem => hwell.supported op (List.mem_toArray.mp hmem)
    keepsType := fun ht v i hmem => htyped ht v (hvalues hmem) i
    total := htotal.imp_right fun h v i hmem => h v (hvalues hmem) i }

namespace ComputeUnit

/-- A valid program runs to a result or to an error, whatever the launch, the unit and the memory,
unless one of its instructions extracts bits from beyond the register, names a query counter that does
not exist, or packs an index that does not fit. If it accesses shared memory its constants have to fit
their types and its ballots the wave. There is one more way to fault, which takes a step limit of 2 ^ 32 or more: the
waves may meet so often that the count of barriers overflows. -/
theorem run_ends_without_fault {program : Program} {executable : Executable}
    (hvalid : program.validate = .ok ()) (hexec : program.toExecutable = .ok (.ok executable))
    (launch : Launch) (unit : ComputeUnit) (htotal : Block.All program (Instr.Total launch True) program.body)
    (htyped : program.AccessesMemory → Block.All program (Instr.Typed unit.wave) program.body) :
    (∃ result unit', run executable launch unit = .done result unit') ∨
      (∃ error unit', run executable launch unit = .failed error unit') ∨
      2 ^ 32 ≤ unit.stepLimit ∧ run executable launch unit = .faulted .overflow := by
  unfold run
  cases hlaunch : launch.validate unit.wave with
  | error cause => exact .inr (.inl ⟨_, _, rfl⟩)
  | ok u =>
    have hvalidLaunch := Launch.valid_of_validate hlaunch
    have hgroup : (unit.workgroup executable launch).Sound program.AccessesMemory False :=
      Workgroup.sound_of_validate hvalid hexec hvalidLaunch htyped
        (.inr fun v hv i hi => (htotal v hv i hi).of_true fun h => ⟨v, hv, i, hi, h⟩)
    have hrunners : ∀ r ∈ (unit.workgroup executable launch).runners unit.schedule unit.stepLimit,
        r.wave.Sound (unit.workgroup executable launch) program.AccessesMemory ∧
          r.Balanced (unit.workgroup executable launch) := by
      intro r hr
      have hid := ((Workgroup.complete_runners _ _ _).mem r.wave.id).mp (List.mem_map_of_mem (List.mem_map_of_mem hr))
      rw [wave_of_mem_runners hr]
      refine ⟨.start (Nat.lt_of_lt_of_le hid hvalidLaunch.waves), 0, fun others scene _ => ?_⟩
      rw [wave_of_mem_runners hr]
      exact Wave.play_ne_faulted hvalid hexec rfl others rfl r.budget scene
    have hlimit : ∀ r ∈ (unit.workgroup executable launch).runners unit.schedule unit.stepLimit,
        r.budget + 0 ≤ unit.stepLimit := by
      intro r hr
      obtain ⟨id, -, rfl⟩ := Workgroup.mem_runners hr
      exact Nat.le_refl _
    dsimp only [Workgroup.complete]
    cases hr : (unit.workgroup executable launch).rounds
        ((unit.workgroup executable launch).runners unit.schedule unit.stepLimit)
        { memory := unit.startMemory executable } with
    | faulted fault =>
      obtain ⟨rfl, hmany⟩ := (hgroup.rounds hrunners hlimit hr).resolve_left id
      exact .inr (.inr ⟨hmany, rfl⟩)
    | failed error s => exact .inr (.inl ⟨_, _, rfl⟩)
    | done _ s =>
      dsimp only
      cases s.result.finish (unit.workgroup executable launch).launch.numLanes with
      | error error => exact .inr (.inl ⟨_, _, rfl⟩)
      | ok result => exact .inl ⟨_, _, rfl⟩

/-- Loads from the largest address that there is. -/
def farProgram : Program where
  stage := .vertex
  definitions := #[⟨.const .u32 0xffffffff, .u32⟩, ⟨.intrinsic (.loadShared ⟨0⟩ 0xffffffff .u64), .u64⟩,
    ⟨.extract ⟨1⟩ 63 1, .u64⟩]
  body := [.instr ⟨0⟩, .instr ⟨1⟩, .instr ⟨2⟩]

theorem run_ends_without_fault_far :
    let executable : Executable := ⟨farProgram, #[.instr ⟨0⟩, .instr ⟨1⟩, .instr ⟨2⟩]⟩
    farProgram.AccessesMemory ∧
      ((∃ result unit', run executable { numLanes := 40 } { wave := .wave64 } = .done result unit') ∨
        ∃ error unit', run executable { numLanes := 40 } { wave := .wave64 } = .failed error unit') := by
  have hvalues {v : Value} (hv : v ∈ Block.values farProgram.body) : v = ⟨0⟩ ∨ v = ⟨1⟩ ∨ v = ⟨2⟩ := by
    simpa [Block.values, Node.values, farProgram] using hv
  refine ⟨⟨⟨1⟩, by decide, _, rfl, rfl⟩, (@run_ends_without_fault farProgram _ rfl rfl { numLanes := 40 }
    { wave := .wave64 } ?_ fun _ => ?_).imp_right fun h => h.resolve_right fun h => absurd h.1 (by decide)⟩
  · intro v hv i hi
    rcases hvalues hv with rfl | rfl | rfl <;> cases hi
    · trivial
    · trivial
    · show (63 : Nat) < 64
      decide
  · intro v hv i hi
    rcases hvalues hv with rfl | rfl | rfl <;> cases hi
    · show (0xffffffff : Nat) < 2 ^ 32
      decide
    · trivial
    · trivial

/-- Extracts bits from beyond the register. -/
def wideExtractProgram : Program where
  stage := .vertex
  definitions := #[⟨.const .u64 1, .u64⟩, ⟨.extract ⟨0⟩ 64 0, .u64⟩]
  body := [.instr ⟨0⟩, .instr ⟨1⟩]

/-- Adds to a query counter that does not exist. -/
def fifthCounterProgram : Program where
  stage := .vertex
  definitions := #[⟨.const .u32 1, .u32⟩, ⟨.intrinsic (.queryAdd 4 ⟨0⟩), .void⟩]
  body := [.instr ⟨0⟩, .instr ⟨1⟩]

/-- Loads from an address that does not fit its type. -/
def wideAddressProgram : Program where
  stage := .vertex
  definitions := #[⟨.const .u32 0xffffffffffffffff, .u32⟩, ⟨.intrinsic (.loadShared ⟨0⟩ 1 .u32), .u32⟩]
  body := [.instr ⟨0⟩, .instr ⟨1⟩]

/-- Loads from an address that a ballot of too many lanes has given. -/
def wideBallotProgram : Program where
  stage := .vertex
  definitions := #[⟨.const .bool 1, .bool⟩, ⟨.intrinsic (.crossLane (.ballot ⟨0⟩ .u32)), .u32⟩,
    ⟨.intrinsic (.loadShared ⟨1⟩ 1 .u32), .u32⟩]
  body := [.instr ⟨0⟩, .instr ⟨1⟩, .instr ⟨2⟩]

/-- Packs the vertex indices of its primitive. -/
def packingProgram : Program where
  stage := .vertex
  definitions := #[⟨.intrinsic (.input .packedPrimitive), .u32⟩]
  body := [.instr ⟨0⟩]

/-- The fault of an outcome, if it is one. -/
def fault? {σ α : Type} : Outcome σ α → Option Fault
  | .faulted fault => some fault
  | _ => none

theorem exists_fault {σ α : Type} {o : Outcome σ α} (h : (fault? o).isSome) : ∃ fault, o = .faulted fault := by
  cases o with
  | faulted fault => exact ⟨fault, rfl⟩
  | done a s => cases h
  | failed error s => cases h

/-- The program is valid and may be launched, but its run comes to a fault. -/
def FaultsThoughValid (program : Program) (launch : Launch) : Prop :=
  program.validate = .ok () ∧ launch.validate .wave64 = .ok () ∧
    ∃ executable, program.toExecutable = .ok (.ok executable) ∧
      ∃ fault, run executable launch { wave := .wave64 } = .faulted fault

/-- Valid programs that do one of these things fault. -/
theorem validPrograms_fault : FaultsThoughValid wideExtractProgram { numLanes := 1 } ∧
    FaultsThoughValid fifthCounterProgram { numLanes := 1 } ∧ FaultsThoughValid wideAddressProgram { numLanes := 1 } ∧
    FaultsThoughValid wideBallotProgram { numLanes := 64 } ∧ FaultsThoughValid packingProgram
      { numLanes := 1, primitives := #[{ vertices := #v[1024, 0, 0], id := 0 }] } :=
  ⟨⟨rfl, rfl, _, rfl, exists_fault (by decide +kernel)⟩, ⟨rfl, rfl, _, rfl, exists_fault (by decide +kernel)⟩,
    ⟨rfl, rfl, _, rfl, exists_fault (by decide +kernel)⟩, ⟨rfl, rfl, _, rfl, exists_fault (by decide +kernel)⟩,
    ⟨rfl, rfl, _, rfl, exists_fault (by decide +kernel)⟩⟩

end ComputeUnit

end PrimitiveShader
