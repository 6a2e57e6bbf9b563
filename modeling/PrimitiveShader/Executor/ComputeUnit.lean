import PrimitiveShader.Executor.Step

/-!
# Compute units

A compute unit runs workgroups one after the other on the same shared memory, which is not cleared
in between. The waves of a workgroup take turns: each runs until it ends or stands at a barrier, and
when all of them stand at a barrier they go on together. The schedule says in which order they take
their turns.
-/

namespace PrimitiveShader

/-- The order of the waves between two barriers. -/
inductive Schedule where
  | forward
  | reverse
deriving DecidableEq, Repr

/-- A compute unit. -/
structure ComputeUnit where
  wave : WaveWidth
  schedule : Schedule := .forward
  /-- The most operations of one wave. -/
  stepLimit : Nat := 1048576
  memory : SharedMemory := {}
deriving DecidableEq, Repr

/-- The order of things under a schedule. -/
def Schedule.order {α : Type} : Schedule → List α → List α
  | forward, xs => xs
  | reverse, xs => xs.reverse

/-- A wave at work, with what is left of its budget. -/
structure Runner where
  wave : Wave
  budget : Nat
deriving DecidableEq, Repr

/-- A paused wave goes on. -/
def Pause.resume (pause : Pause) : Runner := ⟨pause.wave, pause.budget⟩

/-- The most barriers that a workgroup can count. -/
def Shared.maxBarriers : Nat := 4294967295

/-- The waves of a workgroup meet: their accesses so far are visible to all. -/
def Shared.meet (shared : Shared) : Shared where
  memory := shared.memory.sync
  result := { shared.result with barriers := shared.result.barriers + 1 }

namespace Workgroup

/-- Gives every wave one turn. -/
def sweep (group : Workgroup) : List Runner → Shared → Outcome Shared (List Pause)
  | [], shared => .done [] shared
  | runner :: rest, shared =>
    match runner.wave.run group runner.budget shared with
    | .done pause shared =>
      match sweep group rest shared with
      | .done pauses shared => .done (pause :: pauses) shared
      | .failed error shared => .failed error shared
      | .faulted fault => .faulted fault
    | .failed error shared => .failed error shared
    | .faulted fault => .faulted fault

/-- The steps that some waves may still take. -/
def totalBudget : List Runner → Nat
  | [] => 0
  | r :: rest => r.budget + totalBudget rest

/-- If all waves stand at a barrier after their turn, each of them has taken a step. -/
theorem totalBudget_of_sweep {group : Workgroup} {runners : List Runner} {s s' : Shared}
    {pauses : List Pause} (h : group.sweep runners s = .done pauses s') (hb : ∀ p ∈ pauses, p.halt = .barrier) :
    totalBudget (pauses.map Pause.resume) + pauses.length ≤ totalBudget runners := by
  induction runners generalizing s pauses with
  | nil =>
    cases h
    simp [totalBudget]
  | cons r rest ih =>
    unfold sweep at h
    split at h
    · rename_i p s₁ hr
      split at h
      · rename_i ps s₂ hs
        cases h
        have h₁ := (Wave.budget_of_run hr).2 (hb p (by simp))
        have h₂ := ih hs fun q hq => hb q (by simp [hq])
        simp only [totalBudget, List.map_cons, List.length_cons, Pause.resume] at *
        omega
      · cases h
      · cases h
    · cases h
    · cases h

/-- Waves that all stand at a barrier have used up steps. -/
theorem totalBudget_resume_lt {group : Workgroup} {runners : List Runner} {s s' : Shared} {pauses : List Pause}
    (h : group.sweep runners s = .done pauses s') (hf : ¬ pauses.all (·.halt = .finished))
    (hb : pauses.all (·.halt = .barrier)) : totalBudget (pauses.map Pause.resume) < totalBudget runners := by
  have hle := totalBudget_of_sweep h (by simpa using hb)
  have hne : pauses ≠ [] := by
    rintro rfl
    simp at hf
  have := List.length_pos_iff.mpr hne
  omega

/-- Lets the waves take turns until all of them have ended. The count of barriers must not overflow. -/
def rounds (group : Workgroup) (runners : List Runner) (shared : Shared) : Outcome Shared Unit :=
  match _h : group.sweep runners shared with
  | .done pauses shared =>
    if pauses.all (·.halt = .finished) then .done () shared
    else if _hb : pauses.all (·.halt = .barrier) then
      if shared.result.barriers < Shared.maxBarriers then rounds group (pauses.map Pause.resume) shared.meet
      else .faulted .overflow
    else .failed .barrierMismatch shared
  | .failed error shared => .failed error shared
  | .faulted fault => .faulted fault
termination_by totalBudget runners
decreasing_by exact totalBudget_resume_lt _h ‹_› _hb

/-- The waves of a workgroup before their first operation, in the order of their turns. -/
def runners (group : Workgroup) (schedule : Schedule) (stepLimit : Nat) : List Runner :=
  schedule.order ((List.range group.numWaves).map fun id => ⟨Wave.start group id, stepLimit⟩)

/-- Runs waves to their end and checks what they have exported. -/
def complete (group : Workgroup) (runners : List Runner) (memory : SharedMemory) :
    Outcome SharedMemory WorkgroupResult :=
  match group.rounds runners { memory } with
  | .done () shared =>
    match shared.result.finish group.launch.numLanes with
    | .ok result => .done result shared.memory
    | .error error => .failed error shared.memory
  | .failed error shared => .failed error shared.memory
  | .faulted fault => .faulted fault

end Workgroup

namespace ComputeUnit

/-- The workgroup of a launch on this unit. -/
def workgroup (unit : ComputeUnit) (executable : Executable) (launch : Launch) : Workgroup :=
  ⟨executable, launch, unit.wave⟩

/-- The memory that a launch finds. -/
def startMemory (unit : ComputeUnit) (executable : Executable) : SharedMemory :=
  (unit.memory.reserve executable.program.sharedSize).sync

/-- The state that the waves of a launch find. -/
def startState (unit : ComputeUnit) (executable : Executable) : Shared :=
  { memory := unit.startMemory executable }

/-- Runs one workgroup. -/
def run (executable : Executable) (launch : Launch) : Exec ComputeUnit WorkgroupResult := fun unit =>
  match launch.validate unit.wave with
  | .error cause => .failed (.launch cause) unit
  | .ok () =>
    let group := unit.workgroup executable launch
    let runners := group.runners unit.schedule unit.stepLimit
    match group.complete runners (unit.startMemory executable) with
    | .done result memory => .done result { unit with memory }
    | .failed error memory => .failed error { unit with memory }
    | .faulted fault => .faulted fault

/-- Runs a workgroup on a unit of its own. -/
def runFresh (wave : WaveWidth) (executable : Executable) (launch : Launch) :
    Except Fault (Except RunError WorkgroupResult) :=
  match run executable launch { wave } with
  | .done result _ => .ok (.ok result)
  | .failed error _ => .ok (.error error)
  | .faulted fault => .error fault

/-- Runs every workgroup of a draw, each on a unit of its own. -/
def dispatch (wave : WaveWidth) (executable : Executable) (launches : List Launch) :
    Except Fault (List (Except RunError WorkgroupResult)) :=
  launches.mapM (runFresh wave executable)

end ComputeUnit

end PrimitiveShader
