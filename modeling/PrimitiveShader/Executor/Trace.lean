import PrimitiveShader.Executor.ComputeUnit

/-!
# The log of a run

What a run does is followed a second time to write it down: a record for every instruction that some
lane takes part in, one for every access to shared memory, and one for the finished workgroup. The
log ends where the run ends.
-/

namespace PrimitiveShader

/-- A log in the making. -/
abbrev Journal := Array LogRecord

namespace Wave

/-- The records of a load from shared memory, lane by lane. -/
def loadSharedLog (group : Workgroup) (addr : Value) (base : UInt32) (type : ScalarType)
    (wave : Wave) : List Nat → SharedMemory → Journal → Journal
  | [], _, journal => journal
  | lane :: rest, memory, journal =>
    match readRegister wave.lanes lane addr >>= address base with
    | .error _ => journal
    | .ok at_ =>
      let index := (laneId group wave.id lane).index
      let size := group.program.sharedSize
      let journal := journal ++ SharedMemory.loadLog wave.id index at_ type.bytes size memory
      match SharedMemory.load wave.id index at_ type.bytes size memory with
      | .done _ memory => loadSharedLog group addr base type wave rest memory journal
      | _ => journal

/-- The records of a store to shared memory of `len` bytes, lane by lane. -/
def storeSharedLog (group : Workgroup) (data addr : Value) (base : UInt32) (len : Nat)
    (wave : Wave) : List Nat → SharedMemory → Journal → Journal
  | [], _, journal => journal
  | lane :: rest, memory, journal =>
    let operands : Except Fault (Nat × UInt64) := do
      let at_ ← address base (← readRegister wave.lanes lane addr)
      return (at_, ← readRegister wave.lanes lane data)
    match operands with
    | .error _ => journal
    | .ok (at_, a) =>
      let index := (laneId group wave.id lane).index
      let size := group.program.sharedSize
      let journal := journal ++ SharedMemory.storeLog index at_ len a size memory
      match SharedMemory.store wave.id index at_ len a size memory with
      | .done _ memory => storeSharedLog group data addr base len wave rest memory journal
      | _ => journal

/-- The records of an instruction that some lane takes part in. -/
def instrLog (group : Workgroup) (value : Value) (instr : Instr) (wave : Wave)
    (memory : SharedMemory) (journal : Journal) : Journal :=
  let head := s!"wave {wave.id} exec {Radix.hex wave.exec.bits.toNat}: "
  let journal := journal.push ⟨.trace, head ++ value.text ++ " = " ++ instr.text⟩
  match instr with
  | .intrinsic (.loadShared addr base type) =>
    wave.loadSharedLog group addr base type wave.exec.lanes memory journal
  | .intrinsic (.storeShared data addr base) =>
    match group.program.valueType? data with
    | some type => wave.storeSharedLog group data addr base type.bytes wave.exec.lanes memory journal
    | none => journal
  | _ => journal

/-- The records of one operation. -/
def stepLog (group : Workgroup) (op : CodeOp) (wave : Wave) (memory : SharedMemory)
    (journal : Journal) : Journal :=
  match op with
  | .instr value =>
    if wave.exec.isEmpty then journal
    else
      match group.program.instr value with
      | .ok (.intrinsic .barrier) => journal
      | .ok instr => wave.instrLog group value instr memory journal
      | .error _ => journal
  | _ => journal

/-- The records of one turn of a wave. -/
def runLog (group : Workgroup) : Nat → Wave → Shared → Journal → Journal
  | 0, _, _, journal => journal
  | budget + 1, wave, shared, journal =>
    match group.executable.code[wave.pc]? with
    | none => journal
    | some op =>
      let journal := wave.stepLog group op shared.memory journal
      match wave.step group op shared with
      | .done (wave, false) shared => runLog group budget wave shared journal
      | _ => journal

end Wave

namespace Workgroup

/-- The records of one turn of every wave. -/
def sweepLog (group : Workgroup) : List Runner → Shared → Journal → Journal
  | [], _, journal => journal
  | runner :: rest, shared, journal =>
    let journal := runner.wave.runLog group runner.budget shared journal
    match runner.wave.run group runner.budget shared with
    | .done _ shared => sweepLog group rest shared journal
    | _ => journal

/-- The records of all turns. -/
def roundsLog (group : Workgroup) (runners : List Runner) (shared : Shared) (journal : Journal) :
    Journal :=
  let journal := group.sweepLog runners shared journal
  match _h : group.sweep runners shared with
  | .done pauses shared =>
    if pauses.all (·.halt = .finished) then journal
    else if _hb : pauses.all (·.halt = .barrier) then
      if shared.result.barriers < Shared.maxBarriers then
        roundsLog group (pauses.map Pause.resume) shared.meet journal
      else journal
    else journal
  | _ => journal
termination_by totalBudget runners
decreasing_by exact totalBudget_resume_lt _h ‹_› _hb

end Workgroup

namespace ComputeUnit

/-- The record of a finished workgroup. -/
def summary (launch : Launch) (result : WorkgroupResult) : LogRecord :=
  ⟨.debug, s!"workgroup of {launch.numLanes} lanes: {Allocation.optionText result.allocation}, " ++
    s!"{result.primitives.size} primitives, {result.vertices.size} vertices, " ++
    s!"{result.barriers} barriers"⟩

/-- The log of `run`. -/
def runLog (unit : ComputeUnit) (executable : Executable) (launch : Launch) : Journal :=
  match launch.validate unit.wave with
  | .error _ => #[]
  | .ok () =>
    let group := unit.workgroup executable launch
    let runners := group.runners unit.schedule unit.stepLimit
    let journal := group.roundsLog runners (unit.startState executable) #[]
    match run executable launch unit with
    | .done result _ => journal.push (summary launch result)
    | _ => journal

end ComputeUnit

end PrimitiveShader
