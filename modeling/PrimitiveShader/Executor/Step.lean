import PrimitiveShader.Executor.Wave

/-!
# Steps of a wave

One operation after the other, until the wave ends or stands at a barrier.
-/

namespace PrimitiveShader

/-- Why a wave pauses. -/
inductive Halt where
  | barrier
  | finished
deriving DecidableEq, Repr

/-- A wave that pauses, with what is left of its budget. -/
structure Pause where
  wave : Wave
  budget : Nat
  halt : Halt
deriving DecidableEq, Repr

namespace Wave

/-- Runs an instruction. A barrier takes all lanes of the wave or none; the flag says whether the
wave stands at one. -/
def stepInstr (group : Workgroup) (value : Value) (wave : Wave) : Exec Shared (Wave × Bool) :=
  let next := { wave with pc := wave.pc + 1 }
  if wave.exec.isEmpty then pure (next, false)
  else do
    match ← group.program.instr value with
    | .intrinsic .barrier =>
      if wave.exec = wave.launched then return (next, true)
      else Exec.fail (.divergentBarrier wave.id wave.exec.bits wave.launched.bits)
    | instr => return (← next.execute group value instr, false)

/-- Begins a branch. -/
def enterBranch (cond : Value) (elseAt : Nat) (wave : Wave) : Except Fault Wave := do
  let taken ← wave.maskOf cond
  return { wave with
    frames := .branch wave.exec (wave.exec.diff taken) :: wave.frames
    exec := taken
    pc := if taken.isEmpty then elseAt else wave.pc + 1 }

/-- Turns to the other side of a branch. -/
def turnBranch (endAt : Nat) (wave : Wave) : Except Fault Wave :=
  match wave.frames with
  | .branch _ otherwise :: _ =>
    .ok { wave with
      exec := otherwise
      pc := if otherwise.isEmpty then endAt else wave.pc + 1 }
  | _ => .error .controlStack

/-- Ends a branch: the lanes that entered it go on, unless they have left the innermost loop. -/
def endBranch (wave : Wave) : Except Fault Wave :=
  match wave.frames with
  | .branch saved _ :: frames =>
    .ok { wave with frames, exec := saved.diff (Frame.broken frames), pc := wave.pc + 1 }
  | _ => .error .controlStack

/-- Begins a loop. -/
def enterLoop (wave : Wave) : Wave :=
  { wave with frames := .loop wave.exec .empty :: wave.frames, pc := wave.pc + 1 }

/-- Lets the lanes that are on leave the innermost loop. -/
def leaveLoop (wave : Wave) : Except Fault Wave :=
  match Frame.leave wave.exec wave.frames with
  | some frames => .ok { wave with frames, exec := .empty, pc := wave.pc + 1 }
  | none => .error .controlStack

/-- Ends a pass through a loop: back to its start while a lane is left, out of it with all lanes that
entered it otherwise. -/
def endLoop (loopAt : Nat) (wave : Wave) : Except Fault Wave :=
  if wave.exec.isEmpty then
    match wave.frames with
    | .loop saved _ :: frames => .ok { wave with frames, exec := saved, pc := wave.pc + 1 }
    | _ => .error .controlStack
  else
    .ok { wave with pc := loopAt + 1 }

/-- Runs one operation. -/
def step (group : Workgroup) (op : CodeOp) (wave : Wave) : Exec Shared (Wave × Bool) :=
  match op with
  | .instr value => wave.stepInstr group value
  | .branch cond elseAt => do return (← wave.enterBranch cond elseAt, false)
  | .otherwise endAt => do return (← wave.turnBranch endAt, false)
  | .endBranch => do return (← wave.endBranch, false)
  | .loop => return (wave.enterLoop, false)
  | .leave => do return (← wave.leaveLoop, false)
  | .endLoop loopAt => do return (← wave.endLoop loopAt, false)

/-- Runs a wave until it ends or stands at a barrier, for at most `budget` operations. -/
def run (group : Workgroup) : Nat → Wave → Shared → Outcome Shared Pause
  | budget, wave, shared =>
    match group.executable.code[wave.pc]? with
    | none => .done ⟨wave, budget, .finished⟩ shared
    | some op =>
      match budget with
      | 0 => .failed (.stepLimit wave.id) shared
      | budget + 1 =>
        match wave.step group op shared with
        | .done (wave, true) shared => .done ⟨wave, budget, .barrier⟩ shared
        | .done (wave, false) shared => run group budget wave shared
        | .failed error shared => .failed error shared
        | .faulted fault => .faulted fault

/-- A run never adds to the budget, and reaching a barrier takes a step. -/
theorem budget_of_run {group : Workgroup} {budget : Nat} {wave : Wave} {s s' : Shared} {p : Pause}
    (h : run group budget wave s = .done p s') : p.budget ≤ budget ∧ (p.halt = .barrier → p.budget < budget) := by
  induction budget generalizing wave s with
  | zero =>
    unfold run at h
    split at h
    · cases h
      simp
    · cases h
  | succ n ih =>
    unfold run at h
    split at h
    · cases h
      simp
    · dsimp only at h
      split at h
      · cases h
        simp
      · obtain ⟨hle, hlt⟩ := ih h
        exact ⟨Nat.le_succ_of_le hle, fun hb => Nat.lt_succ_of_lt (hlt hb)⟩
      · cases h
      · cases h

end Wave

end PrimitiveShader
