import Mathlib.Logic.Relation
import PrimitiveShader.Proofs.Typing.Run

/-!
# What a workgroup passes through

`Workgroup.Advances` is one step of a workgroup: the wave whose turn it is runs one operation, or its turn
ends, or all waves meet at a barrier. A workgroup that runs to its end does so in such steps
(`Workgroup.advances_of_rounds`).

A step keeps all waves sound (`Workgroup.Sound.advances`), so in every state that a run passes through the
registers and variables of all lanes hold what their types allow (`ComputeUnit.reachable_values_fit`).
-/

namespace PrimitiveShader

open Relation

/-- How far a workgroup has come between two barriers: some waves have had their turn, others wait for it or
have begun with it. -/
structure Progress where
  paused : List Pause := []
  waiting : List Runner
  shared : Shared

/-- The waves of a workgroup. -/
def Progress.waves (progress : Progress) : List Wave :=
  progress.paused.map (·.wave) ++ progress.waiting.map (·.wave)

namespace Workgroup

/-- One step of a workgroup. -/
inductive Advances (group : Workgroup) : Progress → Progress → Prop
  /-- The first of the waiting waves runs an operation. -/
  | operation {paused : List Pause} {w w' : Wave} {budget : Nat} {rest : List Runner} {s s' : Shared}
      {op : CodeOp} (hop : group.executable.code[w.pc]? = some op)
      (hstep : w.step group op s = .done (w', false) s') :
      Advances group ⟨paused, ⟨w, budget + 1⟩ :: rest, s⟩ ⟨paused, ⟨w', budget⟩ :: rest, s'⟩
  /-- It comes to a barrier. -/
  | barrier {paused : List Pause} {w w' : Wave} {budget : Nat} {rest : List Runner} {s s' : Shared}
      {op : CodeOp} (hop : group.executable.code[w.pc]? = some op)
      (hstep : w.step group op s = .done (w', true) s') :
      Advances group ⟨paused, ⟨w, budget + 1⟩ :: rest, s⟩ ⟨paused ++ [⟨w', budget, .barrier⟩], rest, s'⟩
  /-- It comes to its end. -/
  | finish {paused : List Pause} {w : Wave} {budget : Nat} {rest : List Runner} {s : Shared}
      (hop : group.executable.code[w.pc]? = none) :
      Advances group ⟨paused, ⟨w, budget⟩ :: rest, s⟩ ⟨paused ++ [⟨w, budget, .finished⟩], rest, s⟩
  /-- All waves stand at a barrier and go on. -/
  | meet {paused : List Pause} {s : Shared} (hall : ∀ p ∈ paused, p.halt = .barrier)
      (hfew : s.result.barriers < Shared.maxBarriers) :
      Advances group ⟨paused, [], s⟩ ⟨[], paused.map Pause.resume, s.meet⟩

variable {group : Workgroup} {runners : List Runner} {s s' : Shared}

theorem advances_of_turn {budget : Nat} {w : Wave} {p : Pause}
    (h : w.turn group budget s = .done p s') (paused : List Pause) (rest : List Runner) :
    ReflTransGen group.Advances ⟨paused, ⟨w, budget⟩ :: rest, s⟩ ⟨paused ++ [p], rest, s'⟩ := by
  induction budget generalizing w s with
  | zero =>
    cases hop : group.executable.code[w.pc]? with
    | none =>
      rw [Wave.turn_of_code_eq_none hop] at h
      cases h
      exact .single (.finish hop)
    | some op =>
      rw [Wave.turn_zero hop] at h
      cases h
  | succ budget ih =>
    cases hop : group.executable.code[w.pc]? with
    | none =>
      rw [Wave.turn_of_code_eq_none hop] at h
      cases h
      exact .single (.finish hop)
    | some op =>
      rw [Wave.turn_succ hop] at h
      obtain ⟨⟨w₁, atBarrier⟩, s₁, hstep, h⟩ := Exec.bind_eq_done_iff.mp h
      cases atBarrier with
      | true =>
        cases h
        exact .single (.barrier hop hstep)
      | false => exact .head (.operation hop hstep) (ih h)

theorem advances_of_sweep {pauses : List Pause} (h : group.sweeping runners s = .done pauses s') (paused : List Pause) :
    ReflTransGen group.Advances ⟨paused, runners, s⟩ ⟨paused ++ pauses, [], s'⟩ := by
  induction runners generalizing paused s pauses with
  | nil =>
    cases h
    rw [List.append_nil]
  | cons r rest ih =>
    obtain ⟨p, t, ps, hturn, hsweep, rfl⟩ := sweeping_cons_eq_done_iff.mp h
    have hrest := ih hsweep (paused ++ [p])
    rw [List.append_assoc] at hrest
    exact (advances_of_turn hturn paused rest).trans hrest

/-- A workgroup comes to its end step by step. -/
theorem advances_of_rounds (h : group.rounds runners s = .done () s') : ∃ pauses, (∀ p ∈ pauses, p.halt = .finished) ∧
      ReflTransGen group.Advances ⟨[], runners, s⟩ ⟨pauses, [], s'⟩ := by
  induction hn : totalBudget runners using Nat.strongRecOn generalizing runners s with
  | ind n ih =>
    subst hn
    obtain ⟨pauses, t, hsweep, ⟨hfinished, rfl⟩ | ⟨hnot, hbarrier, hfew, hrounds⟩⟩ := rounds_eq_done_iff.mp h
    · exact ⟨pauses, by simpa using hfinished, advances_of_sweep hsweep []⟩
    · obtain ⟨pauses', hfinished, hsteps⟩ :=
        ih _ (totalBudget_resume_lt hsweep hnot hbarrier) hrounds rfl
      have hmeet : group.Advances ⟨pauses, [], t⟩ ⟨[], pauses.map Pause.resume, t.meet⟩ :=
        .meet (by simpa using hbarrier) hfew
      exact ⟨pauses', hfinished, (advances_of_sweep hsweep []).trans (.head hmeet hsteps)⟩

theorem Sound.advances {typed : Prop} (hgroup : group.Sound typed True) {before after : Progress}
    (h : group.Advances before after) (hsound : ∀ w ∈ before.waves, w.Sound group typed) :
    ∀ w ∈ after.waves, w.Sound group typed := by
  have hnext {w w' : Wave} {op : CodeOp} {s s' : Shared} {flag : Bool}
      (hop : group.executable.code[w.pc]? = some op) (hstep : w.step group op s = .done (w', flag) s')
      (hw : w.Sound group typed) : w'.Sound group typed := by
    have hends := hw.step hgroup (Array.mem_of_getElem? hop) (s := s) (by rw [hstep]; nofun)
    rw [hstep] at hends
    exact hends
  cases h with
  | operation hop hstep =>
    simp only [Progress.waves, List.map_cons, List.forall_mem_append, List.forall_mem_cons] at hsound ⊢
    exact ⟨hsound.1, hnext hop hstep hsound.2.1, hsound.2.2⟩
  | barrier hop hstep =>
    simp only [Progress.waves, List.map_cons, List.map_append, List.forall_mem_append, List.forall_mem_cons] at hsound ⊢
    exact ⟨⟨hsound.1, hnext hop hstep hsound.2.1, by simp⟩, hsound.2.2⟩
  | finish hop =>
    simp only [Progress.waves, List.map_cons, List.map_append, List.forall_mem_append, List.forall_mem_cons] at hsound ⊢
    exact ⟨⟨hsound.1, hsound.2.1, by simp⟩, hsound.2.2⟩
  | meet hall => simpa [Progress.waves, Pause.resume, Function.comp_def] using hsound

end Workgroup

/-- Whether a step has succeeded. -/
def Outcome.isDone {σ α : Type} : Outcome σ α → Bool
  | .done _ _ => true
  | _ => false

theorem Outcome.exists_of_isDone {σ α : Type} {o : Outcome σ α} (h : o.isDone) : ∃ a s, o = .done a s := by
  cases o with
  | done a s => exact ⟨a, s, rfl⟩
  | failed error s => cases h
  | faulted fault => cases h

namespace ComputeUnit

/-- The run of a launch on this unit passes through a state. -/
structure Passes (executable : Executable) (launch : Launch) (unit : ComputeUnit) (progress : Progress) :
    Prop where
  validated : launch.validate unit.wave = .ok ()
  steps : ReflTransGen (unit.workgroup executable launch).Advances
    { waiting := (unit.workgroup executable launch).runners unit.schedule unit.stepLimit
      shared := { memory := unit.startMemory executable } } progress

/-- Types are preserved. If the constants of a valid program fit their types and its ballots the wave, then
in every state that a run passes through every register and every variable of every lane holds at most the
mask of its type. -/
theorem reachable_values_fit {program : Program} {executable : Executable}
    (hvalid : program.validate = .ok ()) (hexec : program.toExecutable = .ok (.ok executable))
    {unit : ComputeUnit} (htyped : Block.All program (Instr.Typed unit.wave) program.body) {launch : Launch}
    {progress : Progress} (hpasses : unit.Passes executable launch progress) : ∀ w ∈ progress.waves, ∀ lane ∈ w.lanes,
      (∀ v τ a, program.valueType? v = some τ → lane.read v = .ok a → a ≤ τ.mask) ∧
        ∀ x τ a, program.varType? x = some τ → lane.readVar x = .ok a → a ≤ τ.mask := by
  obtain ⟨hvalidated, hsteps⟩ := hpasses
  have hvalidLaunch := Launch.valid_of_validate hvalidated
  have hgroup : (unit.workgroup executable launch).Sound True True :=
    Workgroup.sound_of_validate hvalid hexec hvalidLaunch (fun _ => htyped) (.inl trivial)
  have hsound : ∀ w ∈ progress.waves, w.Sound (unit.workgroup executable launch) True := by
    induction hsteps with
    | refl =>
      intro w hw
      obtain ⟨r, hr, rfl⟩ := List.mem_map.mp hw
      have hid := ((Workgroup.complete_runners _ _ _).mem r.wave.id).mp (List.mem_map_of_mem (List.mem_map_of_mem hr))
      rw [wave_of_mem_runners hr]
      exact .start (Nat.lt_of_lt_of_le hid hvalidLaunch.waves)
    | tail _ hstep ih => exact hgroup.advances hstep ih
  intro w hw lane hlane
  obtain ⟨l, hl⟩ := Array.getElem?_of_mem hlane
  have hlaneSound := (hsound w hw).lanes.each l lane hl
  obtain ⟨rfl, -⟩ := Program.toExecutable_eq_ok hexec
  constructor
  · intro v τ a hv ha
    exact ScalarType.fits_iff_le_mask.mp (hlaneSound.fits trivial v τ a (Program.valueType?_eq_some_iff.mp hv) ha)
  · intro x τ a hx ha
    exact ScalarType.fits_iff_le_mask.mp (hlaneSound.fitsVar trivial x τ a hx ha)

/-- Every lane keeps the lanes of its wave whose number is below three in a variable. -/
def ballotingProgram : Program where
  stage := .vertex
  definitions := #[⟨.intrinsic (.input .localInvocationIndex), .u32⟩, ⟨.const .u32 3, .u32⟩,
    ⟨.binary .lt ⟨0⟩ ⟨1⟩, .bool⟩, ⟨.intrinsic (.crossLane (.ballot ⟨2⟩ .u32)), .u32⟩,
    ⟨.storeVar ⟨0⟩ ⟨3⟩, .void⟩]
  vars := #[⟨"lanes", .u32⟩]
  body := [.instr ⟨0⟩, .instr ⟨1⟩, .instr ⟨2⟩, .instr ⟨3⟩, .instr ⟨4⟩]

theorem reachable_values_fit_balloting :
    let executable : Executable := ⟨ballotingProgram, (Block.code 0 ballotingProgram.body).toArray⟩
    let unit : ComputeUnit := { wave := .wave32 }
    ∃ progress, unit.Passes executable { numLanes := 33 } progress ∧
      progress.waiting = [] ∧ (∀ p ∈ progress.paused, p.halt = .finished) ∧ ∀ w ∈ progress.waves, ∀ lane ∈ w.lanes,
        (∀ v τ a, ballotingProgram.valueType? v = some τ → lane.read v = .ok a → a ≤ τ.mask) ∧
          ∀ x τ a, ballotingProgram.varType? x = some τ → lane.readVar x = .ok a → a ≤ τ.mask := by
  intro executable unit
  obtain ⟨⟨⟩, s, hrounds⟩ := Outcome.exists_of_isDone (o := (unit.workgroup executable { numLanes := 33 }).rounds
    ((unit.workgroup executable { numLanes := 33 }).runners unit.schedule unit.stepLimit)
    { memory := unit.startMemory executable }) (by decide +kernel)
  obtain ⟨pauses, hfinished, hsteps⟩ := Workgroup.advances_of_rounds hrounds
  have htyped : Block.All ballotingProgram (Instr.Typed unit.wave) ballotingProgram.body := by
    intro v hv i hi
    have hcases : v = ⟨0⟩ ∨ v = ⟨1⟩ ∨ v = ⟨2⟩ ∨ v = ⟨3⟩ ∨ v = ⟨4⟩ := by
      simpa [Block.values, Node.values, ballotingProgram] using hv
    rcases hcases with rfl | rfl | rfl | rfl | rfl <;> cases hi
    · trivial
    · show (3 : Nat) < 2 ^ 32
      decide
    · trivial
    · exact Nat.le_refl 32
    · trivial
  have hvalidated : Launch.validate { numLanes := 33 } .wave32 = .ok () := rfl
  have hpasses : unit.Passes executable { numLanes := 33 } ⟨pauses, [], s⟩ := ⟨hvalidated, hsteps⟩
  have hvalid : ballotingProgram.validate = .ok () := rfl
  exact ⟨_, hpasses, rfl, hfinished, reachable_values_fit hvalid rfl htyped hpasses⟩

end ComputeUnit

end PrimitiveShader
