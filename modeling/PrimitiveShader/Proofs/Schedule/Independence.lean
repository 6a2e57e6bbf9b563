import PrimitiveShader.Proofs.Schedule.Turns

/-!
# The schedule does not matter

The turns of different waves commute, so a sweep that succeeds also succeeds in the opposite order
(`Workgroup.sweep_reverse`). All waves then pause where they paused before, and so all sweeps of a
workgroup between its barriers can be turned around (`Workgroup.rounds_reverse`). What the two orders
leave different, how the exports of different lanes are mixed and in which order a byte was read, is
sorted or forgotten at the end.
-/

namespace PrimitiveShader

/-- Different waves, none of which can switch on a lane that it does not have. -/
structure Workgroup.Distinct (group : Workgroup) (runners : List Runner) : Prop where
  below : ∀ r ∈ runners, r.wave.Below group.wave.size
  nodup : (runners.map (·.wave.id)).Nodup

namespace Workgroup

variable {group : Workgroup} {runners : List Runner}

/-! ## Sweeps -/

/-- The sweep as a step on what the waves share. -/
def sweeping (group : Workgroup) (runners : List Runner) : Exec Shared (List Pause) :=
  group.sweep runners

theorem sweeping_cons (r : Runner) (rest : List Runner) : group.sweeping (r :: rest) = (do
      let p ← r.wave.turn group r.budget
      let ps ← group.sweeping rest
      return p :: ps) := by
  funext s
  simp only [Exec.bind_apply]
  simp only [sweeping, sweep, Wave.turn]
  cases r.wave.run group r.budget s with
  | failed error t => rfl
  | faulted fault => rfl
  | done p t =>
    dsimp only
    cases group.sweep rest t <;> rfl

variable {pauses : List Pause} {rest : List Runner} {r : Runner} {s s' t : Shared}

theorem sweeping_cons_eq_done_iff : group.sweeping (r :: rest) s = .done pauses s' ↔
      ∃ p t ps, r.wave.turn group r.budget s = .done p t ∧ group.sweeping rest t = .done ps s' ∧ pauses = p :: ps := by
  rw [sweeping_cons]
  constructor
  · intro h
    obtain ⟨p, t, hp, h⟩ := Exec.bind_eq_done_iff.mp h
    obtain ⟨ps, u, hps, h⟩ := Exec.bind_eq_done_iff.mp h
    cases h
    exact ⟨p, t, ps, hp, hps, rfl⟩
  · rintro ⟨p, t, ps, hp, hps, rfl⟩
    exact Exec.bind_eq_done_iff.mpr ⟨p, t, hp, Exec.bind_eq_done_iff.mpr ⟨ps, s', hps, rfl⟩⟩

/-- One more wave takes its turn after the others. -/
theorem sweeping_concat {ps : List Pause} {p : Pause} (hps : group.sweeping rest s = .done ps t)
    (hp : r.wave.turn group r.budget t = .done p s') : group.sweeping (rest ++ [r]) s = .done (ps ++ [p]) s' := by
  induction rest generalizing s ps with
  | nil =>
    cases hps
    exact sweeping_cons_eq_done_iff.mpr ⟨p, s', [], hp, rfl, rfl⟩
  | cons q rest ih =>
    obtain ⟨p', t', ps', hp', hps', rfl⟩ := sweeping_cons_eq_done_iff.mp hps
    exact sweeping_cons_eq_done_iff.mpr ⟨p', t', ps' ++ [p], hp', ih hps', rfl⟩

theorem Distinct.tail (h : group.Distinct (r :: rest)) : group.Distinct rest :=
  ⟨fun q hq => h.below q (by simp [hq]), (List.nodup_cons.mp h.nodup).2⟩

theorem waveAction_sweeping (h : ∀ r ∈ runners, r.wave.Below group.wave.size) :
    WaveAction group.wave.size (· ∈ runners.map (·.wave.id)) (group.sweeping runners) := by
  induction runners with
  | nil => exact .pure []
  | cons r rest ih =>
    have hturn := Wave.waveAction_turn (h r (by simp)) r.budget
    have hrest := ih fun q hq => h q (by simp [hq])
    rw [sweeping_cons]
    refine .andThen (hturn.mono ?_) fun p => .andThen (hrest.mono ?_) fun ps => .pure _
    · rintro wave rfl
      simp
    · intro wave hm
      simp only [List.map_cons, List.mem_cons]
      exact .inr hm

theorem sweep_reverse (h : group.Distinct runners) (hs : group.sweeping runners s = .done pauses s') (hst : s.Alike t) :
    ∃ t', group.sweeping runners.reverse t = .done pauses.reverse t' ∧ s'.Alike t' := by
  induction runners generalizing s s' t pauses with
  | nil =>
    cases hs
    exact ⟨t, rfl, hst⟩
  | cons r rest ih =>
    obtain ⟨p, s₁, ps, hp, hps, rfl⟩ := sweeping_cons_eq_done_iff.mp hs
    have hturn := Wave.waveAction_turn (h.below r (by simp)) r.budget
    have hrest := waveAction_sweeping h.tail.below
    have hother : ∀ wave, r.wave.id = wave → wave ∉ rest.map (·.wave.id) := by
      rintro wave rfl
      exact (List.nodup_cons.mp h.nodup).1
    -- The first turn moves behind all others, which then turn around among themselves.
    obtain ⟨t₁, t₂, hps₁, hp₁, hst₂⟩ := hturn.commutes hother hrest hp hps
    obtain ⟨u₁, hps₂, htu₁⟩ := ih h.tail hps₁ hst
    obtain ⟨u₂, hp₂, htu₂⟩ := hturn.respects htu₁ hp₁
    refine ⟨u₂, ?_, hst₂.trans htu₂⟩
    rw [List.reverse_cons, List.reverse_cons]
    exact sweeping_concat hps₂ hp₂

/-- After a sweep the waves are the same as before. -/
theorem Distinct.of_sweep (h : group.Distinct runners)
    (hs : group.sweeping runners s = .done pauses s') : group.Distinct (pauses.map Pause.resume) := by
  have hall : (pauses.map Pause.resume).map (·.wave.id) = runners.map (·.wave.id) ∧
      ∀ r ∈ pauses.map Pause.resume, r.wave.Below group.wave.size := by
    induction runners generalizing s pauses with
    | nil =>
      cases hs
      simp
    | cons r rest ih =>
      obtain ⟨p, s₁, ps, hp, hps, rfl⟩ := sweeping_cons_eq_done_iff.mp hs
      obtain ⟨hid, hbelow⟩ := (h.below r (by simp)).turn hp
      obtain ⟨hids, hbelows⟩ := ih h.tail hps
      refine ⟨by simp only [List.map_cons, hids, Pause.resume, hid], fun q hq => ?_⟩
      rcases List.mem_cons.mp hq with rfl | hq
      · exact hbelow
      · exact hbelows q hq
  exact ⟨hall.2, hall.1 ▸ h.nodup⟩

/-! ## Rounds -/

/-- What follows a barrier that all waves have reached. -/
def meeting (group : Workgroup) (runners : List Runner) : Exec Shared Unit := fun shared =>
  if shared.result.barriers < Shared.maxBarriers then group.rounds runners shared.meet else .faulted .overflow

/-- What follows a sweep. -/
def afterSweep (group : Workgroup) (pauses : List Pause) : Exec Shared Unit := fun shared =>
  if pauses.all (·.halt = .finished) then .done () shared
  else if pauses.all (·.halt = .barrier) then group.meeting (pauses.map Pause.resume) shared
  else .failed .barrierMismatch shared

theorem rounds_eq (group : Workgroup) (runners : List Runner) (s : Shared) :
    group.rounds runners s = (group.sweeping runners >>= group.afterSweep) s := by
  rw [rounds, Exec.bind_apply]
  unfold sweeping
  split <;> rename_i h <;> rw [h]
  rfl

/-- After a sweep that has ended at a barrier the waves go on together. -/
theorem afterSweep_of_barrier (hne : pauses ≠ []) (h : ∀ p ∈ pauses, p.halt = .barrier) (s : Shared) :
    group.afterSweep pauses s = group.meeting (pauses.map Pause.resume) s := by
  obtain ⟨p, hp⟩ := List.exists_mem_of_ne_nil pauses hne
  have hnot : ¬ pauses.all (·.halt = .finished) = true := by
    intro hall
    have hfinished : p.halt = .finished := by simpa using List.all_eq_true.mp hall p hp
    rw [h p hp] at hfinished
    cases hfinished
  unfold afterSweep
  rw [if_neg hnot, if_pos (by simpa using h)]

theorem afterSweep_of_finished (h : ∀ p ∈ pauses, p.halt = .finished) (s : Shared) :
    group.afterSweep pauses s = .done () s := by
  unfold afterSweep
  rw [if_pos (by simpa using h)]

/-- How the rounds of a workgroup succeed: after a sweep all waves have ended, or all of them stand
at a barrier and the rounds from there succeed. -/
theorem rounds_eq_done_iff :
    group.rounds runners s = .done () s' ↔ ∃ pauses t, group.sweeping runners s = .done pauses t ∧
      ((pauses.all (·.halt = .finished) ∧ t = s') ∨
        (¬ pauses.all (·.halt = .finished) ∧ pauses.all (·.halt = .barrier) ∧
          t.result.barriers < Shared.maxBarriers ∧ group.rounds (pauses.map Pause.resume) t.meet = .done () s')) := by
  rw [rounds_eq, Exec.bind_eq_done_iff]
  refine exists₂_congr fun pauses t => and_congr_right fun _ => ?_
  unfold afterSweep meeting
  by_cases hf : pauses.all (·.halt = .finished)
  · simp only [hf, ↓reduceIte, Outcome.done.injEq, true_and, not_true_eq_false, false_and, or_false]
  · by_cases hb : pauses.all (·.halt = .barrier) <;> by_cases hn : t.result.barriers < Shared.maxBarriers <;>
      simp [hf, hb, hn]

/-- The rounds of a workgroup can be turned around. -/
theorem rounds_reverse (h : group.Distinct runners) (hs : group.rounds runners s = .done () s') (hst : s.Alike t) :
    ∃ t', group.rounds runners.reverse t = .done () t' ∧ s'.Alike t' := by
  -- The induction is on the steps that are left: each barrier takes one from every wave.
  induction hn : totalBudget runners using Nat.strongRecOn generalizing runners s t with
  | ind n ih =>
    obtain ⟨pauses, s₁, hsweep, hend⟩ := rounds_eq_done_iff.mp hs
    obtain ⟨t₁, hsweep', hst₁⟩ := sweep_reverse h hsweep hst
    rcases hend with ⟨hf, rfl⟩ | ⟨hf, hb, hfew, hrest⟩
    · refine ⟨t₁, rounds_eq_done_iff.mpr ⟨_, _, hsweep', .inl ⟨?_, rfl⟩⟩, hst₁⟩
      rwa [List.all_reverse]
    · have hlt : totalBudget (pauses.map Pause.resume) < n := hn ▸ totalBudget_resume_lt hsweep hf hb
      obtain ⟨t', hrest', hst'⟩ := ih _ hlt (h.of_sweep hsweep) hrest hst₁.meet rfl
      refine ⟨t', rounds_eq_done_iff.mpr ⟨_, _, hsweep', .inr ⟨?_, ?_, hst₁.result.barriers ▸ hfew, ?_⟩⟩, hst'⟩
      · rwa [List.all_reverse]
      · rwa [List.all_reverse]
      · rwa [List.map_reverse]

/-! ## Whole runs -/

/-- Waves that have not begun are different, and have no lane on that they do not have. -/
theorem distinct_start (group : Workgroup) (stepLimit : Nat) :
    group.Distinct ((List.range group.numWaves).map fun id => ⟨Wave.start group id, stepLimit⟩) where
  below := by
    intro r hr
    obtain ⟨id, -, rfl⟩ := List.mem_map.mp hr
    refine ⟨fun lane hl => ?_, fun frame hf => by cases hf⟩
    obtain ⟨hlt, hc⟩ := LaneMask.mem_lanes.mp hl
    rw [Wave.start, LaneMask.contains_first _ hlt, decide_eq_true_eq] at hc
    omega
  nodup := by
    have hid : (fun r : Runner => r.wave.id) ∘ (fun id => (⟨Wave.start group id, stepLimit⟩ : Runner)) = id := rfl
    rw [List.map_map, hid, List.map_id]
    exact List.nodup_range

/-- A workgroup that completes also completes with its waves in the opposite order. -/
theorem complete_reverse (h : group.Distinct runners) {memory m : SharedMemory}
    {result : WorkgroupResult} (hs : group.complete runners memory = .done result m) :
    ∃ m', group.complete runners.reverse memory = .done result m' ∧ m'.bytes = m.bytes := by
  unfold complete at hs
  split at hs
  · rename_i shared hr
    split at hs
    · rename_i finished hfinish
      cases hs
      obtain ⟨t, ht, hst⟩ := rounds_reverse h hr (Shared.Alike.refl _)
      refine ⟨t.memory, ?_, congrArg SharedMemory.bytes hst.memory.symm⟩
      simp only [complete, ht, ← hst.result.finish_eq, hfinish]
    · cases hs
  · cases hs
  · cases hs

theorem Distinct.reverse (h : group.Distinct runners) : group.Distinct runners.reverse where
  below r hr := h.below r (List.mem_reverse.mp hr)
  nodup := by
    rw [List.map_reverse]
    exact List.pairwise_reverse.mpr (h.nodup.imp Ne.symm)

end Workgroup

namespace ComputeUnit

theorem run_eq_done_iff {executable : Executable} {launch : Launch} {unit unit' : ComputeUnit}
    {result : WorkgroupResult} : run executable launch unit = .done result unit' ↔ launch.validate unit.wave = .ok () ∧
      ∃ memory, (unit.workgroup executable launch).complete
          ((unit.workgroup executable launch).runners unit.schedule unit.stepLimit)
          (unit.startMemory executable) = .done result memory ∧ unit' = { unit with memory } := by
  unfold run
  cases launch.validate unit.wave with
  | error cause => simp
  | ok u =>
    dsimp only
    cases (unit.workgroup executable launch).complete
        ((unit.workgroup executable launch).runners unit.schedule unit.stepLimit) (unit.startMemory executable) with
    | done r m =>
      simp only [Outcome.done.injEq, true_and]
      exact ⟨fun ⟨hr, hu⟩ => ⟨m, ⟨hr, rfl⟩, hu.symm⟩, fun ⟨_, ⟨hr, hm⟩, hu⟩ => ⟨hr, by rw [hu, hm]⟩⟩
    | failed error m => simp
    | faulted fault => simp

/-- The waves of a workgroup may take their turns in ascending or in descending order: either the
workgroup succeeds in both, with the same result and the same bytes in memory, or in neither. -/
theorem run_forward_iff_run_reverse (executable : Executable) (launch : Launch) (wave : WaveWidth)
    (stepLimit : Nat) (memory : SharedMemory) (result : WorkgroupResult) (bytes : Array UInt8) :
    (∃ unit, run executable launch ⟨wave, .forward, stepLimit, memory⟩ = .done result unit ∧
        unit.memory.bytes = bytes) ↔
      ∃ unit, run executable launch ⟨wave, .reverse, stepLimit, memory⟩ = .done result unit ∧
        unit.memory.bytes = bytes := by
  have hstart := Workgroup.distinct_start ⟨executable, launch, wave⟩ stepLimit
  constructor
  · rintro ⟨unit, hrun, hbytes⟩
    obtain ⟨hvalid, m, hm, rfl⟩ := run_eq_done_iff.mp hrun
    obtain ⟨m', hm', heq⟩ := Workgroup.complete_reverse hstart hm
    exact ⟨_, run_eq_done_iff.mpr ⟨hvalid, m', hm', rfl⟩, heq.trans hbytes⟩
  · rintro ⟨unit, hrun, hbytes⟩
    obtain ⟨hvalid, m, hm, rfl⟩ := run_eq_done_iff.mp hrun
    obtain ⟨m', hm', heq⟩ := Workgroup.complete_reverse hstart.reverse hm
    rw [List.reverse_reverse] at hm'
    exact ⟨_, run_eq_done_iff.mpr ⟨hvalid, m', hm', rfl⟩, heq.trans hbytes⟩

end ComputeUnit

end PrimitiveShader
