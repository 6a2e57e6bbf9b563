import PrimitiveShader.Proofs.Wave.Twin

/-!
# The step limit

A run can keep a log of which wave has taken which operation, round by round (`ComputeUnit.logged`). However a turn, a
round or a run ends, it ends in the same way with the log and without (`Wave.snd_logged`, `Workgroup.snd_logged`,
`ComputeUnit.snd_logged`). A turn logs the operations that its wave is charged for (`Wave.length_logged`), and a round
that ends at a barrier is charged to every wave. So a run has at most one round more than its limit, and no wave takes
more operations than that.

A wave that has come to a halt would have done so with a larger budget, and would have kept the rest of it
(`Wave.turn_extend`). Hence a run that does not end at the limit does not depend on it
(`ComputeUnit.run_stepLimit`).
-/

namespace PrimitiveShader

/-! ## The operations of a run -/

/-- A turn with a log of its operations, of which the last may have failed. -/
def Wave.logged (group : Workgroup) : Nat → Wave → Shared → List CodeOp × Outcome Shared Pause
  | budget, w, s =>
    match group.executable.code[w.pc]? with
    | none => ([], .done ⟨w, budget, .finished⟩ s)
    | some op =>
      match budget with
      | 0 => ([], .failed (.stepLimit w.id) s)
      | budget + 1 =>
        match w.step group op s with
        | .done (w', true) t => ([op], .done ⟨w', budget, .barrier⟩ t)
        | .done (w', false) t =>
          let later := logged group budget w' t
          (op :: later.1, later.2)
        | .failed error t => ([op], .failed error t)
        | .faulted fault => ([op], .faulted fault)

/-- The log does not change how a turn ends. -/
theorem Wave.snd_logged (group : Workgroup) (budget : Nat) (w : Wave) (s : Shared) :
    (w.logged group budget s).2 = w.run group budget s := by
  induction budget generalizing w s with
  | zero =>
    unfold logged run
    cases group.executable.code[w.pc]? <;> rfl
  | succ budget ih =>
    unfold logged run
    cases group.executable.code[w.pc]? with
    | none => rfl
    | some op =>
      dsimp only
      rcases w.step group op s with ⟨⟨w', _ | _⟩, t⟩ | ⟨error, t⟩ | fault
      · exact ih w' t
      · rfl
      · rfl
      · rfl

namespace Workgroup

/-- A round with a log of its operations, each with the number of its wave. -/
def sweepLogged (group : Workgroup) : List Runner → Shared → List (Nat × CodeOp) × Outcome Shared (List Pause)
  | [], s => ([], .done [] s)
  | r :: rest, s =>
    let turn := r.wave.logged group r.budget s
    let ops := turn.1.map (r.wave.id, ·)
    match turn.2 with
    | .done p t =>
      let later := sweepLogged group rest t
      (ops ++ later.1, later.2.map (p :: ·))
    | .failed error t => (ops, .failed error t)
    | .faulted fault => (ops, .faulted fault)

theorem snd_sweepLogged (group : Workgroup) (runners : List Runner) (s : Shared) :
    (group.sweepLogged runners s).2 = group.sweeping runners s := by
  induction runners generalizing s with
  | nil => rfl
  | cons r rest ih =>
    rw [sweeping_cons, Exec.bind_apply, Wave.turn, ← Wave.snd_logged]
    rw [sweepLogged]
    cases (r.wave.logged group r.budget s).2 with
    | done p t =>
      simp only [Exec.bind_apply, ← ih]
      cases (group.sweepLogged rest t).2 <;> rfl
    | failed | faulted => rfl

/-- All rounds, with the log of each. -/
def logged (group : Workgroup) (runners : List Runner) (s : Shared) : List (List (Nat × CodeOp)) × Outcome Shared Unit :=
  let round := group.sweepLogged runners s
  match _h : round.2 with
  | .done pauses t =>
    if _hf : pauses.all (·.halt = .finished) then ([round.1], .done () t)
    else if _hb : pauses.all (·.halt = .barrier) then
      if t.result.barriers < Shared.maxBarriers then
        let later := logged group (pauses.map Pause.resume) t.meet
        (round.1 :: later.1, later.2)
      else ([round.1], .faulted .overflow)
    else ([round.1], .failed .barrierMismatch t)
  | .failed error t => ([round.1], .failed error t)
  | .faulted fault => ([round.1], .faulted fault)
termination_by totalBudget runners
decreasing_by exact totalBudget_resume_lt (snd_sweepLogged group runners s ▸ _h) _hf _hb

/-- The log does not change how the rounds end. -/
theorem snd_logged (group : Workgroup) (runners : List Runner) (s : Shared) :
    (group.logged runners s).2 = group.rounds runners s := by
  induction hn : totalBudget runners using Nat.strongRecOn generalizing runners s with
  | ind n ih =>
    subst hn
    have hsweep := snd_sweepLogged group runners s
    rw [rounds_eq, Exec.bind_apply, ← hsweep, logged]
    dsimp only
    split
    · rename_i pauses t h
      rw [h] at hsweep ⊢
      dsimp only [afterSweep, meeting]
      split
      · rfl
      · split
        · split
          · exact ih _ (totalBudget_resume_lt hsweep.symm ‹_› ‹_›) _ _ rfl
          · rfl
        · rfl
    · rename_i h
      rw [h]
    · rename_i h
      rw [h]

end Workgroup

namespace ComputeUnit

/-- A run with the log of each of its rounds. A launch that is refused has none. -/
def logged (unit : ComputeUnit) (executable : Executable) (launch : Launch) :
    List (List (Nat × CodeOp)) × Outcome ComputeUnit WorkgroupResult :=
  match launch.validate unit.wave with
  | .error cause => ([], .failed (.launch cause) unit)
  | .ok () =>
    let group := unit.workgroup executable launch
    let rounds := group.logged (group.runners unit.schedule unit.stepLimit) (unit.startState executable)
    (rounds.1, match rounds.2 with
      | .done () s =>
        match s.result.finish launch.numLanes with
        | .ok result => .done result { unit with memory := s.memory }
        | .error error => .failed error { unit with memory := s.memory }
      | .failed error s => .failed error { unit with memory := s.memory }
      | .faulted fault => .faulted fault)

/-- The log does not change how a run ends. -/
theorem snd_logged (executable : Executable) (launch : Launch) (unit : ComputeUnit) :
    (unit.logged executable launch).2 = run executable launch unit := by
  unfold logged run
  cases launch.validate unit.wave with
  | error cause => rfl
  | ok u =>
    dsimp only
    rw [Workgroup.snd_logged, startState, Workgroup.complete]
    rcases (unit.workgroup executable launch).rounds ((unit.workgroup executable launch).runners unit.schedule
      unit.stepLimit) { memory := unit.startMemory executable } with ⟨⟨⟩, s⟩ | ⟨error, s⟩ | fault
    · simp only [show (unit.workgroup executable launch).launch = launch from rfl]
      cases s.result.finish launch.numLanes <;> rfl
    · rfl
    · rfl

end ComputeUnit

/-! ## Operations and budgets -/

namespace Wave

/-- A turn is charged for each of its operations. -/
theorem length_logged (group : Workgroup) (budget : Nat) (w : Wave) (s : Shared) :
    (w.logged group budget s).1.length ≤ budget ∧ ∀ p t, (w.logged group budget s).2 = .done p t →
      (w.logged group budget s).1.length + p.budget = budget := by
  induction budget generalizing w s with
  | zero =>
    unfold logged
    cases group.executable.code[w.pc]? with
    | none => exact ⟨Nat.le_refl 0, fun p t h => by cases h; rfl⟩
    | some op => exact ⟨Nat.le_refl 0, fun p t h => by cases h⟩
  | succ budget ih =>
    unfold logged
    cases group.executable.code[w.pc]? with
    | none => exact ⟨Nat.zero_le _, fun p t h => by cases h; exact Nat.zero_add _⟩
    | some op =>
      dsimp only
      rcases w.step group op s with ⟨⟨w', _ | _⟩, s₁⟩ | ⟨error, s₁⟩ | fault
      · obtain ⟨hle, hturn⟩ := ih w' s₁
        refine ⟨Nat.succ_le_succ hle, fun p t h => ?_⟩
        rw [List.length_cons, Nat.add_right_comm, hturn p t h]
      · exact ⟨Nat.succ_le_succ (Nat.zero_le _), fun p t h => by cases h; exact Nat.add_comm _ _⟩
      · exact ⟨Nat.succ_le_succ (Nat.zero_le _), fun p t h => by cases h⟩
      · exact ⟨Nat.succ_le_succ (Nat.zero_le _), fun p t h => by cases h⟩

theorem id_of_turn {group : Workgroup} {budget : Nat} {w : Wave} {s t : Shared} {p : Pause}
    (h : w.turn group budget s = .done p t) : p.wave.id = w.id := by
  have hbelow (mask : LaneMask) : mask.Below 64 := fun l hl => (LaneMask.mem_lanes.mp hl).1
  exact (Below.turn ⟨hbelow _, fun frame _ => by cases frame <;> simp [Frame.Below, hbelow]⟩ h).1

end Wave

namespace Workgroup

variable {limit : Nat} {group : Workgroup} {runners : List Runner} {s t : Shared} {pauses : List Pause}

/-- The operations that waves of a number may still take. -/
def budgetOf (id : Nat) (runners : List Runner) : Nat :=
  (runners.map fun r => if r.wave.id = id then r.budget else 0).sum

/-- The operations that waves of a number have taken. -/
def taken (id : Nat) (operations : List (Nat × CodeOp)) : Nat := operations.countP (·.1 = id)

theorem taken_turn (id : Nat) (w : Wave) (ops : List CodeOp) :
    taken id (ops.map (w.id, ·)) = if w.id = id then ops.length else 0 := by
  unfold taken
  split <;> simp_all [List.countP_map, Function.comp_def]

/-- A round is charged to the waves that take part in it. -/
theorem taken_sweepLogged (id : Nat) (runners : List Runner) (s : Shared) :
    taken id (group.sweepLogged runners s).1 ≤ budgetOf id runners ∧ ∀ pauses t,
      (group.sweepLogged runners s).2 = .done pauses t →
        taken id (group.sweepLogged runners s).1 + budgetOf id (pauses.map Pause.resume) = budgetOf id runners := by
  induction runners generalizing s with
  | nil =>
    refine ⟨Nat.le_refl 0, fun pauses t h => ?_⟩
    cases h
    rfl
  | cons r rest ih =>
    obtain ⟨hle, hturn⟩ := Wave.length_logged group r.budget r.wave s
    have htaken := taken_turn id r.wave (r.wave.logged group r.budget s).1
    have hcharge : (if r.wave.id = id then (r.wave.logged group r.budget s).1.length else 0) ≤
        if r.wave.id = id then r.budget else 0 := by
      split
      · exact hle
      · exact Nat.le_refl 0
    have halone : taken id ((r.wave.logged group r.budget s).1.map (r.wave.id, ·)) ≤ budgetOf id (r :: rest) :=
      htaken ▸ Nat.le_trans hcharge (Nat.le_add_right _ _)
    rw [sweepLogged]
    cases hlog : (r.wave.logged group r.budget s).2 with
    | failed | faulted =>
      dsimp only
      exact ⟨halone, fun pauses t h => by cases h⟩
    | done p s₁ =>
      dsimp only
      rw [taken, List.countP_append, ← taken, ← taken, htaken]
      refine ⟨Nat.add_le_add hcharge (ih s₁).1, fun pauses t h => ?_⟩
      obtain ⟨ps, hps, rfl⟩ := Outcome.map_eq_done_iff.mp h
      have hrest := (ih s₁).2 ps t hps
      have hpaid := hturn p s₁ hlog
      have hid : p.resume.wave.id = r.wave.id := Wave.id_of_turn ((Wave.snd_logged ..).symm.trans hlog)
      simp only [budgetOf, List.map_cons, List.sum_cons, hid] at hrest ⊢
      have hbudget : p.resume.budget = p.budget := rfl
      split <;> omega

/-- The log of a run, with the first round apart. -/
theorem fst_logged (group : Workgroup) (runners : List Runner) (s : Shared) :
    ∃ later, (group.logged runners s).1 = (group.sweepLogged runners s).1 :: later ∧
      (later = [] ∨ ∃ pauses t, (group.sweepLogged runners s).2 = .done pauses t ∧
        (¬ pauses.all (·.halt = .finished)) ∧ pauses.all (·.halt = .barrier) ∧
        later = (group.logged (pauses.map Pause.resume) t.meet).1) := by
  rw [logged]
  dsimp only
  split
  · rename_i pauses t h
    split
    · exact ⟨_, rfl, .inl rfl⟩
    · split
      · split
        · exact ⟨_, rfl, .inr ⟨pauses, t, h, ‹_›, ‹_›, rfl⟩⟩
        · exact ⟨_, rfl, .inl rfl⟩
      · exact ⟨_, rfl, .inl rfl⟩
  · exact ⟨_, rfl, .inl rfl⟩
  · exact ⟨_, rfl, .inl rfl⟩

/-- No wave takes more operations than it may. -/
theorem taken_logged_le (id : Nat) (runners : List Runner) (s : Shared) :
    taken id (group.logged runners s).1.flatten ≤ budgetOf id runners := by
  induction hn : totalBudget runners using Nat.strongRecOn generalizing runners s with
  | ind n ih =>
    subst hn
    obtain ⟨hle, hdone⟩ := @taken_sweepLogged group id runners s
    obtain ⟨later, heq, hlater⟩ := group.fst_logged runners s
    rw [heq, List.flatten_cons, taken, List.countP_append]
    change taken id _ + taken id _ ≤ _
    rcases hlater with rfl | ⟨pauses, t, hsweep, hf, hb, rfl⟩
    · exact hle
    · have hlt := totalBudget_resume_lt (snd_sweepLogged group runners s ▸ hsweep) hf hb
      have hrest := ih _ hlt (pauses.map Pause.resume) t.meet rfl
      have hpaid := hdone pauses t hsweep
      omega

/-- A wave that stands at a barrier after its turn has taken a step. -/
theorem budget_of_sweeping (h : group.sweeping runners s = .done pauses t) {p : Pause} (hp : p ∈ pauses) :
    ∃ r ∈ runners, p.halt = .barrier → p.budget < r.budget := by
  induction runners generalizing s pauses with
  | nil =>
    cases h
    cases hp
  | cons r rest ih =>
    obtain ⟨q, s₁, ps, hq, hps, rfl⟩ := sweeping_cons_eq_done_iff.mp h
    rcases List.mem_cons.mp hp with rfl | hp
    · exact ⟨r, List.mem_cons_self, (Wave.budget_of_run hq).2⟩
    · obtain ⟨r', hr', hlt⟩ := ih hps hp
      exact ⟨r', List.mem_cons_of_mem _ hr', hlt⟩

/-- Each round but the last is charged to every wave. -/
theorem length_logged_le (h : ∀ r ∈ runners, r.budget ≤ limit) (s : Shared) :
    (group.logged runners s).1.length ≤ limit + 1 := by
  induction limit generalizing runners s with
  | zero =>
    obtain ⟨later, heq, rfl | ⟨pauses, t, hsweep, hf, hb, rfl⟩⟩ := group.fst_logged runners s
    · exact heq ▸ Nat.le_refl 1
    · refine absurd (List.all_eq_true.mpr fun p hp => ?_) hf
      obtain ⟨r, hr, hlt⟩ := budget_of_sweeping (snd_sweepLogged group runners s ▸ hsweep) hp
      have hbudget := h r hr
      have hlt := hlt (by simpa using List.all_eq_true.mp hb p hp)
      omega
  | succ limit ih =>
    obtain ⟨later, heq, hlater⟩ := group.fst_logged runners s
    rw [heq, List.length_cons]
    refine Nat.succ_le_succ ?_
    rcases hlater with rfl | ⟨pauses, t, hsweep, hf, hb, rfl⟩
    · exact Nat.zero_le _
    · refine ih (fun r hr => ?_) t.meet
      obtain ⟨p, hp, rfl⟩ := List.mem_map.mp hr
      obtain ⟨r, hr, hlt⟩ := budget_of_sweeping (snd_sweepLogged group runners s ▸ hsweep) hp
      have hbudget := h r hr
      have hlt := hlt (by simpa using List.all_eq_true.mp hb p hp)
      exact Nat.le_of_lt_succ (Nat.lt_of_lt_of_le hlt hbudget)

theorem mem_runners {schedule : Schedule} {r : Runner} (hr : r ∈ group.runners schedule limit) :
    ∃ id < group.numWaves, r = ⟨Wave.start group id, limit⟩ := by
  have hmem : r ∈ (List.range group.numWaves).map fun id => (⟨Wave.start group id, limit⟩ : Runner) := by
    cases schedule with
    | forward => exact hr
    | reverse => exact List.mem_reverse.mp hr
  obtain ⟨id, hid, rfl⟩ := List.mem_map.mp hmem
  exact ⟨id, List.mem_range.mp hid, rfl⟩

/-- Every wave may take as many operations as the limit says. -/
theorem budgetOf_runners_le (group : Workgroup) (schedule : Schedule) (limit id : Nat) :
    budgetOf id (group.runners schedule limit) ≤ limit := by
  have hwaves (n : Nat) : budgetOf id ((List.range n).map fun i => ⟨Wave.start group i, limit⟩) =
      if id < n then limit else 0 := by
    induction n with
    | zero => rfl
    | succ n ih =>
      unfold budgetOf at ih ⊢
      rw [List.range_succ, List.map_append, List.map_append, List.sum_append, ih]
      simp only [List.map_cons, List.map_nil, List.sum_singleton, Wave.start]
      split <;> split <;> split <;> omega
  have hle : budgetOf id ((List.range group.numWaves).map fun i => ⟨Wave.start group i, limit⟩) ≤ limit := by
    rw [hwaves]
    split <;> omega
  cases schedule with
  | forward => exact hle
  | reverse =>
    unfold budgetOf runners Schedule.order
    rw [List.map_reverse, List.sum_reverse]
    exact hle

end Workgroup

/-! ## A larger limit -/

/-- A wave with a larger budget. -/
def Runner.extend (k : Nat) (r : Runner) : Runner := { r with budget := r.budget + k }

/-- A wave that had a larger budget. -/
def Pause.extend (k : Nat) (p : Pause) : Pause := { p with budget := p.budget + k }

/-- The run has come to the limit. -/
def Outcome.AtLimit {σ α : Type} (o : Outcome σ α) : Prop := ∃ id t, o = .failed (.stepLimit id) t

theorem Outcome.map_id {σ α : Type} (o : Outcome σ α) : o.map (fun a => a) = o := by
  cases o <;> rfl

/-- Two steps that do not come to the limit. -/
theorem Exec.bind_extend {σ α β α' β' : Type} {x : Exec σ α} {x' : Exec σ α'} {k : α → Exec σ β} {k' : α' → Exec σ β'}
    {f : α → α'} {g : β → β'} {s : σ} (hx : ¬ (x s).AtLimit → x' s = (x s).map f)
    (hk : ∀ a t, x s = .done a t → ¬ (k a t).AtLimit → k' (f a) t = (k a t).map g) (h : ¬ ((x >>= k) s).AtLimit) :
    (x' >>= k') s = ((x >>= k) s).map g := by
  rw [bind_apply] at h
  rw [bind_apply, bind_apply, hx fun ⟨id, t, hlimit⟩ => h ⟨id, t, by rw [hlimit]⟩]
  cases hs : x s with
  | done a t =>
    rw [hs] at h
    exact hk a t hs h
  | failed error t => rfl
  | faulted fault => rfl

/-- A turn that ends before its limit ends in the same way with a larger one. -/
theorem Wave.turn_extend {group : Workgroup} {budget : Nat} {w : Wave} {s : Shared} (k : Nat)
    (h : ¬ (w.turn group budget s).AtLimit) :
    w.turn group (budget + k) s = (w.turn group budget s).map (Pause.extend k) := by
  induction budget generalizing w s with
  | zero =>
    cases hop : group.executable.code[w.pc]? with
    | none =>
      rw [turn_of_code_eq_none hop, turn_of_code_eq_none hop]
      rfl
    | some op =>
      rw [turn_zero hop] at h
      exact absurd ⟨w.id, s, rfl⟩ h
  | succ budget ih =>
    cases hop : group.executable.code[w.pc]? with
    | none =>
      rw [turn_of_code_eq_none hop, turn_of_code_eq_none hop]
      rfl
    | some op =>
      rw [turn_succ hop] at h
      rw [Nat.add_right_comm, turn_succ hop, turn_succ hop]
      refine Exec.bind_extend (f := fun p => p) (fun _ => (Outcome.map_id _).symm) ?_ h
      rintro ⟨w', _ | _⟩ t - hlimit
      · exact ih hlimit
      · rfl

namespace Workgroup

variable {group : Workgroup} {runners : List Runner} {s : Shared}

theorem sweeping_extend (k : Nat) (h : ¬ (group.sweeping runners s).AtLimit) :
    group.sweeping (runners.map (Runner.extend k)) s = (group.sweeping runners s).map (List.map (Pause.extend k)) := by
  induction runners generalizing s with
  | nil => rfl
  | cons r rest ih =>
    rw [sweeping_cons] at h
    rw [List.map_cons, sweeping_cons, sweeping_cons]
    exact Exec.bind_extend (Wave.turn_extend k) (fun p t _ => Exec.bind_extend ih fun ps u _ _ => rfl) h

/-- Waves that end before the limit end in the same way with a larger one. -/
theorem rounds_extend (k : Nat) (h : ¬ (group.rounds runners s).AtLimit) :
    group.rounds (runners.map (Runner.extend k)) s = group.rounds runners s := by
  induction hn : totalBudget runners using Nat.strongRecOn generalizing runners s with
  | ind n ih =>
    subst hn
    have hall (pauses : List Pause) (halt : Halt) :
        (pauses.map (Pause.extend k)).all (·.halt = halt) = pauses.all (·.halt = halt) := by
      rw [List.all_map]
      rfl
    rw [rounds_eq] at h
    rw [rounds_eq, rounds_eq]
    rw [← Outcome.map_id ((group.sweeping runners >>= group.afterSweep) s)]
    refine Exec.bind_extend (sweeping_extend k) (fun pauses t hsweep hpauses => ?_) h
    unfold afterSweep at hpauses ⊢
    rw [hall, hall, Outcome.map_id]
    split
    · rfl
    · split
      · rename_i hf hb
        rw [if_neg hf, if_pos hb] at hpauses
        have hresume : (pauses.map (Pause.extend k)).map Pause.resume =
            (pauses.map Pause.resume).map (Runner.extend k) := by
          rw [List.map_map, List.map_map]
          rfl
        rw [hresume, meeting]
        rw [meeting] at hpauses ⊢
        split
        · rename_i hfew
          rw [if_pos hfew] at hpauses
          exact ih _ (totalBudget_resume_lt hsweep hf hb) hpauses rfl
        · rfl
      · rfl

theorem runners_extend (group : Workgroup) (schedule : Schedule) (limit k : Nat) :
    group.runners schedule (limit + k) = (group.runners schedule limit).map (Runner.extend k) := by
  cases schedule with
  | forward =>
    simp only [runners, Schedule.order, List.map_map]
    rfl
  | reverse =>
    simp only [runners, Schedule.order, List.map_reverse, List.map_map]
    rfl

end Workgroup

namespace ComputeUnit

/-- A run that does not come to its limit does not depend on it. -/
theorem run_extend (executable : Executable) (launch : Launch) (unit : ComputeUnit)
    (h : ¬ (run executable launch unit).AtLimit) {limit : Nat} (hle : unit.stepLimit ≤ limit) :
    (run executable launch { unit with stepLimit := limit }).answer = (run executable launch unit).answer ∧
      (run executable launch { unit with stepLimit := limit }).state?.map (·.memory) =
        (run executable launch unit).state?.map (·.memory) := by
  obtain ⟨k, rfl⟩ := Nat.exists_eq_add_of_le hle
  cases hvalid : launch.validate unit.wave with
  | error cause =>
    simp only [run, hvalid]
    exact ⟨rfl, rfl⟩
  | ok u =>
    have hrounds : ¬ ((unit.workgroup executable launch).rounds
        ((unit.workgroup executable launch).runners unit.schedule unit.stepLimit)
        { memory := unit.startMemory executable }).AtLimit := by
      rintro ⟨id, t, hlimit⟩
      refine h ⟨id, { unit with memory := t.memory }, ?_⟩
      simp only [run, hvalid, Workgroup.complete, hlimit]
    have hsame := Workgroup.rounds_extend k hrounds
    rw [← Workgroup.runners_extend] at hsame
    have hcomplete : (unit.workgroup executable launch).complete
        ((unit.workgroup executable launch).runners unit.schedule (unit.stepLimit + k)) (unit.startMemory executable) =
        (unit.workgroup executable launch).complete
          ((unit.workgroup executable launch).runners unit.schedule unit.stepLimit) (unit.startMemory executable) := by
      rw [Workgroup.complete, Workgroup.complete, hsame]
    simp only [run, hvalid, workgroup, startMemory] at hcomplete ⊢
    rw [hcomplete]
    split <;> exact ⟨rfl, rfl⟩

/-- Runs are bounded by the step limit, and do not depend on it otherwise. However a run ends, its log is of a run that
ends in this way; it has at most one round more than the limit, and no wave takes more operations than the limit. If the
run does not end at the limit, it ends with the same result and leaves the same memory under every larger one. -/
theorem run_stepLimit (executable : Executable) (launch : Launch) (unit : ComputeUnit) :
    (unit.logged executable launch).2 = run executable launch unit ∧
    (unit.logged executable launch).1.length ≤ unit.stepLimit + 1 ∧
    (∀ id, Workgroup.taken id (unit.logged executable launch).1.flatten ≤ unit.stepLimit) ∧
    ((∀ id unit', run executable launch unit ≠ .failed (.stepLimit id) unit') → ∀ limit, unit.stepLimit ≤ limit →
      (run executable launch { unit with stepLimit := limit }).answer = (run executable launch unit).answer ∧
      (run executable launch { unit with stepLimit := limit }).state?.map (·.memory) =
        (run executable launch unit).state?.map (·.memory)) := by
  refine ⟨snd_logged executable launch unit, ?_, fun id => ?_,
    fun h limit hle => run_extend executable launch unit (fun ⟨id, t, ht⟩ => h id t ht) hle⟩
  · unfold logged
    split
    · exact Nat.zero_le _
    · refine Workgroup.length_logged_le (fun r hr => ?_) _
      obtain ⟨id, -, rfl⟩ := Workgroup.mem_runners hr
      exact Nat.le_refl _
  · unfold logged
    split
    · exact Nat.zero_le _
    · exact Nat.le_trans (Workgroup.taken_logged_le id _ _) (Workgroup.budgetOf_runners_le _ _ _ id)

/-- A program with a barrier. -/
def meetingProgram : Program where
  stage := .geometry
  definitions := #[⟨.const .u32 7, .u32⟩, ⟨.intrinsic .barrier, .void⟩]
  body := [.instr ⟨0⟩, .instr ⟨1⟩]

/-- Two waves meet within three operations each, and a larger limit does not matter. -/
theorem run_stepLimit_meeting :
    let executable : Executable := ⟨meetingProgram, (Block.code 0 meetingProgram.body).toArray⟩
    let unit : ComputeUnit := { wave := .wave32, stepLimit := 2 }
    (unit.logged executable { numLanes := 33 }).1.length ≤ 3 ∧
    (∀ id unit', run executable { numLanes := 33 } unit ≠ .failed (.stepLimit id) unit') ∧
    (run executable { numLanes := 33 } { unit with stepLimit := 100 }).answer =
      (run executable { numLanes := 33 } unit).answer := by
  intro executable unit
  have hends : ((run executable { numLanes := 33 } unit).answer.toOption.bind Except.toOption).isSome := by
    decide +kernel
  have hlimit (id : Nat) (unit' : ComputeUnit) : run executable { numLanes := 33 } unit ≠ .failed (.stepLimit id) unit' := by
    intro h
    rw [h] at hends
    cases hends
  obtain ⟨-, hrounds, -, hsame⟩ := run_stepLimit executable { numLanes := 33 } unit
  exact ⟨hrounds, hlimit, (hsame hlimit 100 (by decide)).1⟩

end ComputeUnit

end PrimitiveShader
