import PrimitiveShader.Proofs.Thread.Unison
import PrimitiveShader.Proofs.Wave.Isolation

/-!
# Two runs of code that does not look at the memory

Code that loads nothing leaves two runs with different memories in the same state. So they come to the next
barrier together, with the same lanes, the same accesses since the last barrier and the same result so far
(`Workgroup.rounds_twin_of_unread`). If in the end as much has been counted in both runs, and their threads have
exported the same, then they have the same answer (`Workgroup.finish_eq_of_crews`).
-/

namespace PrimitiveShader

variable {group : Workgroup} {s : Shared}

/-- A turn that comes to a barrier in the code before operation `stop` does not look at the rest of the code. -/
theorem Wave.turn_eq_cut_of_barrier {stop budget : Nat} {w : Wave} {F : Prop} {P : Pause → Shared → Prop}
    (h : (w.turn (group.cut stop) budget s).Ensures F fun p t => p.halt = .barrier ∧ P p t) :
    w.turn group budget s = w.turn (group.cut stop) budget s := by
  rw [turn_eq_cut group stop, Exec.bind_apply]
  cases hturn : w.turn (group.cut stop) budget s with
  | done p t =>
    rw [hturn] at h
    simp only [h.1]
    rfl
  | failed error t => rfl
  | faulted fault => rfl

/-- Faults have no part in what is known of the threads. -/
theorem Lined.of_faults {own : Ownership} {faults faults' : Prop} {pc : Nat} {promise : Promise}
    {T : Nat → Nat → Thread} {waves : List Wave}
    (h : Lined ⟨group, own, faults⟩ pc promise s T waves) : Lined ⟨group, own, faults'⟩ pc promise s T waves := by
  intro w hw
  obtain ⟨lanes, hstand, hcrew, hkeeps⟩ := h w hw
  exact ⟨lanes, hstand, ⟨hcrew.count, hcrew.lane, hcrew.sized, hcrew.view, hcrew.primitives, hcrew.vertices,
    hcrew.space, hcrew.obeys, hcrew.share⟩, hkeeps⟩

namespace Workgroup

/-- The same lanes in both runs. -/
abbrev SameLanes (_ : Nat) (lanes lanes' : Array Lane) : Prop := lanes' = lanes

variable {c : Setting} {pc : Nat} {pre : Promise} {block rest : Block} {bar : Value} {runners runners' : List Runner}
  {s' : Shared} {T T' : Nat → Nat → Thread}

/-- A turn up to a barrier, in two runs with the same lanes. -/
theorem turn_twin_of_unread {id : Nat} {T T' : Nat → Thread} {lanes : Array Lane} {Q Q' : (Nat → Thread) → Prop}
    (hbrings : Block.Brings c id block Q T) (hbrings' : Block.Brings c id block Q' T')
    (hbar : block.NoBarrier c.program) (hinstr : c.program.instr bar = .ok (.intrinsic .barrier))
    (hcode : CodeAt c.group.executable.code pc (Block.code pc block ++ [.instr bar]))
    (hload : (c.group.cut (pc + (Block.code pc block).length + 1)).LoadsSame False)
    (hid : id < c.group.numWaves) (hcrew : Crew c id lanes s T) (hcrew' : Crew c id lanes s' T')
    (hs : s.SameShare c.program.sharedSize False s') (budget : Nat) :
    ((c.group.standing id pc lanes).turn c.group budget s).Twin (fun _ _ => True)
      (fun p t p' t' => p'.budget = p.budget ∧ SameLanes id p.wave.lanes p'.wave.lanes ∧
        t.SameShare c.program.sharedSize False t') ((c.group.standing id pc lanes).turn c.group budget s') := by
  obtain ⟨stop, hstop⟩ : ∃ stop, stop = pc + (Block.code pc block ++ [CodeOp.instr bar]).length := ⟨_, rfl⟩
  have hcut := (codeAt_cut hcode).1
  rw [← hstop] at hcut
  have hone {s : Shared} {T : Nat → Thread} {Q : (Nat → Thread) → Prop} (hbrings : Block.Brings c id block Q T)
      (hcrew : Crew c id lanes s T) : (c.group.standing id pc lanes).turn c.group budget s =
        (c.group.standing id pc lanes).turn (c.group.cut stop) budget s :=
    Wave.turn_eq_cut_of_barrier
      ((hbrings.cut stop).turn_barrier hcut hbar hinstr (launched_ne_empty c hid) (Crew.cut_iff.mpr hcrew) budget)
  have hload' : (c.group.cut stop).LoadsSame False := by
    rw [hstop, List.length_append, ← Nat.add_assoc]
    exact hload
  rw [hone hbrings hcrew, hone hbrings' hcrew']
  refine .mono_errors (.mono (hload'.turn rfl hs) ?_) fun _ _ _ => trivial
  rintro p t p' t' - - ⟨hp, ht⟩
  exact ⟨hp.resume.budget, congrArg Wave.lanes hp.resume.wave, ht⟩

/-- Two runs of code up to a barrier, and what they do behind it. -/
theorem rounds_twin_of_unread (mid : Promise) {Q : Unit → Shared → Unit → Shared → Prop}
    (hbrings : ∀ id < c.group.numWaves, ∀ T, c.Keeps id pre T → Block.Brings c id block (c.Keeps id mid) T)
    (hbar : block.NoBarrier c.program) (hinstr : c.program.instr bar = .ok (.intrinsic .barrier))
    (hload : (c.group.cut (pc + (Block.code pc block).length + 1)).LoadsSame False)
    (hlanes : 0 < c.group.launch.numLanes)
    (hcode : CodeAt c.group.executable.code pc (Block.code pc (block ++ .instr bar :: rest)))
    (hend : c.group.executable.code.size = pc + (Block.code pc (block ++ .instr bar :: rest)).length)
    (hall : c.group.Complete (runners.map (·.wave)))
    (hbeside : List.Forall₂ (Runner.Beside (Wave.Counterpart SameLanes)) runners runners')
    (hlined : Lined c pc pre s T (runners.map (·.wave)))
    (hlined' : Lined c pc pre s' T' (runners'.map (·.wave))) (hs : s.SameShare c.program.sharedSize False s')
    (hrest : ∀ runners runners' t t' U U', c.group.Complete (runners.map (·.wave)) →
      c.group.Complete (runners'.map (·.wave)) →
      List.Forall₂ (Runner.Beside (Wave.Counterpart SameLanes)) runners runners' →
      Lined c (pc + (Block.code pc block).length + 1) mid t U (runners.map (·.wave)) →
      Lined c (pc + (Block.code pc block).length + 1) mid t' U' (runners'.map (·.wave)) →
      t.SameShare c.program.sharedSize False t' →
      (c.group.rounds runners t.meet).Twin (fun _ _ => True) Q (c.group.rounds runners' t'.meet)) :
    (c.group.rounds runners s).Twin (fun _ _ => True) Q (c.group.rounds runners' s') := by
  obtain ⟨hleft, -, -⟩ := codeAt_barrier hcode hend
  have hsweep := sweep_twin (c := c) (L := SameLanes) (S := Shared.SameShare c.program.sharedSize False)
    (fun id hid b lanes s T hcrew hpre => (hbrings id hid T hpre).turn_barrier hleft hbar hinstr
      (launched_ne_empty _ hid) hcrew b) (fun id hid b lanes lanes' s s' T T' hcrew hpre hcrew' hpre' hsame hs => by
      obtain rfl : lanes' = lanes := hsame
      exact turn_twin_of_unread (hbrings id hid T hpre) (hbrings id hid T' hpre') hbar hinstr hleft hload hid
        hcrew hcrew' hs b)
    hall hbeside hlined hlined' hs
  rw [rounds_eq, rounds_eq]
  refine .bind (hsweep.mono ?_)
  rintro ps t ps' t' - - ⟨⟨hps, ht⟩, hswept, hswept'⟩
  obtain ⟨U, hU⟩ := hswept.lined
  obtain ⟨U', hU'⟩ := hswept'.lined
  rw [afterSweep_of_barrier (hswept.all.ne_nil hlanes) hswept.halt,
    afterSweep_of_barrier (hswept'.all.ne_nil hlanes) hswept'.halt]
  exact meeting_twin (by rw [ht.result]) (hrest _ _ t t' U U' hswept.all hswept'.all hps hU hU' ht)

/-! ## Answers -/

variable {own own' : Ownership} {faults : Prop}

/-- Threads that have asked for the same space and exported the same leave results that differ in nothing, if as
much has been counted. -/
theorem finish_eq_of_crews (hlanes : 0 < group.launch.numLanes)
    (hT : ∀ id < group.numWaves, ∃ lanes, Crew ⟨group, own, faults⟩ id lanes s (T id))
    (hT' : ∀ id < group.numWaves, ∃ lanes, Crew ⟨group, own', faults⟩ id lanes s' (T' id))
    (hspace : (group.thread T' 0).space = (group.thread T 0).space)
    (hprimitives : ∀ i < group.launch.numLanes, (group.thread T' i).primitives = (group.thread T i).primitives)
    (hvertices : ∀ i < group.launch.numLanes, (group.thread T' i).vertices = (group.thread T i).vertices)
    (hroomy : group.Roomy (group.thread T)) (hs : SameCounts s s') :
    s'.result.finish group.launch.numLanes = s.result.finish group.launch.numLanes := by
  obtain ⟨space, hasked, hfits⟩ := hroomy
  obtain ⟨halloc, hp, hv⟩ := result_of_crews hlanes hT
  obtain ⟨halloc', hp', hv'⟩ := result_of_crews hlanes hT'
  have hcounts := congrArg WorkgroupResult.queryCounters hs
  have hbarriers := congrArg WorkgroupResult.barriers hs
  have hloads := congrArg WorkgroupResult.sharedLoads hs
  have hstores := congrArg WorkgroupResult.sharedStores hs
  rw [WorkgroupResult.finish_eq_ok (halloc.trans hasked) hp hv (fun i hi => (hfits i hi).1) fun i hi => (hfits i hi).2,
    WorkgroupResult.finish_eq_ok ((halloc'.trans hspace).trans hasked)
      (fun i hi => (hp' i hi).trans (by rw [hprimitives i hi])) (fun i hi => (hv' i hi).trans (by rw [hvertices i hi]))
      (fun i hi => (hfits i hi).1) fun i hi => (hfits i hi).2]
  simp only [WorkgroupResult.bare] at hcounts hbarriers hloads hstores
  simp only [halloc, halloc', hspace, hcounts, hbarriers, hloads, hstores]

/-- Runs that come to the same end and leave the same to be handed over have the same answer. -/
theorem answer_complete_eq {m m' : SharedMemory} (h : (group.rounds runners { memory := m }).Twin (fun _ _ => True)
      (fun _ t _ t' => t'.result.finish group.launch.numLanes = t.result.finish group.launch.numLanes)
      (group.rounds runners { memory := m' })) :
    (group.complete runners m').answer = (group.complete runners m).answer := by
  unfold complete
  obtain ⟨_, t, _, t', hr, hr', h⟩ | ⟨error, t, t', hr, hr', -⟩ | ⟨fault, hr, hr'⟩ := h.elim <;> rw [hr, hr']
  · dsimp only
    rw [h]
    cases t.result.finish group.launch.numLanes <;> rfl
  · rfl

end Workgroup

/-- On two units of the same kind a launch has the same answer, if its waves have. -/
theorem ComputeUnit.answer_run_eq {executable : Executable} {launch : Launch} {unit unit' : ComputeUnit}
    (hwave : unit'.wave = unit.wave) (hschedule : unit'.schedule = unit.schedule)
    (hlimit : unit'.stepLimit = unit.stepLimit) (h : launch.validate unit.wave = .ok () →
      ((unit.workgroup executable launch).complete
          ((unit.workgroup executable launch).runners unit.schedule unit.stepLimit)
          (unit'.startMemory executable)).answer = ((unit.workgroup executable launch).complete
          ((unit.workgroup executable launch).runners unit.schedule unit.stepLimit)
          (unit.startMemory executable)).answer) :
    (run executable launch unit').answer = (run executable launch unit).answer := by
  have hgroup : unit'.workgroup executable launch = unit.workgroup executable launch := by
    unfold workgroup
    rw [hwave]
  unfold run
  rw [hwave]
  cases hvalid : launch.validate unit.wave with
  | error cause => rfl
  | ok u =>
    have h := h hvalid
    dsimp only
    rw [hgroup, hschedule, hlimit]
    cases hc : (unit.workgroup executable launch).complete
        ((unit.workgroup executable launch).runners unit.schedule unit.stepLimit) (unit.startMemory executable) <;>
      cases hc' : (unit.workgroup executable launch).complete
          ((unit.workgroup executable launch).runners unit.schedule unit.stepLimit) (unit'.startMemory executable) <;>
      rw [hc, hc'] at h <;> exact h

end PrimitiveShader
