import PrimitiveShader.Proofs.Lowering.Geometry.Emissions
import PrimitiveShader.Proofs.Lowering.Geometry.Refinement
import PrimitiveShader.Proofs.Thread.Unread

/-!
# What earlier workgroups have left in memory

The memory of a unit is not cleared between launches. A lowered geometry program does not see what it finds there,
if its invocations state how many vertices they emit and emit them all. Until the second barrier it loads nothing,
so that runs on different memories are in the same state. Then the flags are those that the invocations have
stored or cleared, and so are the vertices where the flags say that there are any (`GeometryPlan.Sound.agrees_of_left`).
From there on both runs export the same.
-/

namespace PrimitiveShader

namespace Lowering

open Emit

namespace GeometryPlan

variable {plan : GeometryPlan} {source group : Workgroup} {declared : Program} {faults : Prop} {compacts : Bool}
  {view view' : Nat → UInt8}

/-- The bytes show what the invocations have left, whatever they have found. -/
def Left (plan : GeometryPlan) (source : Workgroup) (view : Nat → UInt8) : Prop :=
  ∀ i < source.launch.primitives.size, ∃ inv before, source.Invokes i (.next inv) ∧
    plan.Leaves before view i inv.events

variable {T : Nat → Thread} {flags : Region}

/-- What the threads have left once they have met behind the body. -/
theorem Suits.left_of_meet (h : plan.Suits source group declared faults)
    (hr : plan.flagsRegion 0 = .ok flags) (huse : plan.config.geometry.usesStream 0)
    (hT : ∀ i < group.launch.numLanes, ∃ before, plan.HasRun source before i (T i))
    (hagree : ∀ i < group.launch.numLanes, ∀ a, plan.bodyOwner a = none ∨ plan.bodyOwner a = some i →
      (T i).view a = view a) : plan.Left source view := by
  intro i hi
  have hlaunch : i < group.launch.primitives.size := h.launch ▸ hi
  have hlanes := Nat.lt_of_lt_of_le hlaunch h.launched.primitives
  have hlt := Nat.lt_of_lt_of_le hlaunch h.invocations
  obtain ⟨before, hrun⟩ := hT i hlanes
  obtain ⟨inv, hinv, hview⟩ := hrun.staged hi
  refine ⟨inv, before, hinv, (h.leaves_afterEvents hr huse hlt inv.events).congr h.toSound hlt fun a ha => ?_⟩
  rw [← hagree i hlanes a (.inr (h.bodyOwner_eq ha)), hview]

/-- Bytes that the same invocations have left agree, where it matters. -/
theorem Sound.agrees_of_left (hsound : plan.Sound) (hscalar : Block.All source.program (·.isScalar) source.program.body)
    (hemits : ∀ i < source.launch.primitives.size, ∀ inv, source.Invokes i (.next inv) →
      EmitsCounted plan.config.geometry.maxVerticesOut inv)
    (hstatic : compacts = false → ∀ i < source.launch.primitives.size, ∀ inv, source.Invokes i (.next inv) →
      ∀ m < plan.config.geometry.maxVerticesOut, Emits inv m)
    (hview : plan.Left source view) (hview' : plan.Left source view') :
    plan.Agrees source.launch (plan.exported compacts source.launch view) view' view := by
  have hboth : ∀ p < source.launch.primitives.size, ∃ inv before before', source.Invokes p (.next inv) ∧
      plan.Leaves before view p inv.events ∧ plan.Leaves before' view' p inv.events := by
    intro p hp
    obtain ⟨inv, before, hinv, hleaves⟩ := hview p hp
    obtain ⟨inv', before', hinv', hleaves'⟩ := hview' p hp
    cases hinv.unique hscalar hinv'
    exact ⟨inv, before, before', hinv, hleaves, hleaves'⟩
  refine ⟨fun i hi => ?_, fun i hi hlive => ?_⟩
  · obtain ⟨p, hp, m, hm, rfl⟩ := hsound.exists_placeOf hi
    obtain ⟨inv, before, before', hinv, hleaves, hleaves'⟩ := hboth p hp
    exact hleaves.flags_eq (.refl plan) hleaves' hm ((hemits p hp inv hinv).flags_eq hm)
  · obtain ⟨p, hp, m, hm, rfl⟩ := hsound.exists_placeOf hi
    obtain ⟨inv, before, before', hinv, hleaves, hleaves'⟩ := hboth p hp
    refine hleaves.vertexAt_eq (.refl plan) hleaves' hm ?_
    cases compacts with
    | false => exact hstatic rfl p hp inv hinv m hm
    | true =>
      have hflags : plan.flagsAt view (plan.placeOf p m) ≠ 0 := by
        intro hzero
        simp only [exported, ↓reduceIte, liveAt, hzero, Bool.and_eq_true] at hlive
        exact absurd hlive.2 (by decide)
      rw [hleaves.flags m hm] at hflags
      exact (hemits p hp inv hinv).emits_of_flags hm hflags

/-! ## Two runs -/

/-- The parts of an emitted program: the staged body between two barriers, and the exports behind them. -/
theorem wholeProgram_parts {body : Block} {p p' : Program} (h : plan.wholeProgram compacts body p = .ok (u, p')) :
    ∃ (bar bar' : Value) (p₁ p₂ p₃ : Program), p.Within p₁ ∧ p₁.Within p₂ ∧ p₂.Within p₃ ∧ p₃.Within p' ∧
      plan.stageBody body p₁ = .ok ((), p₂) ∧ plan.finale compacts p₃ = .ok (u, p') ∧
      p₁.instr bar = .ok (.intrinsic .barrier) ∧ p₃.instr bar' = .ok (.intrinsic .barrier) ∧
      p'.body.drop p.body.length = .instr bar ::
        (p₂.body.drop p₁.body.length ++ .instr bar' :: p'.body.drop p₃.body.length) := by
  unfold wholeProgram at h
  obtain ⟨bar, p₁, h₁, hrest, hbody, hbar, hcode⟩ := barrier_bind_eq_ok h
  obtain ⟨⟨⟩, p₂, hstage, hbehind⟩ := bind_eq_ok_iff.mp hbody
  have h₂ := Emit.grows _ hstage
  obtain ⟨bar', p₃, h₃, h₄, hfinale, hbar', hcode'⟩ := barrier_bind_eq_ok hbehind
  refine ⟨bar, bar', p₁, p₂, p₃, h₁.toWithin, h₂.toWithin, h₃.toWithin, h₄.toWithin, hstage, hfinale, hbar, hbar', ?_⟩
  rw [hcode, drop_body_eq h₂ (h₃.trans h₄), hcode']

variable {pc : Nat} {runners runners' : List Runner} {s s' : Shared}

/-- Threads that see what `view` shows export the same in two runs. -/
theorem Ends.finale_twin (h : plan.Ends group) (hcompacts : compacts = true → plan.Compacts)
    (hwaves : group.numWaves ≤ plan.config.maxWaves) (view : Nat → UInt8) {program p p' : Program}
    (hprogram : program.Within p) (hfinale : plan.finale compacts p = .ok (u, p')) (hwithin : p'.Within group.program)
    (hcode : CodeAt group.executable.code pc (Block.code pc (p'.body.drop p.body.length)))
    (hend : group.executable.code.size = pc + (Block.code pc (p'.body.drop p.body.length)).length)
    (hall : group.Complete (runners.map (·.wave))) (hall' : group.Complete (runners'.map (·.wave)))
    (hbeside : List.Forall₂ (Runner.Beside (Wave.Counterpart Workgroup.SameLanes)) runners runners')
    (hlined : ∀ own, ∃ T, Lined ⟨group, own, False⟩ pc (fun _ t =>
      plan.Primed group.launch (plan.exported compacts group.launch view) view t ∧ t.space = none) s T
      (runners.map (·.wave)))
    (hlined' : ∀ own, ∃ T, Lined ⟨group, own, False⟩ pc (fun _ t =>
      plan.Primed group.launch (plan.exported compacts group.launch view) view t ∧ t.space = none) s' T
      (runners'.map (·.wave))) (hs : Workgroup.SameCounts s s') :
    (group.rounds runners s).Twin (fun _ _ => True)
      (fun _ t _ t' => t'.result.finish group.launch.numLanes = t.result.finish group.launch.numLanes)
      (group.rounds runners' s') := by
  have hlanes : 0 < group.launch.numLanes := h.launched.lanes
  obtain ⟨own, hscripts⟩ := h.finale_scripts hcompacts hwaves view
  have hscript := hscripts hprogram (fun T (hT : ∀ i < group.launch.numLanes,
    plan.Delivers group.launch view (plan.exported compacts group.launch view) i (T i)) => hT) u p' hfinale hwithin
  obtain ⟨T, hT⟩ := hlined own
  obtain ⟨T', hT'⟩ := hlined' own
  have htwin := hscript.rounds_twin hlanes hcode hend hall (hbeside.imp fun r r' hr =>
    ⟨hr.budget, hr.wave.1, hr.wave.2 ▸ .refl _ _ _⟩) hT hT' hs
  refine (htwin.and_ensures
    (Workgroup.rounds_of_plays (hscript.plays False) hlanes hcode hend hall hT False.elim (.inl trivial))
    (Workgroup.rounds_of_plays (hscript.plays False) hlanes hcode hend hall' hT' False.elim (.inl trivial))).mono ?_
  rintro _ t _ t' - - ⟨hcounts, ⟨_, U, hU, -, hcrews⟩, _, U', hU', -, hcrews'⟩
  refine Workgroup.finish_eq_of_crews hlanes hcrews hcrews' ?_ (fun i hi => ?_) (fun i hi => ?_)
    (roomy_of_delivers hlanes hU) hcounts
  · rw [(hU 0 hlanes).space rfl, (hU' 0 hlanes).space rfl]
  · rw [(hU i hi).primitives, (hU' i hi).primitives]
  · rw [(hU i hi).vertices, (hU' i hi).vertices]

variable {p p' program : Program} {u : Unit}

/-- Two runs whose threads have come to the end of the body. -/
theorem Suits.finale_twin (h : plan.Suits source group declared faults) (hcompacts : compacts = true → plan.Compacts)
    (hwaves : group.numWaves ≤ plan.config.maxWaves) (hr : plan.flagsRegion 0 = .ok flags)
    (huse : plan.config.geometry.usesStream 0) (hagrees : ∀ view view', plan.Left source view → plan.Left source view' →
      plan.Agrees group.launch (plan.exported compacts group.launch view) view' view)
    (hprogram : program.Within p) (hfinale : plan.finale compacts p = .ok (u, p')) (hwithin : p'.Within group.program)
    (hcode : CodeAt group.executable.code pc (Block.code pc (p'.body.drop p.body.length)))
    (hend : group.executable.code.size = pc + (Block.code pc (p'.body.drop p.body.length)).length)
    (hall : group.Complete (runners.map (·.wave))) (hall' : group.Complete (runners'.map (·.wave)))
    (hbeside : List.Forall₂ (Runner.Beside (Wave.Counterpart Workgroup.SameLanes)) runners runners')
    {T T' : Nat → Nat → Thread}
    (hlined : Lined ⟨group, plan.bodyOwner, faults⟩ pc (fun i t => ∃ before, plan.HasRun source before i t) s T
      (runners.map (·.wave)))
    (hlined' : Lined ⟨group, plan.bodyOwner, faults⟩ pc (fun i t => ∃ before, plan.HasRun source before i t) s' T'
      (runners'.map (·.wave))) (hs : s'.result = s.result) : (group.rounds runners s.meet).Twin (fun _ _ => True)
      (fun _ t _ t' => t'.result.finish group.launch.numLanes = t.result.finish group.launch.numLanes)
      (group.rounds runners' s'.meet) := by
  have hleft : plan.Left source s.memory.byteAt :=
    h.left_of_meet hr huse (fun i hi => Workgroup.lined_promise hall hlined hi)
      fun i hi a ha => Workgroup.lined_view hall hlined hi ha
  have hleft' : plan.Left source s'.memory.byteAt :=
    h.left_of_meet hr huse (fun i hi => Workgroup.lined_promise hall' hlined' hi)
      fun i hi a ha => Workgroup.lined_view hall' hlined' hi ha
  refine h.toEnds.finale_twin hcompacts hwaves s.memory.byteAt hprogram hfinale hwithin hcode hend hall hall' hbeside
    (fun own => ⟨_, .of_faults (Workgroup.lined_meet hlined own fun i hi => ?_)⟩)
    (fun own => ⟨_, .of_faults (Workgroup.lined_meet hlined' own fun i hi => ?_)⟩)
    (.meet (congrArg WorkgroupResult.bare hs))
  · obtain ⟨before, hrun⟩ := Workgroup.lined_promise hall hlined hi
    exact ⟨⟨_, .refl plan _ _ _, hrun.poised.see _⟩, hrun.space⟩
  · obtain ⟨before, hrun⟩ := Workgroup.lined_promise hall' hlined' hi
    exact ⟨⟨_, hagrees _ _ hleft hleft', hrun.poised.see _⟩, hrun.space⟩

/-- A thread at its start, whatever it finds in memory. -/
def Starts (program : Program) : Promise := fun _ t => ∃ view, t = Thread.start program view

theorem starts_of_meet {T : Nat → Nat → Thread} {own own' : Ownership} (hall : group.Complete (runners.map (·.wave)))
    (h : Lined ⟨group, own, faults⟩ pc (Starts group.program) s T (runners.map (·.wave))) :
    Lined ⟨group, own', faults⟩ pc (Starts group.program) s.meet (fun id l => (T id l).see s.memory.byteAt)
      (runners.map (·.wave)) := by
  refine Workgroup.lined_meet h own' fun i hi => ?_
  obtain ⟨view, hview⟩ := Workgroup.lined_promise hall h hi
  exact ⟨s.memory.byteAt, by rw [hview]; rfl⟩

theorem Suits.brings_stageBody (h : plan.Suits source group declared faults) (hw : declared.Within p)
    (hstage : plan.stageBody source.program.body p = .ok (u, p')) (hwithin : p'.Within group.program) {id : Nat}
    (hid : id < group.numWaves) (hT : Setting.Keeps ⟨group, plan.bodyOwner, faults⟩ id (Starts group.program) T) :
    Block.Brings ⟨group, plan.bodyOwner, faults⟩ id (p'.body.drop p.body.length)
      (Setting.Keeps ⟨group, plan.bodyOwner, faults⟩ id fun i t => ∃ before, plan.HasRun source before i t) T := by
  refine Brings.each (B := fun l _ _ t => ∃ before, plan.HasRun source before (Setting.index ⟨group, _, _⟩ id l) t)
    h.fits hid (fun l hl => ?_) (fun _ _ _ hall => hall) u p' hstage hwithin
  obtain ⟨view, hview⟩ := hT l hl
  rw [hview]
  exact wp_mono (h.wp_stageBody hw view) (fun _ _ _ hrun => ⟨view, hrun⟩) fun _ hfault => hfault

/-- A body that loads nothing, between two barriers: nothing is loaded up to the second of them. -/
theorem loadsSame_front {bar bar' : Value} {block rest : Block}
    (hcode : group.executable.code = (Block.code 0 (.instr bar :: (block ++ .instr bar' :: rest))).toArray)
    (hbar : group.program.instr bar = .ok (.intrinsic .barrier))
    (hbar' : group.program.instr bar' = .ok (.intrinsic .barrier)) (hstaging : Block.Staging group.program block) :
    (group.cut 1).LoadsSame False ∧ (group.cut (1 + (Block.code 1 block).length + 1)).LoadsSame False := by
  have hfront : Block.Staging group.program (.instr bar :: (block ++ [.instr bar'])) :=
    .append (.instr hbar rfl) (.append hstaging (.instr hbar' rfl))
  have hlength : (Block.code 0 (.instr bar :: (block ++ [.instr bar']))).length =
      1 + (Block.code 1 block).length + 1 := by
    simp only [Block.code, Block.code_append, Node.code, List.length_append, List.length_cons, List.length_nil,
      Nat.zero_add]
    omega
  exact ⟨(Block.Staging.instr hbar rfl).loadsSame hcode, hlength ▸ hfront.loadsSame (by simpa using hcode)⟩

theorem Suits.rounds_twin (h : plan.Suits source group declared faults) (hcompacts : compacts = true → plan.Compacts)
    (hwaves : group.numWaves ≤ plan.config.maxWaves) (hr : plan.flagsRegion 0 = .ok flags)
    (huse : plan.config.geometry.usesStream 0) (hscalar : Block.All source.program (·.isScalar) source.program.body)
    (hagrees : ∀ view view', plan.Left source view → plan.Left source view' →
      plan.Agrees group.launch (plan.exported compacts group.launch view) view' view)
    (hemits : plan.wholeProgram compacts source.program.body { declared with body := [] } = .ok (u, p'))
    (hwithin : p'.Within group.program) (hcode : group.executable.code = (Block.code 0 p'.body).toArray)
    (hall : group.Complete (runners.map (·.wave)))
    (hstart : ∀ r ∈ runners, r.wave = Wave.start group r.wave.id) {m m' : SharedMemory}
    (hm : m.sync.SameShare group.program.sharedSize False m'.sync) :
    (group.rounds runners { memory := m.sync }).Twin (fun _ _ => True)
      (fun _ t _ t' => t'.result.finish group.launch.numLanes = t.result.finish group.launch.numLanes)
      (group.rounds runners { memory := m'.sync }) := by
  have hlanes : 0 < group.launch.numLanes := h.launched.lanes
  obtain ⟨bar, bar', p₁, p₂, p₃, h₁, h₂, h₃, h₄, hstage, hfinale, hbar, hbar', hbody⟩ := wholeProgram_parts hemits
  obtain ⟨block, hblock⟩ : ∃ block : Block, block = p₂.body.drop p₁.body.length := ⟨_, rfl⟩
  obtain ⟨rest, hrest⟩ : ∃ rest : Block, rest = p'.body.drop p₃.body.length := ⟨_, rfl⟩
  rw [List.length_nil, List.drop_zero, ← hblock, ← hrest] at hbody
  rw [hbody] at hcode
  have hw₁ : declared.Within p₁ := ⟨h₁.definitions, h₁.vars⟩
  have hsource₁ : source.program.Within p₁ := h.keeps.grows.toWithin.trans hw₁
  have hgroup₃ : p₃.Within group.program := h₄.trans hwithin
  have hgroup₂ : p₂.Within group.program := h₃.trans hgroup₃
  have hbar₁ : group.program.instr bar = .ok (.intrinsic .barrier) := (h₂.trans hgroup₂).instr_eq hbar
  have hbar₂ : group.program.instr bar' = .ok (.intrinsic .barrier) := hgroup₃.instr_eq hbar'
  have hsteady : Steady source.program false (plan.stageBody source.program.body) :=
    steady_stageBody h.valid fun _ => h.plain
  have hstaging : Block.Staging group.program block :=
    hblock ▸ (staging_stageBody h.valid hscalar hsource₁ hstage).within hgroup₂
  have hnoBarrier : Block.NoBarrier group.program block := hblock ▸ Plays.noBarrier hsource₁ hstage hgroup₂
  obtain ⟨hload₁, hload₂⟩ := loadsSame_front hcode hbar₁ hbar₂ hstaging
  have hcode₀ : CodeAt group.executable.code 0 (Block.code 0 ([] ++ .instr bar :: (block ++ .instr bar' :: rest))) :=
    ⟨[], [], by simp [hcode], rfl⟩
  have hend₀ : group.executable.code.size =
      0 + (Block.code 0 ([] ++ .instr bar :: (block ++ .instr bar' :: rest))).length := by simp [hcode]
  obtain ⟨-, hcode₁, hend₁⟩ := Workgroup.codeAt_barrier hcode₀ hend₀
  obtain ⟨-, hcode₂, hend₂⟩ := Workgroup.codeAt_barrier hcode₁ hend₁
  have hlined (m : SharedMemory) (hshare : group.program.sharedSize ≤ m.sync.cells.size) :
      Lined ⟨group, fun _ => none, faults⟩ 0 (Starts group.program) { memory := m.sync }
        (fun _ _ => Thread.start group.program m.sync.byteAt) (runners.map (·.wave)) :=
    Workgroup.lined_start hstart (SharedMemory.obeys_sync _ _ _) hshare fun _ _ => ⟨_, rfl⟩
  refine Workgroup.rounds_twin_of_unread (c := ⟨group, fun _ => none, faults⟩) (Starts group.program)
    (fun id hid T hT => .nil hT) nofun hbar₁ hload₁ hlanes hcode₀ hend₀ hall
    (List.forall₂_same.mpr fun r _ => ⟨rfl, rfl, rfl⟩) (hlined m hm.room) (hlined m' hm.room') ⟨hm, rfl⟩
    fun runners₁ runners₁' s₁ s₁' U U' hall₁ hall₁' hbeside₁ hU hU' hs₁ => ?_
  refine Workgroup.rounds_twin_of_unread (c := ⟨group, plan.bodyOwner, faults⟩)
    (fun i t => ∃ before, plan.HasRun source before i t)
    (fun id hid T hT => hblock ▸ h.brings_stageBody hw₁ hstage hgroup₂ hid hT) hnoBarrier hbar₂ hload₂ hlanes hcode₁
    hend₁ hall₁ hbeside₁ (starts_of_meet hall₁ hU) (starts_of_meet hall₁' hU') hs₁.meet
    fun runners₂ runners₂' s₂ s₂' V V' hall₂ hall₂' hbeside₂ hV hV' hs₂ => ?_
  exact h.finale_twin hcompacts hwaves hr huse hagrees (hsource₁.trans (h₂.trans h₃)) hfinale hwithin
    (hrest ▸ hcode₂) (hrest ▸ hend₂) hall₂ hall₂' hbeside₂ hV hV' hs₂.result

end GeometryPlan

end Lowering

/-! ## Sessions -/

namespace ComputeUnit

/-- A unit of the same kind, whatever is in its memory. -/
structure SameKind (unit unit' : ComputeUnit) : Prop where
  wave : unit'.wave = unit.wave
  schedule : unit'.schedule = unit.schedule
  stepLimit : unit'.stepLimit = unit.stepLimit

variable {unit unit' fresh : ComputeUnit} {executable : Executable} {launch : Launch}

theorem SameKind.trans {unit'' : ComputeUnit} (h : unit.SameKind unit') (h' : unit'.SameKind unit'') :
    unit.SameKind unit'' :=
  ⟨h'.wave.trans h.wave, h'.schedule.trans h.schedule, h'.stepLimit.trans h.stepLimit⟩

/-- A launch makes the same workgroup on units of the same kind. -/
theorem SameKind.workgroup_eq (h : unit.SameKind unit') (executable : Executable) (launch : Launch) :
    unit'.workgroup executable launch = unit.workgroup executable launch := by
  unfold workgroup
  rw [h.wave]

/-- A run changes nothing but the memory. -/
theorem sameKind_of_run (h : (run executable launch unit).state? = some unit') : unit.SameKind unit' := by
  unfold run at h
  cases hvalid : launch.validate unit.wave with
  | error cause =>
    rw [hvalid] at h
    cases h
    exact ⟨rfl, rfl, rfl⟩
  | ok u =>
    rw [hvalid] at h
    dsimp only at h
    split at h <;> cases h <;> exact ⟨rfl, rfl, rfl⟩

/-- The answers of launches one after the other on one unit, which keeps what they leave in memory. A fault is the
last answer. -/
def session : List (Executable × Launch) → ComputeUnit → List (Except Fault (Except RunError WorkgroupResult))
  | [], _ => []
  | (executable, launch) :: rest, unit =>
    let outcome := run executable launch unit
    outcome.answer :: outcome.state?.elim [] (session rest)

/-- Answers up to the first fault. -/
def untilFault {α : Type} : List (Except Fault α) → List (Except Fault α)
  | [] => []
  | .ok a :: rest => .ok a :: untilFault rest
  | .error fault :: _ => [.error fault]

/-- Launches that do not see what is in memory do not see what the launches before them have left there. -/
theorem session_eq_of_answer_eq {jobs : List (Executable × Launch)} (hkind : fresh.SameKind unit)
    (h : ∀ job ∈ jobs, ∀ unit, fresh.SameKind unit → (run job.1 job.2 unit).answer = (run job.1 job.2 fresh).answer) :
    session jobs unit = untilFault (jobs.map fun job => (run job.1 job.2 fresh).answer) := by
  induction jobs generalizing unit with
  | nil => rfl
  | cons job rest ih =>
    obtain ⟨executable, launch⟩ := job
    have hjob := h (executable, launch) List.mem_cons_self unit hkind
    have hrest (unit' : ComputeUnit) (hunit' : (run executable launch unit).state? = some unit') :
        session rest unit' = untilFault (rest.map fun job => (run job.1 job.2 fresh).answer) := by
      exact ih (hkind.trans (sameKind_of_run hunit')) fun job hmem => h job (List.mem_cons_of_mem _ hmem)
    simp only [session, List.map_cons]
    rw [← hjob]
    cases hrun : run executable launch unit with
    | done result unit' => exact congrArg _ (hrest unit' (by rw [hrun]; rfl))
    | failed error unit' => exact congrArg _ (hrest unit' (by rw [hrun]; rfl))
    | faulted fault => rfl

end ComputeUnit

namespace Lowering

/-- A launch of a lowered geometry program does not see what is in memory, if its invocations state how many vertices
they emit and emit them all. -/
theorem LowersGeometry.answer_run_eq {config : Config} {program declared lowered : Program} {survey : Survey}
    {plan : GeometryPlan} (h : LowersGeometry config program survey plan declared lowered)
    (hscalar : Block.All program (·.isScalar) program.body) {unit unit' : ComputeUnit} (hkind : unit.SameKind unit')
    (hwave : unit.wave = config.wave) {launch : Launch} (hlanes : launch.numLanes ≤ config.maxWorkgroupSize)
    (hprimitives : launch.primitives.size ≤ config.geometry.maxInputPrimitives)
    (hemits : ∀ p < launch.primitives.size, ∀ inv, (unit.workgroup ⟨program, #[]⟩ launch).Invokes p (.next inv) →
      EmitsCounted config.geometry.maxVerticesOut inv) : (ComputeUnit.run (executable lowered) launch unit').answer =
      (ComputeUnit.run (executable lowered) launch unit).answer := by
  refine ComputeUnit.answer_run_eq hkind.wave hkind.schedule hkind.stepLimit fun hvalid => ?_
  have hplain : Block.All program (·.isPlain) program.body :=
    fun v hv i hi => isPlain_of_isScalar (hscalar v hv i hi)
  have hsuits := h.suits hplain hvalid hprimitives fun _ _ _ _ => trivial
  have hsound := GeometryPlan.sound_of_makePlan h.accepted h.surveyed h.planned
  obtain ⟨flags, hflags⟩ := GeometryPlan.exists_flagsRegion h.accepted h.planned h.accepted.stream
  obtain ⟨emitted, hwhole, hlowered⟩ := h.emits
  obtain rfl := h.config_eq
  have hmax : (UInt64.ofNat plan.config.geometry.maxVerticesOut).toNat = plan.config.geometry.maxVerticesOut :=
    UInt64.toNat_ofNat_of_lt' (Nat.lt_trans (hsound.maxVertices_lt h.accepted.primitives) (by decide))
  have hall (hstatic : survey.needsCompaction plan.config.geometry = false) : ∀ p < launch.primitives.size, ∀ inv,
      (unit.workgroup ⟨program, #[]⟩ launch).Invokes p (.next inv) →
        ∀ m < plan.config.geometry.maxVerticesOut, Emits inv m := by
    refine fun p hp inv hinv m hm => (hemits p hp inv hinv).emits (fun vertices primitives hcounts => ?_) hm
    exact Nat.le_of_eq (by rw [h.counts_eq_maximum hstatic rfl hinv hcounts, hmax])
  exact Workgroup.answer_complete_eq (hsuits.rounds_twin
    (fun hcompacts => GeometryPlan.compacts_of_makePlan h.accepted h.planned hcompacts)
    (h.numWaves_le hwave hlanes) hflags h.accepted.stream hscalar
    (fun view view' => hsound.agrees_of_left hscalar hemits hall) hwhole
    (hlowered ▸ .same) (by rw [hlowered]; rfl)
    (Workgroup.complete_runners _ unit.schedule unit.stepLimit) (fun _ => ComputeUnit.wave_of_mem_runners)
    (ComputeUnit.startMemory_sameShare False.elim))

/-- A launch of a geometry program that was lowered, within the limits that it was lowered for. Each invocation states
a number of vertices and emits all vertices below it. -/
structure CountedLaunch (config : Config) (program : Program) (executable : Executable) (launch : Launch) : Prop where
  lowers : ∃ result report, lowerGeometry config program = .ok result ∧ result.outcome = .ok report ∧
    result.program.toExecutable = .ok (.ok executable)
  scalar : Block.All program (·.isScalar) program.body
  lanes : launch.numLanes ≤ config.maxWorkgroupSize
  primitives : launch.primitives.size ≤ config.geometry.maxInputPrimitives
  emits : ∀ p < launch.primitives.size, ∀ inv,
    (Workgroup.mk ⟨program, #[]⟩ launch config.wave).Invokes p (.next inv) →
      EmitsCounted config.geometry.maxVerticesOut inv

/-- Stale memory does not leak into a geometry workgroup: its answer is the same whatever is in memory. So the answers
of a session are those of fresh units, launch by launch. -/
theorem session_geometry_eq_fresh {jobs : List (Executable × Launch)} {fresh : ComputeUnit}
    (hjobs : ∀ job ∈ jobs, ∃ config program, fresh.wave = config.wave ∧ CountedLaunch config program job.1 job.2) :
    (∀ job ∈ jobs, ∀ unit, fresh.SameKind unit →
      (ComputeUnit.run job.1 job.2 unit).answer = (ComputeUnit.run job.1 job.2 fresh).answer) ∧
    ∀ unit, fresh.SameKind unit → unit.session jobs =
        ComputeUnit.untilFault (jobs.map fun job => (ComputeUnit.run job.1 job.2 fresh).answer) := by
  have hanswer : ∀ job ∈ jobs, ∀ unit, fresh.SameKind unit →
      (ComputeUnit.run job.1 job.2 unit).answer = (ComputeUnit.run job.1 job.2 fresh).answer := by
    rintro ⟨executable, launch⟩ hjob unit hkind
    obtain ⟨config, program, hwave, hcounted⟩ := hjobs _ hjob
    obtain ⟨result, report, hlower, hok, hexec⟩ := hcounted.lowers
    obtain ⟨survey, plan, declared, h, -⟩ := lowerGeometry_eq_ok hlower hok
    obtain ⟨rfl, -⟩ := Program.toExecutable_eq_ok hexec
    refine h.answer_run_eq hcounted.scalar hkind hwave hcounted.lanes hcounted.primitives fun p hp inv hinv => ?_
    unfold ComputeUnit.workgroup at hinv
    rw [hwave] at hinv
    exact hcounted.emits p hp inv hinv
  exact ⟨hanswer, fun unit hkind => ComputeUnit.session_eq_of_answer_eq hkind hanswer⟩

/-- An invocation that emits its vertices one by one and then states their number. -/
theorem EmitsStrips.counted {limit : Nat} {inv : Invocation} {vertices : List StripVertex}
    (h : EmitsStrips limit inv vertices) : EmitsCounted limit inv := by
  obtain ⟨primitives, hevents⟩ := h.events
  have hmem {event : GeometryEvent}
      (he : event ∈ stripEvents vertices ++ [.counts 0 (.ofNat vertices.length) primitives]) : event ∈ inv.events :=
    (List.mem_filter.mp (hevents ▸ he)).1
  refine ⟨_, primitives, hmem (List.mem_append_right _ (List.mem_singleton_self _)), fun m hm => ?_⟩
  rw [UInt64.toNat_ofNat'] at hm
  have hlt : m < vertices.length := Nat.lt_of_lt_of_le (Nat.lt_min.mp hm).1 (Nat.mod_le _ _)
  refine ⟨.ofNat m, vertices[m].before, vertices[m].outputs, hmem (List.mem_append_left _ ?_), ?_⟩
  · exact List.mem_mapIdx.mpr ⟨m, hlt, rfl⟩
  · exact UInt64.toNat_ofNat_of_lt' (Nat.lt_trans (Nat.lt_min.mp hm).1 (Nat.mod_lt _ (by decide)))

/-- The same launch twice, on a unit with another fill. -/
theorem session_geometry_eq_fresh_uneven :
    ∃ result report, lowerGeometry {} unevenProgram = .ok result ∧ result.outcome = .ok report ∧
      ∃ executable, result.program.toExecutable = .ok (.ok executable) ∧
        ComputeUnit.session [(executable, eightLanes), (executable, eightLanes)]
            { reverseUnit with memory := { fill := 255 } } =
          ComputeUnit.untilFault [(ComputeUnit.run executable eightLanes reverseUnit).answer,
            (ComputeUnit.run executable eightLanes reverseUnit).answer] := by
  obtain ⟨result, report, hlower, hok⟩ := lowers_unevenProgram
  obtain ⟨survey, plan, declared, h, -⟩ := lowerGeometry_eq_ok hlower hok
  have hscalar : Block.All unevenProgram (·.isScalar) unevenProgram.body :=
    fun v hv i hi => (all_unevenProgram v hv i hi).1
  have hexec := h.toExecutable
  have hcounted : CountedLaunch {} unevenProgram (LowersGeometry.executable result.program) eightLanes := by
    refine ⟨⟨result, report, hlower, hok, hexec⟩, hscalar, by decide, by decide, fun p hp inv hinv => ?_⟩
    obtain ⟨inv', heq, hemits⟩ := ends_unevenProgram hp hinv
    cases heq
    exact hemits.counted
  refine ⟨result, report, hlower, hok, _, hexec, (session_geometry_eq_fresh fun job hjob => ?_).2 _ ⟨rfl, rfl, rfl⟩⟩
  obtain rfl : job = (LowersGeometry.executable result.program, eightLanes) := by simpa using hjob
  exact ⟨{}, unevenProgram, rfl, hcounted⟩

end Lowering

end PrimitiveShader
