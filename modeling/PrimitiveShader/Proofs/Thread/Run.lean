import PrimitiveShader.Proofs.Thread.Epoch
import PrimitiveShader.Proofs.Validity

/-!
# Whole runs of a workgroup

A run begins with threads that know the memory they find and have done nothing. If the waves can run
the program from barrier to barrier, and in the end the first lane has asked for enough space, then
the run succeeds with the exports of all threads in the order of their lanes, unless the step limit
is hit or a fault that is admitted occurs (`ComputeUnit.run_of_plays`).
-/

namespace PrimitiveShader

/-- A thread before its first instruction. -/
def Thread.start (program : Program) (view : Nat → UInt8) : Thread where
  lane := Lane.start program
  view := view
  primitives := []
  vertices := []
  space := none

/-- The exports of all lanes, in their order. -/
def lanewise {α : Type} (numLanes : Nat) (exports : Nat → List α) : Array (Nat × α) :=
  ((List.range numLanes).flatMap fun i => (exports i).map (i, ·)).toArray

variable {numLanes : Nat} {α : Type} {exports : Nat → List α}

theorem inLaneOrder_eq_lanewise {a : Array (Nat × α)} (h : ∀ i < numLanes, exportsOf a i = (exports i).map (i, ·)) :
    inLaneOrder numLanes a = lanewise numLanes exports := by
  unfold inLaneOrder lanewise
  rw [List.flatMap_def, List.flatMap_def, List.map_congr_left]
  exact fun i hi => h i (List.mem_range.mp hi)

theorem lanewise_congr {exports' : Nat → List α}
    (h : ∀ i < numLanes, exports' i = exports i) : lanewise numLanes exports' = lanewise numLanes exports := by
  unfold lanewise
  rw [List.flatMap_def, List.flatMap_def, List.map_congr_left]
  exact fun i hi => by rw [h i (List.mem_range.mp hi)]

theorem mem_lanewise {i : Nat} {x : α} : (i, x) ∈ lanewise numLanes exports ↔ i < numLanes ∧ x ∈ exports i := by
  simp [lanewise]

/-- One export from each of the first lanes. -/
theorem lanewise_singletons {m : Nat} (h : m ≤ numLanes) {f : Nat → α} (hfirst : ∀ i < m, exports i = [f i])
    (hrest : ∀ i < numLanes, m ≤ i → exports i = []) :
    lanewise numLanes exports = ((List.range m).map fun i => (i, f i)).toArray := by
  obtain ⟨k, rfl⟩ := Nat.exists_eq_add_of_le h
  have hfirst' : ((List.range m).map fun i => (exports i).map (i, ·)) = (List.range m).map fun i => [(i, f i)] :=
    List.map_congr_left fun i hi => by rw [hfirst i (List.mem_range.mp hi), List.map_singleton]
  have hrest' : (((List.range k).map (m + ·)).flatMap fun i => (exports i).map (i, ·)) = [] := by
    rw [List.flatMap_eq_nil_iff]
    intro i hi
    obtain ⟨j, hj, rfl⟩ := List.mem_map.mp hi
    have := List.mem_range.mp hj
    rw [hrest (m + j) (by omega) (by omega), List.map_nil]
  rw [lanewise, List.range_add, List.flatMap_append, hrest', List.append_nil, List.flatMap_def, hfirst',
    ← List.flatMap_def, ← List.map_eq_flatMap]

/-- The exports fit the space that was asked for. -/
theorem WorkgroupResult.finish_eq_ok {r : WorkgroupResult} {space : Allocation}
    {primitives : Nat → List ExportWord} {vertices : Nat → List (SlotTable UInt64)} (hspace : r.allocation = some space)
    (hp : ∀ i < numLanes, exportsOf r.primitives i = (primitives i).map (i, ·))
    (hv : ∀ i < numLanes, exportsOf r.vertices i = (vertices i).map (i, ·))
    (hpfit : ∀ i < numLanes, primitives i ≠ [] → i < space.primitives)
    (hvfit : ∀ i < numLanes, vertices i ≠ [] → i < space.vertices) : r.finish numLanes = .ok { r with
      primitives := lanewise numLanes primitives, vertices := lanewise numLanes vertices } := by
  unfold WorkgroupResult.finish
  have hfind {α : Type} {exports : Nat → List α} {limit : Nat} (hfit : ∀ i < numLanes, exports i ≠ [] → i < limit)
      {beyond : Nat × α → Bool} (hbeyond : ∀ x, beyond x = decide (limit ≤ x.1)) :
      (lanewise numLanes exports).find? beyond = none := by
    rw [Array.find?_eq_none]
    rintro ⟨i, x⟩ hx
    obtain ⟨hi, hmem⟩ := mem_lanewise.mp hx
    have := hfit i hi (List.ne_nil_of_mem hmem)
    simp only [hbeyond, decide_eq_true_eq]
    omega
  simp only [hspace, Option.isNone_some, Bool.and_false, Bool.false_eq_true, ↓reduceIte,
    Option.getD_some, inLaneOrder_eq_lanewise hp, inLaneOrder_eq_lanewise hv, hfind hpfit fun _ => rfl,
    hfind hvfit fun _ => rfl]
  rfl

namespace Workgroup

variable {group : Workgroup} {faults : Prop} {own : Ownership} {pre : Promise} {memory : SharedMemory}

/-- The threads of a wave before their first instruction. -/
theorem crew_start (own : Ownership) (id : Nat)
    (hobeys : memory.Obeys own group.wave.size) (hshare : group.program.sharedSize ≤ memory.cells.size) :
    Crew ⟨group, own, faults⟩ id (Wave.start group id).lanes { memory }
      fun _ => Thread.start group.program memory.byteAt where
  count := by simp [Wave.start]
  lane l hl := by
    have hlt : l < group.wave.size := hl
    simp [Wave.start, Thread.start, hlt]
  sized _ _ := Lane.Sized.start _
  view _ _ _ _ := rfl
  primitives _ _ := rfl
  vertices _ _ := rfl
  space _ := rfl
  obeys := hobeys
  share := hshare

/-- All waves take part, whatever the schedule. -/
theorem complete_runners (group : Workgroup) (schedule : Schedule) (stepLimit : Nat) :
    group.Complete ((group.runners schedule stepLimit).map (·.wave)) := by
  have hforward : group.Complete ((group.runners .forward stepLimit).map (·.wave)) := by
    have hids : ((group.runners .forward stepLimit).map (·.wave)).map (·.id) = List.range group.numWaves := by
      simp [runners, Schedule.order, Function.comp_def, Wave.start]
    exact ⟨hids ▸ List.nodup_range, fun id => by rw [hids, List.mem_range]⟩
  cases schedule with
  | forward => exact hforward
  | reverse =>
    have hrev : group.runners .reverse stepLimit = (group.runners .forward stepLimit).reverse := rfl
    refine ⟨?_, fun id => ?_⟩
    · rw [hrev, List.map_reverse, List.map_reverse]
      exact List.pairwise_reverse.mpr (hforward.nodup.imp Ne.symm)
    · rw [hrev, List.map_reverse, List.map_reverse, List.mem_reverse]
      exact hforward.mem id

/-- The exports of all threads fit the space that the first thread has asked for. -/
def Roomy (group : Workgroup) (T : Nat → Thread) : Prop :=
  ∃ space, (T 0).space = some space ∧ ∀ i < group.launch.numLanes,
    ((T i).primitives ≠ [] → i < space.primitives) ∧ ((T i).vertices ≠ [] → i < space.vertices)

/-- A result that consists of what the threads have exported and asked for, and of the barriers of the program. -/
structure Gathers (group : Workgroup) (T : Nat → Thread) (result : WorkgroupResult) : Prop where
  allocation : result.allocation = (T 0).space
  primitives : result.primitives = lanewise group.launch.numLanes fun i => (T i).primitives
  vertices : result.vertices = lanewise group.launch.numLanes fun i => (T i).vertices
  barriers : result.barriers = Block.barriers group.program group.program.body

/-- What is in the result of a workgroup is what its threads have asked for and exported. -/
theorem result_of_crews {s : Shared} {T : Nat → Nat → Thread} (hlanes : 0 < group.launch.numLanes)
    (hT : ∀ id < group.numWaves, ∃ lanes, Crew ⟨group, own, faults⟩ id lanes s (T id)) :
    s.result.allocation = (group.thread T 0).space ∧
      (∀ i < group.launch.numLanes, exportsOf s.result.primitives i = (group.thread T i).primitives.map (i, ·)) ∧
      ∀ i < group.launch.numLanes, exportsOf s.result.vertices i = (group.thread T i).vertices.map (i, ·) := by
  have hpos := group.wave_size_pos
  refine ⟨?_, fun i hi => ?_, fun i hi => ?_⟩
  · have hzero : group.thread T 0 = T 0 0 := by simp [thread]
    rw [hzero]
    exact (hT 0 (by simpa using wave_lt hlanes)).elim fun _ h => h.space rfl
  · obtain ⟨lanes, hcrew⟩ := hT _ (wave_lt hi)
    have := hcrew.primitives (i % group.wave.size) (Nat.mod_lt _ hpos)
    rwa [index_div_mod] at this
  · obtain ⟨lanes, hcrew⟩ := hT _ (wave_lt hi)
    have := hcrew.vertices (i % group.wave.size) (Nat.mod_lt _ hpos)
    rwa [index_div_mod] at this

/-- All waves stand at the start of the program. -/
theorem lined_start {runners : List Runner} (hstart : ∀ r ∈ runners, r.wave = Wave.start group r.wave.id)
    (hobeys : memory.Obeys own group.wave.size) (hshare : group.program.sharedSize ≤ memory.cells.size)
    (hpre : ∀ i < group.launch.numLanes, pre i (Thread.start group.program memory.byteAt)) :
    Lined ⟨group, own, faults⟩ 0 pre { memory } (fun _ _ => Thread.start group.program memory.byteAt)
      (runners.map (·.wave)) := by
  intro w hw
  obtain ⟨r, hr, rfl⟩ := List.mem_map.mp hw
  exact ⟨_, hstart r hr, crew_start own _ hobeys hshare, fun l hl => hpre _ (Setting.mem_launched.mp hl).2⟩

/-- What the workgroup has produced, as the threads see it. -/
theorem complete_of_plays {goal : (Nat → Thread) → Prop} (runners : List Runner) (memory : SharedMemory)
    (h : group.Plays faults goal own pre group.program.body)
    (hfew : Block.barriers group.program group.program.body ≤ Shared.maxBarriers)
    (hcode : group.executable.code = (Block.code 0 group.program.body).toArray)
    (hlanes : 0 < group.launch.numLanes) (hall : group.Complete (runners.map (·.wave)))
    (hstart : ∀ r ∈ runners, r.wave = Wave.start group r.wave.id)
    (hobeys : memory.Obeys own group.wave.size) (hshare : group.program.sharedSize ≤ memory.cells.size)
    (hpre : ∀ i < group.launch.numLanes, pre i (Thread.start group.program memory.byteAt))
    (hroomy : ∀ T, goal T → group.Roomy T) : (group.complete runners memory).Ensures faults fun result _ =>
      ∃ T, goal T ∧ group.Gathers T result := by
  have hcodeAt : CodeAt group.executable.code 0 (Block.code 0 group.program.body) :=
    ⟨[], [], by simp [hcode], rfl⟩
  have hrounds := rounds_of_plays h hlanes hcodeAt (by simp [hcode]) hall (lined_start hstart hobeys hshare hpre) id
    (.inr (by simpa using hfew))
  unfold complete
  cases hr : group.rounds runners { memory } with
  | faulted fault =>
    rw [hr] at hrounds
    exact hrounds
  | failed error s =>
    rw [hr] at hrounds
    cases error <;> exact hrounds
  | done u s =>
    rw [hr] at hrounds
    obtain ⟨own', T, hgoal, hbarriers, hT⟩ := hrounds
    obtain ⟨space, hspace, hfits⟩ := hroomy _ hgoal
    obtain ⟨halloc, hprimitives, hvertices⟩ := result_of_crews hlanes hT
    have hfinish := WorkgroupResult.finish_eq_ok (halloc.trans hspace) hprimitives hvertices
      (fun i hi => (hfits i hi).1) fun i hi => (hfits i hi).2
    simp only [hfinish]
    exact ⟨group.thread T, hgoal, halloc, rfl, rfl, hbarriers.trans (Nat.zero_add _)⟩

end Workgroup

namespace ComputeUnit

variable {unit : ComputeUnit} {executable : Executable} {launch : Launch}

/-- All waves begin at the start of the program. -/
theorem wave_of_mem_runners {r : Runner}
    (hr : r ∈ (unit.workgroup executable launch).runners unit.schedule unit.stepLimit) :
    r.wave = Wave.start (unit.workgroup executable launch) r.wave.id := by
  have hmem : r ∈ (List.range (unit.workgroup executable launch).numWaves).map fun id =>
      (⟨Wave.start (unit.workgroup executable launch) id, unit.stepLimit⟩ : Runner) := by
    cases hs : unit.schedule with
    | forward =>
      rw [hs] at hr
      exact hr
    | reverse =>
      rw [hs] at hr
      exact List.mem_reverse.mp hr
  obtain ⟨id, -, rfl⟩ := List.mem_map.mp hmem
  rfl

/-- A launch finds all the memory that its program asks for. -/
theorem share_startMemory (executable : Executable) (unit : ComputeUnit) :
    executable.program.sharedSize ≤ (unit.startMemory executable).cells.size := by
  change executable.program.sharedSize ≤ (unit.memory.reserve executable.program.sharedSize).cells.size
  rw [SharedMemory.size_reserve]
  omega

/-- A run whose waves can run the program from barrier to barrier. -/
theorem run_of_plays {faults : Prop} {goal : (Nat → Thread) → Prop} {own : Ownership} {pre : Promise}
    (hvalid : launch.validate unit.wave = .ok ())
    (hcode : executable.code = (Block.code 0 executable.program.body).toArray)
    (h : (unit.workgroup executable launch).Plays faults goal own pre executable.program.body)
    (hfew : Block.barriers executable.program executable.program.body ≤ Shared.maxBarriers)
    (hpre : ∀ i < launch.numLanes, pre i (Thread.start executable.program (unit.startMemory executable).byteAt))
    (hroomy : ∀ T, goal T → (unit.workgroup executable launch).Roomy T) :
    (run executable launch unit).Ensures faults fun result _ =>
      ∃ T, goal T ∧ (unit.workgroup executable launch).Gathers T result := by
  have hlanes : 0 < launch.numLanes := (Launch.valid_of_validate hvalid).lanes
  have hcomplete := Workgroup.complete_of_plays
    ((unit.workgroup executable launch).runners unit.schedule unit.stepLimit)
    (unit.startMemory executable) h hfew hcode hlanes
    (Workgroup.complete_runners _ unit.schedule unit.stepLimit) (fun _ => wave_of_mem_runners)
    (SharedMemory.obeys_sync own _ _) (share_startMemory executable unit) hpre hroomy
  unfold run
  rw [hvalid]
  dsimp only
  cases hrun : (unit.workgroup executable launch).complete
      ((unit.workgroup executable launch).runners unit.schedule unit.stepLimit) (unit.startMemory executable) with
  | done result memory =>
    rw [hrun] at hcomplete
    exact hcomplete
  | failed error memory =>
    rw [hrun] at hcomplete
    cases error <;> exact hcomplete
  | faulted fault =>
    rw [hrun] at hcomplete
    exact hcomplete

end ComputeUnit

end PrimitiveShader
