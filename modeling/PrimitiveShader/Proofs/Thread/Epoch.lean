import Mathlib.Data.List.Nodup
import PrimitiveShader.Proofs.Emission.Growth
import PrimitiveShader.Proofs.Schedule.Independence
import PrimitiveShader.Proofs.Thread.Team
import PrimitiveShader.Proofs.Wave.Flattening

/-!
# Workgroups from barrier to barrier

Between two barriers the waves of a workgroup run the same block, one after the other. What a wave
establishes stays true while the others take their turns, since each byte has at most one writer.
At the barrier all threads learn the contents of the whole memory, and the bytes get new owners.
`Workgroup.Plays` splits a program at its barriers in that way, and `Workgroup.rounds_of_plays` says
that the rounds of the workgroup end as promised.

`Block.Carries` says what a wave has after a block that all of its lanes run through together, and which
errors and faults the block may end with instead. `Workgroup.Leads` says it of a wave's turn, and
`Workgroup.sweeping_ends` of a whole sweep.
-/

namespace PrimitiveShader

variable {s : Shared} {c : Setting}

/-- A wave that stands at operation `pc` outside of all branches and loops. -/
def Workgroup.standing (group : Workgroup) (id pc : Nat) (lanes : Array Lane) : Wave :=
  { Wave.start group id with pc, lanes }

/-- Only lanes of the wave are switched on. -/
theorem Workgroup.below_standing (group : Workgroup) (id pc : Nat) (lanes : Array Lane) :
    (group.standing id pc lanes).Below group.wave.size :=
  ⟨fun _ hlane => ((@Setting.mem_launched ⟨group, fun _ => none, False⟩ id _).mp hlane).1, nofun⟩

/-- What a wave does when it goes on, its turn does. -/
theorem Wave.Follows.ends {E : RunError → Prop} {F : Prop} {R : Pause → Shared → Prop}
    {group : Workgroup} {budget : Nat} {w : Wave} {outcome : Outcome Shared Wave}
    (hlimit : ∀ wave, E (.stepLimit wave)) (h : w.Follows group budget s outcome)
    (ho : outcome.Ends E F fun w' t => ∀ b, (w'.turn group b t).Ends E F R) : (w.turn group budget s).Ends E F R := by
  rcases h with ⟨k, u, hstop⟩ | h
  · rw [hstop]
    exact hlimit k
  · cases outcome with
    | done w' t =>
      obtain ⟨b, -, hturn⟩ := h
      rw [hturn]
      exact ho b
    | failed error t =>
      rw [h]
      exact ho
    | faulted fault =>
      rw [h]
      exact ho

section

variable {program : Program} {bar : Value} {id pc : Nat} {lanes : Array Lane} {block : Block}
  {Q : (Nat → Thread) → Prop} {T : Nat → Thread}

/-! ## Turns -/

/-- The block has no barrier of its own. -/
def Block.NoBarrier (program : Program) (block : Block) : Prop :=
  ∀ v ∈ Block.values block, program.instr v ≠ .ok (.intrinsic .barrier)

/-- How many barriers the block has. -/
def Block.barriers (program : Program) (block : Block) : Nat :=
  (Block.values block).countP fun v => match program.instr v with
    | .ok (.intrinsic .barrier) => true
    | _ => false

theorem Block.barriers_append (program : Program) (a b : Block) :
    Block.barriers program (a ++ b) = Block.barriers program a + Block.barriers program b := by
  unfold Block.barriers
  rw [Block.values_append, List.countP_append]

theorem Block.NoBarrier.barriers_eq (h : block.NoBarrier program) : Block.barriers program block = 0 := by
  refine List.countP_eq_zero.mpr fun v hv => ?_
  have hne := h v hv
  split
  · contradiction
  · exact Bool.false_ne_true

/-- A barrier behind a block and in front of another. -/
theorem Block.NoBarrier.barriers_around {rest : Block}
    (h : block.NoBarrier program) (hbar : program.instr bar = .ok (.intrinsic .barrier)) :
    Block.barriers program (block ++ .instr bar :: rest) = 1 + Block.barriers program rest := by
  change Block.barriers program (block ++ ([.instr bar] ++ rest)) = _
  rw [Block.barriers_append, h.barriers_eq, Block.barriers_append, Nat.zero_add]
  congr 1
  simp [Block.barriers, Block.values, Node.values, hbar]

/-- A wave that stands at a barrier with all its lanes pauses there. -/
theorem Workgroup.turn_barrier {group : Workgroup} (hop : group.executable.code[pc]? = some (.instr bar))
    (hinstr : group.program.instr bar = .ok (.intrinsic .barrier))
    (hsome : (Wave.start group id).launched.isEmpty = false) (budget : Nat) :
    (group.standing id pc lanes).turn group (budget + 1) s =
      .done ⟨group.standing id (pc + 1) lanes, budget, .barrier⟩ s := by
  have hstep : (group.standing id pc lanes).step group (.instr bar) s =
      .done (group.standing id (pc + 1) lanes, true) s := by
    have hexec : (group.standing id pc lanes).launched.isEmpty = false := hsome
    have hall : (group.standing id pc lanes).exec = (group.standing id pc lanes).launched := rfl
    simp only [Wave.step, Wave.stepInstr, hall, hexec, Bool.false_eq_true, ↓reduceIte, hinstr, Exec.liftM_ok, pure_bind]
    rfl
  rw [Wave.turn_succ hop, Exec.bind_apply, hstep]
  rfl

end

/-- The lanes of a wave run through a block together. -/
def Block.Carries (group : Workgroup) (id : Nat) (E : RunError → Prop) (F : Prop) (block : Block)
    (Q : Array Lane → Shared → Prop) (lanes : Array Lane) (s : Shared) : Prop :=
  ∀ fuel, (Block.lockstep group id fuel block ⟨(Wave.start group id).launched, none, lanes⟩ s).Ends E F
    fun φ s' => φ.exec = (Wave.start group id).launched ∧ φ.left = none ∧ Q φ.lanes s'

namespace Block.Carries

variable {group : Workgroup} {id pc : Nat} {E : RunError → Prop} {F : Prop} {block : Block}
  {Q : Array Lane → Shared → Prop} {lanes : Array Lane}

variable (hlimit : ∀ wave, E (.stepLimit wave))
include hlimit

variable (h : Block.Carries group id E F block Q lanes s)
include h

/-- A turn runs a block, and goes on behind it. -/
theorem turn (hcode : CodeAt group.executable.code pc (Block.code pc block))
    (hbar : block.NoBarrier group.program) (budget : Nat) {P : Pause → Shared → Prop}
    (hrest : ∀ b lanes' s', Q lanes' s' →
      ((group.standing id (pc + (Block.code pc block).length) lanes').turn group b s').Ends E F P) :
    ((group.standing id pc lanes).turn group budget s).Ends E F P := by
  have hfollows := Block.follows (w := group.standing id pc lanes) s (Nat.le_refl budget) block hcode hbar
  refine hfollows.ends hlimit (.map ((h budget).mono fun φ s' _ hφ => ?_))
  obtain ⟨exec', left', lanes'⟩ := φ
  obtain ⟨hexec, hleft, hQ⟩ := hφ
  obtain rfl : exec' = (Wave.start group id).launched := hexec
  obtain rfl : left' = none := hleft
  exact fun b => hrest b lanes' s' hQ

theorem turn_barrier {bar : Value}
    (hcode : CodeAt group.executable.code pc (Block.code pc block ++ [.instr bar]))
    (hbar : block.NoBarrier group.program) (hinstr : group.program.instr bar = .ok (.intrinsic .barrier))
    (hsome : (Wave.start group id).launched.isEmpty = false) (budget : Nat) :
    ((group.standing id pc lanes).turn group budget s).Ends E F fun pause s' =>
      pause.halt = .barrier ∧ ∃ lanes',
        pause.wave = group.standing id (pc + (Block.code pc block).length + 1) lanes' ∧ Q lanes' s' := by
  refine h.turn hlimit hcode.append_left hbar budget fun b lanes' s' hQ => ?_
  cases b with
  | zero =>
    rw [Wave.turn_zero hcode.append_right.head]
    exact hlimit id
  | succ b =>
    rw [Workgroup.turn_barrier hcode.append_right.head hinstr hsome b]
    exact ⟨rfl, lanes', rfl, hQ⟩

theorem turn_finish (hcode : CodeAt group.executable.code pc (Block.code pc block))
    (hend : group.executable.code.size = pc + (Block.code pc block).length)
    (hbar : block.NoBarrier group.program) (budget : Nat) :
    ((group.standing id pc lanes).turn group budget s).Ends E F fun pause s' =>
      pause.halt = .finished ∧ ∃ lanes',
        pause.wave = group.standing id (pc + (Block.code pc block).length) lanes' ∧ Q lanes' s' := by
  refine h.turn hlimit hcode hbar budget fun b lanes' s' hQ => ?_
  rw [Wave.turn_of_code_eq_none (Array.getElem?_eq_none (Nat.le_of_eq hend))]
  exact ⟨rfl, lanes', rfl, hQ⟩

end Block.Carries

namespace Block.Brings

variable {id pc : Nat} {block : Block} {Q : (Nat → Thread) → Prop} {T : Nat → Thread} {lanes : Array Lane}

variable (h : Block.Brings c id block Q T)
include h

/-- Code that cannot fail carries the wave along. -/
theorem carries (hcrew : Crew c id lanes s T) :
    Block.Carries c.group id (fun error => ∃ wave, error = .stepLimit wave) c.faults block
      (fun lanes' s' => ∃ T', Crew c id lanes' s' T' ∧ s.Steps c id s' ∧ Q T') lanes s :=
  fun fuel => Outcome.ensures_iff.mp (h fuel lanes s hcrew)

theorem turn_barrier {bar : Value}
    (hcode : CodeAt c.group.executable.code pc (Block.code pc block ++ [.instr bar]))
    (hbar : block.NoBarrier c.program) (hinstr : c.program.instr bar = .ok (.intrinsic .barrier))
    (hsome : (c.launched id).isEmpty = false) (hcrew : Crew c id lanes s T) (budget : Nat) :
    ((c.group.standing id pc lanes).turn c.group budget s).Ensures c.faults fun pause s' =>
      pause.halt = .barrier ∧ ∃ lanes',
        pause.wave = c.group.standing id (pc + (Block.code pc block).length + 1) lanes' ∧
          ∃ T', Crew c id lanes' s' T' ∧ s.Steps c id s' ∧ Q T' :=
  Outcome.ensures_iff.mpr ((h.carries hcrew).turn_barrier (fun wave => ⟨wave, rfl⟩) hcode hbar hinstr hsome budget)

theorem turn_finish (hcode : CodeAt c.group.executable.code pc (Block.code pc block))
    (hend : c.group.executable.code.size = pc + (Block.code pc block).length)
    (hbar : block.NoBarrier c.program) (hcrew : Crew c id lanes s T) (budget : Nat) :
    ((c.group.standing id pc lanes).turn c.group budget s).Ensures c.faults fun pause s' =>
      pause.halt = .finished ∧ ∃ lanes', pause.wave = c.group.standing id (pc + (Block.code pc block).length) lanes' ∧
          ∃ T', Crew c id lanes' s' T' ∧ s.Steps c id s' ∧ Q T' :=
  Outcome.ensures_iff.mpr ((h.carries hcrew).turn_finish (fun wave => ⟨wave, rfl⟩) hcode hend hbar budget)

end Block.Brings

/-! ## Sweeps -/

/-- What is promised of the thread of each lane of the workgroup. -/
abbrev Promise := Nat → Thread → Prop

/-- The threads of a wave have kept a promise. -/
def Setting.Keeps (c : Setting) (id : Nat) (promise : Promise) (T : Nat → Thread) : Prop :=
  ∀ l ∈ (c.launched id).lanes, promise (c.index id l) (T l)

/-- The waves stand at operation `pc`, and the threads `T` of each of them have kept a promise. -/
def Lined (c : Setting) (pc : Nat) (promise : Promise) (s : Shared) (T : Nat → Nat → Thread)
    (waves : List Wave) : Prop :=
  ∀ w ∈ waves, ∃ lanes, w = c.group.standing w.id pc lanes ∧ Crew c w.id lanes s (T w.id) ∧
    c.Keeps w.id promise (T w.id)

/-- The waves do not notice the turn of another wave. -/
theorem Lined.of_steps {pc id : Nat} {promise : Promise} {s' : Shared} {T : Nat → Nat → Thread}
    {waves : List Wave} (h : Lined c pc promise s T waves) (hsteps : s.Steps c id s')
    (hobeys : s'.memory.Obeys c.own c.group.wave.size) (hid : id ∉ waves.map (·.id)) :
    Lined c pc promise s' T waves := by
  intro w hw
  obtain ⟨lanes, hstand, hcrew, hkeeps⟩ := h w hw
  refine ⟨lanes, hstand, hcrew.of_steps hsteps ?_ hobeys, hkeeps⟩
  rintro rfl
  exact hid (List.mem_map_of_mem hw)

/-- The turns of all waves lead from one operation to another, and from one promise to another. -/
def Setting.Turns (c : Setting) (pc : Nat) (pre : Promise) (pc' : Nat) (halt : Halt) (post : Promise) : Prop :=
  ∀ id < c.group.numWaves, ∀ b lanes s T, Crew c id lanes s T → c.Keeps id pre T →
    ((c.group.standing id pc lanes).turn c.group b s).Ensures c.faults fun p t =>
      p.halt = halt ∧ ∃ lanes', p.wave = c.group.standing id pc' lanes' ∧
        ∃ T', Crew c id lanes' t T' ∧ s.Steps c id t ∧ c.Keeps id post T'

/-- All waves of a workgroup, in some order. -/
structure Workgroup.Complete (group : Workgroup) (waves : List Wave) : Prop where
  nodup : (waves.map (·.id)).Nodup
  mem : ∀ id, id ∈ waves.map (·.id) ↔ id < group.numWaves

namespace Workgroup

theorem Complete.of_ids {group : Workgroup} {waves waves' : List Wave} (h : group.Complete waves)
    (hids : waves'.map (·.id) = waves.map (·.id)) : group.Complete waves' :=
  ⟨hids ▸ h.nodup, fun id => hids ▸ h.mem id⟩

section

variable {group : Workgroup} {E : RunError → Prop} {F : Prop} {I : Shared → Prop}
  {A P : Nat → Array Lane → Shared → Prop} {pc pc' : Nat} {halt : Halt} {runners : List Runner}

/-- A turn leads a wave from one operation to another. The wave brings about a property, and the others keep
what they have before and after their turns. -/
def Leads (group : Workgroup) (E : RunError → Prop) (F : Prop) (I : Shared → Prop)
    (pc : Nat) (A : Nat → Array Lane → Shared → Prop) (pc' : Nat) (halt : Halt)
    (P : Nat → Array Lane → Shared → Prop) : Prop :=
  ∀ id < group.numWaves, ∀ b lanes s, I s → A id lanes s →
    ((group.standing id pc lanes).turn group b s).Ends E F fun pause s' =>
      pause.halt = halt ∧ ∃ lanes', pause.wave = group.standing id pc' lanes' ∧ I s' ∧ P id lanes' s' ∧
        ∀ other ≠ id, ∀ lanes, (A other lanes s → A other lanes s') ∧ (P other lanes s → P other lanes s')

/-- The turns of some waves, one after the other. -/
theorem sweeping_ends (hturn : group.Leads E F I pc A pc' halt P)
    (hnodup : (runners.map (·.wave.id)).Nodup) (hids : ∀ r ∈ runners, r.wave.id < group.numWaves)
    (hwaves : ∀ r ∈ runners, r.wave = group.standing r.wave.id pc r.wave.lanes ∧ A r.wave.id r.wave.lanes s)
    (hI : I s) : (group.sweeping runners s).Ends E F fun pauses s' =>
      pauses.map (·.wave.id) = runners.map (·.wave.id) ∧ I s' ∧
        (∀ p ∈ pauses, p.halt = halt ∧ p.wave = group.standing p.wave.id pc' p.wave.lanes ∧
          P p.wave.id p.wave.lanes s') ∧ ∀ id ∉ runners.map (·.wave.id), ∀ lanes, P id lanes s → P id lanes s' := by
  induction runners generalizing s with
  | nil => exact ⟨rfl, hI, by simp, fun _ _ _ h => h⟩
  | cons r rest ih =>
    obtain ⟨hr, hnodup⟩ : r.wave.id ∉ rest.map (·.wave.id) ∧ (rest.map (·.wave.id)).Nodup :=
      List.nodup_cons.mp hnodup
    obtain ⟨hstand, hA⟩ := hwaves r (by simp)
    have hfirst := hturn r.wave.id (hids r (by simp)) r.budget r.wave.lanes s hI hA
    rw [← hstand] at hfirst
    rw [sweeping_cons]
    refine .bind (hfirst.mono fun pause s₁ _ ⟨hhalt, lanes', hpause, hI₁, hP, hkeep⟩ => ?_)
    have hwaves₁ : ∀ q ∈ rest, q.wave = group.standing q.wave.id pc q.wave.lanes ∧
        A q.wave.id q.wave.lanes s₁ := fun q hq => by
      obtain ⟨hq', hA'⟩ := hwaves q (by simp [hq])
      have hne : q.wave.id ≠ r.wave.id := fun heq => hr (heq ▸ List.mem_map.mpr ⟨q, hq, rfl⟩)
      exact ⟨hq', (hkeep _ hne _).1 hA'⟩
    refine .bind ((ih hnodup (fun q hq => hids q (by simp [hq])) hwaves₁ hI₁).mono
      fun pauses s₂ _ ⟨hids', hI₂, hpauses, hkeep₂⟩ => ?_)
    have hid : pause.wave.id = r.wave.id := by rw [hpause]; rfl
    refine ⟨by simp [hids', hid], hI₂, fun p hp => ?_, fun id hnot lanes hPid => ?_⟩
    · rcases List.mem_cons.mp hp with rfl | hp
      · have hlanes : p.wave.lanes = lanes' := congrArg Wave.lanes hpause
        rw [hid, hlanes]
        exact ⟨hhalt, hpause, hkeep₂ _ hr _ hP⟩
      · exact hpauses p hp
    · have hnot' : id ≠ r.wave.id ∧ id ∉ rest.map (·.wave.id) := by simpa using hnot
      exact hkeep₂ id hnot'.2 lanes ((hkeep id hnot'.1 lanes).2 hPid)

/-- All waves take their turns. No barrier is counted meanwhile. -/
theorem Complete.sweeping (hall : group.Complete (runners.map (·.wave))) (hturn : group.Leads E F I pc A pc' halt P)
    (hwaves : ∀ r ∈ runners, r.wave = group.standing r.wave.id pc r.wave.lanes ∧ A r.wave.id r.wave.lanes s)
    (hI : I s) : (group.sweeping runners s).Ends E F fun pauses s' =>
      group.Complete (pauses.map (·.wave)) ∧ I s' ∧ s'.result.barriers = s.result.barriers ∧
        ∀ p ∈ pauses, p.halt = halt ∧ p.wave = group.standing p.wave.id pc' p.wave.lanes ∧
          P p.wave.id p.wave.lanes s' := by
  have hids : runners.map (·.wave.id) = (runners.map (·.wave)).map (·.id) := by simp
  have hlt : ∀ r ∈ runners, r.wave.id < group.numWaves := fun r hr =>
    (hall.mem _).mp (hids ▸ List.mem_map.mpr ⟨r, hr, rfl⟩)
  refine (sweeping_ends hturn (hids ▸ hall.nodup) hlt hwaves hI).mono
    fun pauses s' hs ⟨hids', hI', hpauses, _⟩ => ⟨hall.of_ids ?_, hI', ?_, hpauses⟩
  · simpa [Function.comp_def] using hids'
  · refine (waveAction_sweeping fun r hr => ?_).barriers_eq hs
    rw [(hwaves r hr).1]
    exact below_standing ..

end

end Workgroup

/-! ## Rounds -/

/-- The thread sees the bytes of memory as they are. -/
def Thread.see (t : Thread) (view : Nat → UInt8) : Thread := { t with view }

/-- At a barrier the bytes get new owners, and everybody sees all of them. -/
theorem Crew.meet {id : Nat} {lanes : Array Lane} {T : Nat → Thread} (h : Crew c id lanes s T) (own : Ownership) :
    Crew { c with own } id lanes s.meet fun l => (T l).see s.memory.byteAt where
  count := h.count
  lane := h.lane
  sized := h.sized
  view _ _ a _ := (s.memory.byteAt_sync a).symm
  primitives := h.primitives
  vertices := h.vertices
  space := h.space
  obeys := SharedMemory.obeys_sync own _ s.memory
  share := h.share

/-- From a promise of all threads the waves can run a block from barrier to barrier, and in the end the
threads have reached the goal. At a barrier any thread knows what the others know of their own bytes,
and the ownership of the bytes may depend on that. -/
inductive Workgroup.Plays (group : Workgroup) (faults : Prop) (goal : (Nat → Thread) → Prop) :
    Ownership → Promise → Block → Prop where
  | last {own : Ownership} {pre post : Promise} {block : Block}
      (h : ∀ id < group.numWaves, ∀ T, Setting.Keeps ⟨group, own, faults⟩ id pre T →
        Block.Brings ⟨group, own, faults⟩ id block (Setting.Keeps ⟨group, own, faults⟩ id post) T)
      (hbar : block.NoBarrier group.program)
      (hgoal : ∀ T : Nat → Thread, (∀ i < group.launch.numLanes, post i (T i)) → goal T) :
      Plays group faults goal own pre block
  | barrier {own : Ownership} {pre mid : Promise} {block rest : Block} {bar : Value}
      (own' : (Nat → Thread) → (Nat → UInt8) → Ownership)
      (h : ∀ id < group.numWaves, ∀ T, Setting.Keeps ⟨group, own, faults⟩ id pre T →
        Block.Brings ⟨group, own, faults⟩ id block (Setting.Keeps ⟨group, own, faults⟩ id mid) T)
      (hbar : block.NoBarrier group.program)
      (hinstr : group.program.instr bar = .ok (.intrinsic .barrier))
      (hrest : ∀ (T : Nat → Thread) (view : Nat → UInt8),
        (∀ i < group.launch.numLanes, mid i (T i)) →
        (∀ i < group.launch.numLanes, ∀ a, own a = none ∨ own a = some i → (T i).view a = view a) →
        Plays group faults goal (own' T view) (fun i u => u = (T i).see view) rest) :
      Plays group faults goal own pre (block ++ .instr bar :: rest)

namespace Workgroup

variable {start : Nat} {group : Workgroup} {faults : Prop} {runners : List Runner} {id pc : Nat}
  {T : Nat → Nat → Thread} {own : Ownership} {pre : Promise}

theorem rounds_ensures {Q : Unit → Shared → Prop} (h : (group.sweeping runners s).Ensures faults fun pauses t =>
      (∀ p ∈ pauses, p.halt = .finished) ∧ Q () t ∨ pauses ≠ [] ∧ (∀ p ∈ pauses, p.halt = .barrier) ∧
          (faults ∨ t.result.barriers < Shared.maxBarriers) ∧
          (group.rounds (pauses.map Pause.resume) t.meet).Ensures faults Q) :
    (group.rounds runners s).Ensures faults Q := by
  rw [rounds_eq]
  refine .bind (h.mono fun pauses t _ hcase => ?_)
  rcases hcase with ⟨hf, hQ⟩ | ⟨hne, hb, hfew, hrest⟩
  · rw [afterSweep_of_finished hf]
    exact hQ
  · rw [afterSweep_of_barrier hne hb, meeting]
    split
    · exact hrest
    · exact hfew.resolve_right ‹_›

theorem zero_mem_launched (c : Setting) (h : id < c.group.numWaves) : 0 ∈ (c.launched id).lanes := by
  have hpos : 0 < c.group.wave.size := by cases c.group.wave <;> decide
  refine Setting.mem_launched.mpr ⟨hpos, ?_⟩
  change id * c.group.wave.size + 0 < c.group.launch.numLanes
  have hle : (id + 1) * c.group.wave.size ≤ c.group.launch.numLanes + c.group.wave.size - 1 :=
    (Nat.le_div_iff_mul_le hpos).mp h
  rw [Nat.add_mul, Nat.one_mul] at hle
  omega

theorem launched_ne_empty (c : Setting) (h : id < c.group.numWaves) : (c.launched id).isEmpty = false := by
  rw [← Bool.not_eq_true]
  intro hempty
  have hmem := zero_mem_launched c h
  rw [LaneMask.lanes_eq_nil_iff.mpr hempty] at hmem
  cases hmem

/-- The thread of lane `i` of the workgroup. -/
def thread (group : Workgroup) (T : Nat → Nat → Thread) (i : Nat) : Thread :=
  T (i / group.wave.size) (i % group.wave.size)

theorem wave_size_pos (group : Workgroup) : 0 < group.wave.size := by
  cases group.wave <;> decide

theorem wave_lt {i : Nat} (h : i < group.launch.numLanes) : i / group.wave.size < group.numWaves := by
  refine (Nat.le_div_iff_mul_le group.wave_size_pos).mpr ?_
  have hle := Nat.div_mul_le_self i group.wave.size
  rw [Nat.succ_mul]
  omega

theorem numLanes_le (group : Workgroup) : group.launch.numLanes ≤ group.numWaves * group.wave.size := by
  have hpos := group.wave_size_pos
  have hlt := @Nat.lt_div_mul_add (group.launch.numLanes + group.wave.size - 1) _ hpos
  have hdef : group.numWaves = (group.launch.numLanes + group.wave.size - 1) / group.wave.size := rfl
  rw [hdef]
  omega

section

variable {i l : Nat}

theorem index_div_mod (i : Nat) :
    Setting.index ⟨group, own, faults⟩ (i / group.wave.size) (i % group.wave.size) = i := by
  change i / group.wave.size * group.wave.size + i % group.wave.size = i
  rw [Nat.mul_comm]
  exact Nat.div_add_mod i group.wave.size

theorem thread_index (h : l < group.wave.size) : group.thread T (Setting.index ⟨group, own, faults⟩ id l) = T id l := by
  have hdiv := @Setting.index_div ⟨group, own, faults⟩ id l h
  have hmod := @Setting.index_mod ⟨group, own, faults⟩ id l h
  unfold thread
  rw [hdiv, hmod]

/-- A promise that all waves have kept, lane by lane. -/
theorem promise_thread {promise : Promise}
    (h : ∀ id < group.numWaves, Setting.Keeps ⟨group, own, faults⟩ id promise (T id))
    (hi : i < group.launch.numLanes) : promise i (group.thread T i) := by
  have hkept := h _ (wave_lt hi) (i % group.wave.size) (Setting.mem_launched.mpr
    ⟨Nat.mod_lt _ group.wave_size_pos, by rw [index_div_mod]; exact hi⟩)
  rwa [index_div_mod] at hkept

end

/-- The waves that stand in line, in any order, are all waves. -/
theorem lined_waves {promise : Promise} {waves : List Wave} (hall : group.Complete waves)
    (h : Lined ⟨group, own, faults⟩ pc promise s T waves) (hid : id < group.numWaves) :
    ∃ lanes, Crew ⟨group, own, faults⟩ id lanes s (T id) ∧ Setting.Keeps ⟨group, own, faults⟩ id promise (T id) := by
  obtain ⟨w, hw, rfl⟩ := List.mem_map.mp ((hall.mem id).mpr hid)
  obtain ⟨lanes, -, hcrew, hkeeps⟩ := h w hw
  exact ⟨lanes, hcrew, hkeeps⟩

section

variable {promise next : Promise} {waves : List Wave}

/-- Every lane of the workgroup has kept the promise. -/
theorem lined_promise (hall : group.Complete waves) (h : Lined ⟨group, own, faults⟩ pc promise s T waves)
    {i : Nat} (hi : i < group.launch.numLanes) : promise i (group.thread T i) :=
  promise_thread (fun _ hid => (lined_waves hall h hid).elim fun _ h => h.2) hi

/-- Every lane of the workgroup knows its own bytes and those of nobody. -/
theorem lined_view (hall : group.Complete waves) (h : Lined ⟨group, own, faults⟩ pc promise s T waves)
    {i a : Nat} (hi : i < group.launch.numLanes) (ha : own a = none ∨ own a = some i) :
    (group.thread T i).view a = s.memory.byteAt a := by
  obtain ⟨lanes, hcrew, -⟩ := lined_waves hall h (wave_lt hi)
  refine hcrew.view _ (Nat.mod_lt _ group.wave_size_pos) a ?_
  rwa [index_div_mod]

/-- At a barrier all threads see all bytes, and those get new owners. -/
theorem lined_meet (h : Lined ⟨group, own, faults⟩ pc promise s T waves) (own' : Ownership)
    (hnext : ∀ i < group.launch.numLanes, next i ((group.thread T i).see s.memory.byteAt)) :
    Lined ⟨group, own', faults⟩ pc next s.meet (fun id l => (T id l).see s.memory.byteAt) waves := by
  intro w hw
  obtain ⟨lanes, hstand, hcrew, -⟩ := h w hw
  refine ⟨lanes, hstand, hcrew.meet own', fun l hl => ?_⟩
  obtain ⟨hsize, hlanes⟩ := Setting.mem_launched.mp hl
  have hpromise := hnext _ hlanes
  rwa [thread_index hsize] at hpromise

end

/-- The waves that go on are those that have paused. -/
theorem waves_resume (pauses : List Pause) : (pauses.map Pause.resume).map (·.wave) = pauses.map (·.wave) := by
  simp [Pause.resume, Function.comp_def]

theorem Complete.ne_nil {pauses : List Pause} (hall : group.Complete ((pauses.map Pause.resume).map (·.wave)))
    (hlanes : 0 < group.launch.numLanes) : pauses ≠ [] := by
  rintro rfl
  have hmem := (hall.mem _).mpr (wave_lt hlanes)
  cases hmem

/-- All waves have come to the same place, where their threads have kept a promise. -/
structure Swept (c : Setting) (pc : Nat) (halt : Halt) (promise : Promise) (pauses : List Pause) (s : Shared) :
    Prop where
  halt : ∀ p ∈ pauses, p.halt = halt
  all : c.group.Complete ((pauses.map Pause.resume).map (·.wave))
  lined : ∃ T, Lined c pc promise s T ((pauses.map Pause.resume).map (·.wave))

theorem sweeping_swept {c : Setting} {pc' : Nat} {halt : Halt} {post : Promise} (hturn : c.Turns pc pre pc' halt post)
    (hall : c.group.Complete (runners.map (·.wave))) (hlined : Lined c pc pre s T (runners.map (·.wave))) :
    (c.group.sweeping runners s).Ensures c.faults fun pauses s' =>
      Swept c pc' halt post pauses s' ∧ s'.result.barriers = s.result.barriers := by
  have hleads : c.group.Leads (fun error => ∃ wave, error = .stepLimit wave) c.faults (fun _ => True)
      pc (fun id lanes s => Crew c id lanes s (T id) ∧ c.Keeps id pre (T id)) pc' halt
      (fun id lanes s => ∃ T', Crew c id lanes s T' ∧ c.Keeps id post T') := by
    rintro id hid b lanes s - ⟨hcrew, hpre⟩
    refine (Outcome.ensures_iff.mp (hturn id hid b lanes s _ hcrew hpre)).mono ?_
    rintro pause s' - ⟨hhalt, lanes', hpause, T', hcrew', hsteps, hpost⟩
    -- The other waves do not notice the turn.
    have hkeep {other : Nat} (hne : other ≠ id) {lanes : Array Lane} {T : Nat → Thread}
        (h : Crew c other lanes s T) : Crew c other lanes s' T := h.of_steps hsteps hne.symm hcrew'.obeys
    exact ⟨hhalt, lanes', hpause, trivial, ⟨T', hcrew', hpost⟩, fun other hne lanes =>
      ⟨fun h => ⟨hkeep hne h.1, h.2⟩, fun ⟨T, hcrew, hkeeps⟩ => ⟨T, hkeep hne hcrew, hkeeps⟩⟩⟩
  refine Outcome.ensures_iff.mpr ((hall.sweeping hleads (fun r hr => ?_) trivial).mono ?_)
  · obtain ⟨lanes, hstand, hkept⟩ := hlined r.wave (List.mem_map_of_mem hr)
    have hlanes : r.wave.lanes = lanes := congrArg Wave.lanes hstand
    rw [hlanes]
    exact ⟨hstand, hkept⟩
  · rintro pauses s' - ⟨hall', -, hbarriers, hpauses⟩
    refine ⟨⟨fun p hp => (hpauses p hp).1, (waves_resume pauses).symm ▸ hall', ?_⟩, hbarriers⟩
    rw [waves_resume]
    have hthreads : ∀ id, ∃ T', ∀ w ∈ pauses.map (·.wave), w.id = id →
        w = c.group.standing id pc' w.lanes ∧ Crew c id w.lanes s' T' ∧ c.Keeps id post T' := by
      intro id
      by_cases hw : ∃ w ∈ pauses.map (·.wave), w.id = id
      · obtain ⟨w, hw, rfl⟩ := hw
        obtain ⟨p, hp, rfl⟩ := List.mem_map.mp hw
        obtain ⟨-, hstand, T', hkept⟩ := hpauses p hp
        refine ⟨T', fun v hv hid => ?_⟩
        rw [List.inj_on_of_nodup_map hall'.nodup hv hw hid]
        exact ⟨hstand, hkept⟩
      · exact ⟨T id, fun w hmem hid => absurd ⟨w, hmem, hid⟩ hw⟩
    choose T' hT' using hthreads
    exact ⟨T', fun w hw => ⟨w.lanes, hT' w.id w hw rfl⟩⟩

theorem codeAt_barrier {code : Array CodeOp} {block rest : Block} {bar : Value}
    (hcode : CodeAt code start (Block.code start (block ++ .instr bar :: rest)))
    (hend : code.size = start + (Block.code start (block ++ .instr bar :: rest)).length) :
    let mark := start + (Block.code start block).length + 1
    CodeAt code start (Block.code start block ++ [.instr bar]) ∧ CodeAt code mark (Block.code mark rest) ∧
      code.size = mark + (Block.code mark rest).length := by
  intro mark
  have hsplit : Block.code start (block ++ .instr bar :: rest) =
      Block.code start block ++ [.instr bar] ++ Block.code mark rest := by
    rw [Block.code_append, List.append_assoc]
    rfl
  rw [hsplit] at hcode hend
  have hright := hcode.append_right
  rw [List.length_append, ← Nat.add_assoc] at hright
  refine ⟨hcode.append_left, hright, ?_⟩
  rw [hend, List.length_append, List.length_append, ← Nat.add_assoc, ← Nat.add_assoc]
  rfl

/-- The waves run the program from barrier to barrier, and their threads reach the goal. Each barrier is counted
once, so there must not be too many. -/
theorem rounds_of_plays {goal : (Nat → Thread) → Prop} {block : Block} (h : group.Plays faults goal own pre block)
    (hlanes : 0 < group.launch.numLanes) (hcode : CodeAt group.executable.code start (Block.code start block))
    (hend : group.executable.code.size = start + (Block.code start block).length)
    (hall : group.Complete (runners.map (·.wave)))
    (hlined : Lined ⟨group, own, faults⟩ start pre s T (runners.map (·.wave))) {F : Prop} (hF : faults → F)
    (hfew : F ∨ s.result.barriers + Block.barriers group.program block ≤ Shared.maxBarriers) :
    (group.rounds runners s).Ensures F fun _ s' =>
      ∃ (own' : Ownership) (T' : Nat → Nat → Thread), goal (group.thread T') ∧
        s'.result.barriers = s.result.barriers + Block.barriers group.program block ∧
        ∀ id < group.numWaves, ∃ lanes, Crew ⟨group, own', faults⟩ id lanes s' (T' id) := by
  induction h generalizing start runners s T with
  | @last own pre post block hblock hbar hgoal =>
    refine rounds_ensures (((sweeping_swept (c := ⟨group, own, faults⟩) (fun id hid b lanes s T hcrew hpre =>
      (hblock id hid T hpre).turn_finish hcode hend hbar hcrew b) hall hlined).mono_faults hF).mono
        fun pauses s' _ hswept => ?_)
    obtain ⟨⟨hhalt, hall', T', hlined'⟩, hbarriers⟩ := hswept
    refine .inl ⟨hhalt, own, T', ?_⟩
    exact ⟨hgoal _ fun i hi => lined_promise hall' hlined' hi, by rw [hbar.barriers_eq, hbarriers, Nat.add_zero],
      fun id hid => (lined_waves hall' hlined' hid).imp fun _ h => h.1⟩
  | @barrier own pre mid block rest bar own' hblock hbar hinstr hrest ih =>
    obtain ⟨hleft, hright, hsize⟩ := codeAt_barrier hcode hend
    refine rounds_ensures (((sweeping_swept (c := ⟨group, own, faults⟩) (fun id hid b lanes s T hcrew hpre =>
      (hblock id hid T hpre).turn_barrier hleft hbar hinstr (launched_ne_empty _ hid) hcrew b) hall hlined).mono_faults
        hF).mono fun pauses s' _ ⟨⟨hhalt, hall', T', hlined'⟩, hbarriers⟩ => ?_)
    rw [hbar.barriers_around hinstr, ← hbarriers, ← Nat.add_assoc] at hfew
    refine .inr ⟨hall'.ne_nil hlanes, hhalt, hfew.imp_right fun _ => by omega, (ih (group.thread T') s'.memory.byteAt
      (fun i hi => lined_promise hall' hlined' hi) (fun i hi a ha => lined_view hall' hlined' hi ha) hright hsize
      hall' (lined_meet hlined' _ fun _ _ => rfl) hfew).mono
        fun _ s'' _ ⟨own'', T'', hgoal, hmet, hcrews⟩ => ⟨own'', T'', hgoal, ?_, hcrews⟩⟩
    rw [hmet, hbar.barriers_around hinstr, ← hbarriers, ← Nat.add_assoc]
    rfl

end Workgroup

end PrimitiveShader
