import PrimitiveShader.Proofs.Thread.Soundness

/-!
# All lanes of a wave together

Between two barriers, and outside of branches and loops, all lanes of a wave are on. `Block.Brings`
is the precondition of a block that is run in that way: it speaks of all threads of the wave at once.
Most blocks are run by each thread on its own (`Brings.of_wp`), but here the results of cross-lane
operations are known (`Brings.crossLane`), and so is a branch where all threads agree.
-/

namespace PrimitiveShader

namespace Setting

variable {c : Setting} {id l : Nat}

/-- The lanes of a wave that exist in the workgroup. -/
def launched (c : Setting) (id : Nat) : LaneMask := (Wave.start c.group id).launched

theorem mem_launched : l ∈ (c.launched id).lanes ↔ l < c.group.wave.size ∧ c.index id l < c.group.launch.numLanes := by
  have hsize : c.group.wave.size ≤ 64 := by cases c.group.wave <;> decide
  have hindex : c.index id l = id * c.group.wave.size + l := rfl
  rw [LaneMask.mem_lanes, hindex]
  constructor
  · rintro ⟨hlt, hc⟩
    simp only [launched, Wave.start, LaneMask.contains_first _ hlt, decide_eq_true_eq] at hc
    omega
  · rintro ⟨hl, hn⟩
    have hlt : l < 64 := by omega
    refine ⟨hlt, ?_⟩
    simp only [launched, Wave.start, LaneMask.contains_first _ hlt, decide_eq_true_eq]
    omega

/-- The first lane of the first wave exists. -/
theorem zero_mem_launched (h : 1 ≤ c.group.launch.numLanes) : 0 ∈ (c.launched 0).lanes := by
  have hsize : 0 < c.group.wave.size := by cases c.group.wave <;> decide
  have hindex : c.index 0 0 = 0 := by simp [index, Wave.laneId]
  exact mem_launched.mpr ⟨hsize, by omega⟩

theorem launched_below (c : Setting) (id : Nat) : (c.launched id).Below c.group.wave.size :=
  fun _ hl => (mem_launched.mp hl).1

end Setting

/-- The precondition of a block that all lanes of a wave run together. -/
def Block.Brings (c : Setting) (id : Nat) (block : Block) (Q : (Nat → Thread) → Prop)
    (T : Nat → Thread) : Prop :=
  ∀ (fuel : Nat) (lanes : Array Lane) (s : Shared), Crew c id lanes s T →
    (Block.lockstep c.group id fuel block ⟨c.launched id, none, lanes⟩ s).Ensures c.faults
      fun φ s' => φ.exec = c.launched id ∧ φ.left = none ∧
        ∃ T', Crew c id φ.lanes s' T' ∧ s.Steps c id s' ∧ Q T'

namespace Block.Brings

variable {c : Setting} {id : Nat} {block rest : Block} {Q R : (Nat → Thread) → Prop} {T : Nat → Thread}

theorem mono (h : Block.Brings c id block Q T) (hQ : ∀ T', Q T' → R T') : Block.Brings c id block R T := by
  intro fuel lanes s hcrew
  exact (h fuel lanes s hcrew).mono fun φ s' _ ⟨hexec, hleft, T', hcrew', hsteps, hT'⟩ =>
    ⟨hexec, hleft, T', hcrew', hsteps, hQ T' hT'⟩

/-- All threads have the registers and variables of the program. -/
theorem of_sized (h : (∀ l < c.group.wave.size, (T l).lane.Sized c.program) →
    Block.Brings c id block Q T) : Block.Brings c id block Q T :=
  fun fuel lanes s hcrew => h hcrew.sized fuel lanes s hcrew

theorem nil (h : Q T) : Block.Brings c id [] Q T := by
  intro fuel lanes s hcrew
  rw [Block.lockstep]
  exact ⟨rfl, rfl, T, hcrew, .refl s, h⟩

theorem append (h : Block.Brings c id block (Block.Brings c id rest Q) T) : Block.Brings c id (block ++ rest) Q T := by
  intro fuel lanes s hcrew
  rw [Block.lockstep_append]
  refine .bind ((h fuel lanes s hcrew).mono fun φ₁ s₁ _ ⟨hexec, hleft, T₁, hcrew₁, hsteps, hrest⟩ => ?_)
  obtain ⟨exec₁, left₁, lanes₁⟩ := φ₁
  obtain rfl : exec₁ = c.launched id := hexec
  obtain rfl : left₁ = none := hleft
  refine (hrest fuel lanes₁ s₁ hcrew₁).mono fun φ₂ s₂ _ ⟨hexec, hleft, T₂, hcrew₂, hsteps₂, hQ⟩ => ?_
  exact ⟨hexec, hleft, T₂, hcrew₂, hsteps.trans hsteps₂, hQ⟩

theorem of_wp (hf : c.Fits id) (hsome : (c.launched id).isEmpty = false) {B : Nat → Thread → Prop}
    (hwp : ∀ l ∈ (c.launched id).lanes, Block.wp c (Wave.laneId c.group id l) block (B l) (fun _ => c.faults) (T l))
    (hB : ∀ T', (∀ l ∈ (c.launched id).lanes, B l (T' l)) → Q T') : Block.Brings c id block Q T := by
  intro fuel lanes s hcrew
  have hready : Ready c (Crew.tie c id s) ⟨c.launched id, none, lanes⟩ s T fun _ _ => c.faults :=
    ⟨⟨hcrew, .refl s⟩, c.launched_below id, fun l _ => LaneMask.not_mem_lanes_empty l,
      fun _ => ⟨hsome, fun _ _ hfault => hfault⟩⟩
  refine Outcome.ensures_iff.mpr ((Block.runsFrom ⟨id, rfl⟩ fuel block (fun v _ => Crew.preserves_tie hf s v) _ s T B
    (fun _ _ => c.faults) hready hwp).mono ?_)
  rintro φ s' - ⟨T', hmoved⟩
  have hleft : φ.left = none := by simpa using hmoved.left
  have hexec : φ.exec = c.launched id := hmoved.exec_eq hleft
  exact ⟨hexec, hleft, T', hmoved.tie.1, hmoved.tie.2, hB T' fun l hl => (hmoved.on l (hexec ▸ hl)).2⟩

/-- An operation across all lanes of the wave. -/
theorem crossLane (hsome : (c.launched id).isEmpty = false) {value : Value} {op : CrossLaneOp}
    (hinstr : c.program.instr value = .ok (.intrinsic (.crossLane op)))
    (hop : ∀ v ∈ op.operands, v.index < c.program.definitions.size)
    (h : ∀ T', (∀ l ∈ (c.launched id).lanes, Crew.Given op (c.launched id) T value l (T' l)) → Q T') :
    Block.Brings c id [.instr value] Q T := by
  intro fuel lanes s hcrew
  rw [Block.lockstep, Node.lockstep]
  refine .bind ?_
  have hinstr' : c.group.program.instr value = .ok (.intrinsic (.crossLane op)) := hinstr
  unfold Value.lockstep
  simp only [hsome, Bool.false_eq_true, ↓reduceIte, hinstr', Exec.liftM_ok, pure_bind]
  let w := Formation.toWave ⟨c.launched id, none, lanes⟩ id
  have hcross := Crew.crossLane_yields (w := w) hcrew (c.launched_below id) hsome value (.inr hop)
  refine .bind (.lift (hcross.mono fun w' _ hserved => ?_))
  obtain ⟨T', hcrew', hsteps, hgiven, -⟩ := hserved
  rw [Exec.pure_apply]
  simp only [Outcome.Ensures]
  rw [Block.lockstep]
  exact ⟨rfl, rfl, T', hcrew', hsteps, h T' hgiven⟩

variable {thenBlock : Block} {cond : Value}

/-- The lanes that take a branch, when all lanes can read its condition. -/
theorem maskOf_yields {lanes : Array Lane} {s : Shared} (hcrew : Crew c id lanes s T) (taken : LaneMask)
    (hread : ∀ l ∈ (c.launched id).lanes, ∃ a, (T l).lane.read cond = .ok a) (htaken : ∀ l, l ∈ taken.lanes ↔
      l ∈ (c.launched id).lanes ∧ ∃ a, (T l).lane.read cond = .ok a ∧ a ≠ 0) :
    Yields c.faults (· = taken) ((Formation.toWave ⟨c.launched id, none, lanes⟩ id).maskOf cond) := by
  have hmask := Wave.maskOf_yields (Formation.toWave ⟨c.launched id, none, lanes⟩ id) cond
    (F := c.faults) (fun l hl => hcrew.lane l (c.launched_below id l hl)) fun l hl => by
      obtain ⟨a, ha⟩ := hread l hl
      rw [ha]
      exact trivial
  refine hmask.mono fun mask _ hm => LaneMask.eq_of_mem_lanes fun l => ?_
  rw [hm.2 l, htaken l]
  rfl

theorem branch_taken (hsome : (c.launched id).isEmpty = false) {elseBlock : Block}
    (hcond : ∀ l ∈ (c.launched id).lanes, ∃ a, (T l).lane.read cond = .ok a ∧ a ≠ 0)
    (h : Block.Brings c id thenBlock Q T) : Block.Brings c id [.branch cond thenBlock elseBlock] Q T := by
  intro fuel lanes s hcrew
  rw [Block.lockstep, Node.lockstep]
  refine .bind (.bind (.lift ?_))
  refine (maskOf_yields hcrew (c.launched id)
    (fun l hl => (hcond l hl).imp fun _ ha => ha.1) fun l => ?_).mono fun taken _ htaken => ?_
  · exact ⟨fun hl => ⟨hl, hcond l hl⟩, fun hl => hl.1⟩
  subst htaken
  refine .bind ?_
  simp only [Formation.onLanes, hsome, Bool.false_eq_true, ↓reduceIte]
  refine (h fuel lanes s hcrew).mono ?_
  rintro φ s' - ⟨-, hleft, T', hcrew', hsteps, hQ⟩
  have hempty : ((c.launched id).diff (c.launched id)).isEmpty = true := by
    rw [LaneMask.diff_self]
    rfl
  simp only [hempty, ↓reduceIte]
  refine ⟨?_, hleft, T', hcrew', hsteps, hQ⟩
  simp only [Formation.gone, hleft, Option.getD_none, LaneMask.diff_empty]

theorem branch_passed (hsome : (c.launched id).isEmpty = false)
    (hcond : ∀ l ∈ (c.launched id).lanes, (T l).lane.read cond = .ok 0) (h : Q T) :
    Block.Brings c id [.branch cond thenBlock []] Q T := by
  intro fuel lanes s hcrew
  rw [Block.lockstep, Node.lockstep]
  refine .bind (.bind (.lift ?_))
  refine (maskOf_yields hcrew .empty (fun l hl => ⟨0, hcond l hl⟩) fun l => ?_).mono fun taken _ htaken => ?_
  · refine ⟨fun hl => absurd hl (LaneMask.not_mem_lanes_empty l), ?_⟩
    rintro ⟨hl, a, ha, hne⟩
    rw [hcond l hl] at ha
    cases ha
    exact absurd rfl hne
  subst htaken
  have hempty : LaneMask.empty.isEmpty = true := rfl
  simp only [Formation.onLanes, hempty, ↓reduceIte, LaneMask.diff_empty, hsome, Bool.false_eq_true, Block.lockstep]
  exact ⟨LaneMask.diff_empty _, rfl, T, hcrew, .refl s, h⟩

end Block.Brings

end PrimitiveShader
