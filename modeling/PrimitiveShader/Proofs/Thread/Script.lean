import PrimitiveShader.Proofs.Emission.Straight
import PrimitiveShader.Proofs.Thread.Epoch

/-!
# Workgroups that follow a script

Some code takes a way that the launch fixes beforehand: no loops, and every condition is computed from
the inputs of the lanes or known from what is promised where the code begins (`Block.Clear`). A
`Workgroup.Course` is such code without barriers, in segments between which something is promised of all
threads. A `Workgroup.Script` puts courses together at barriers. Unlike in `Workgroup.Plays`, the promises
and the ownership behind a barrier must not depend on the run. A script can be played
(`Workgroup.Script.plays`), and two runs of it do the same, whatever else they find in memory.
-/

namespace PrimitiveShader

/-! ## Code whose way is clear -/

/-- The launch and the values in `known` determine the result. -/
def Instr.Settled (known : Value → Prop) : Instr → Prop
  | .const _ _ => True
  | .binary _ a b => known a ∧ known b
  | .intrinsic (.input _) => True
  | .intrinsic (.crossLane .elect) => True
  | _ => False

theorem Instr.Settled.mono {known known' : Value → Prop} {instr : Instr} (h : instr.Settled known)
    (hk : ∀ v, known v → known' v) : instr.Settled known' := by
  unfold Settled at h ⊢
  split at h
  · exact trivial
  · exact ⟨hk _ h.1, hk _ h.2⟩
  · exact trivial
  · exact trivial
  · exact h.elim

mutual

/-- All conditions are in `known`, and of the values that the node computes only those that are settled. -/
def Node.Clear (program : Program) (known : Value → Prop) : Node → Prop
  | .instr value => ∃ instr, program.instr value = .ok instr ∧ instr.isQuery = false ∧
    (known value → instr.Settled known)
  | .branch cond thenBlock elseBlock => known cond ∧ Block.Clear program known thenBlock ∧
    Block.Clear program known elseBlock
  | .loop _ => False
  | .leave => False

/-- Which operations a wave takes is settled by the values in `known`, and those are settled by the ones
that are computed elsewhere. -/
def Block.Clear (program : Program) (known : Value → Prop) : List Node → Prop
  | [] => True
  | node :: rest => node.Clear program known ∧ Block.Clear program known rest

end

theorem Block.clear_append {program : Program} {known : Value → Prop} {a b : Block} :
    Block.Clear program known (a ++ b) ↔ Block.Clear program known a ∧ Block.Clear program known b := by
  induction a with
  | nil => simp [Block.Clear]
  | cons node rest ih =>
    rw [List.cons_append, Block.Clear, Block.Clear, and_assoc]
    exact and_congr_right fun _ => ih

/-! ## Scripts -/

/-- Code without barriers that all waves run from a promise to another one, in segments. In each
segment the values of number `n` or more are new, and what is known of the older ones is promised. If
no thread can keep a promise, then nothing is said of the way from there. -/
inductive Workgroup.Course (group : Workgroup) (own : Ownership) :
    Nat → Promise → Block → Nat → Promise → Prop where
  | nil {n : Nat} {pre : Promise} : Course group own n pre [] n pre
  | cons {n n' n'' : Nat} {pre mid post : Promise} {block rest : Block} (known : Value → Prop)
      (h : ∀ id < group.numWaves, ∀ T, Setting.Keeps ⟨group, own, False⟩ id pre T →
        Block.Brings ⟨group, own, False⟩ id block (Setting.Keeps ⟨group, own, False⟩ id mid) T)
      (hbar : block.NoBarrier group.program)
      (hclear : (∃ i < group.launch.numLanes, ∃ t, pre i t) → Block.Clear group.program known block)
      (hknown : ∀ v, known v → v.index < n → ∀ i < group.launch.numLanes, ∀ t t', pre i t →
        pre i t' → t.lane.read v = t'.lane.read v)
      (hn : n ≤ n') (hbelow : ∀ v ∈ Block.values block, v.index < n')
      (hrest : Course group own n' mid rest n'' post) :
      Course group own n pre (block ++ rest) n'' post

/-- From a promise of all threads the waves can run a block from barrier to barrier, and in the end the
threads have reached the goal. Everything that is promised on the way is fixed beforehand. -/
inductive Workgroup.Script (group : Workgroup) (goal : (Nat → Thread) → Prop) :
    Nat → Ownership → Promise → Block → Prop where
  | last {n n' : Nat} {own : Ownership} {pre post : Promise} {block : Block}
      (h : group.Course own n pre block n' post)
      (hgoal : ∀ T : Nat → Thread, (∀ i < group.launch.numLanes, post i (T i)) → goal T) :
      Script group goal n own pre block
  | barrier {n n' n'' : Nat} {own : Ownership} {pre mid : Promise} {block rest : Block} {bar : Value}
      (own' : Ownership) (next : Promise) (h : group.Course own n pre block n' mid)
      (hinstr : group.program.instr bar = .ok (.intrinsic .barrier)) (hn : n' ≤ n'')
      (hnext : ∀ (T : Nat → Thread) (view : Nat → UInt8),
        (∀ i < group.launch.numLanes, mid i (T i)) →
        (∀ i < group.launch.numLanes, ∀ a, own a = none ∨ own a = some i → (T i).view a = view a) →
        ∀ i < group.launch.numLanes, next i ((T i).see view))
      (hrest : Script group goal n'' own' next rest) :
      Script group goal n own pre (block ++ .instr bar :: rest)

namespace Workgroup

variable {group : Workgroup} {own : Ownership} {n n' : Nat} {pre pre' post : Promise} {block : Block}
  {goal : (Nat → Thread) → Prop}

theorem brings_of_no_faults {id : Nat} {Q : (Nat → Thread) → Prop} {T : Nat → Thread}
    (h : Block.Brings ⟨group, own, False⟩ id block Q T) (faults : Prop) :
    Block.Brings ⟨group, own, faults⟩ id block Q T := by
  intro fuel lanes s hcrew
  have hcrew' : Crew ⟨group, own, False⟩ id lanes s T :=
    ⟨hcrew.count, hcrew.lane, hcrew.sized, hcrew.view, hcrew.primitives, hcrew.vertices, hcrew.space,
      hcrew.obeys, hcrew.share⟩
  have hrun := h fuel lanes s hcrew'
  rcases hlockstep : Block.lockstep group id fuel block
    ⟨Setting.launched ⟨group, own, False⟩ id, none, lanes⟩ s with ⟨φ, s'⟩ | ⟨error, s'⟩ | fault
  all_goals
    have heq : Block.lockstep (Setting.group ⟨group, own, faults⟩) id fuel block
      ⟨Setting.launched ⟨group, own, faults⟩ id, none, lanes⟩ s = _ := hlockstep
    rw [heq]
    rw [hlockstep] at hrun
  · obtain ⟨hexec, hleft, T', hcrew₁, hsteps, hQ⟩ := hrun
    exact ⟨hexec, hleft, T', ⟨hcrew₁.count, hcrew₁.lane, hcrew₁.sized, hcrew₁.view, hcrew₁.primitives,
      hcrew₁.vertices, hcrew₁.space, hcrew₁.obeys, hcrew₁.share⟩,
      ⟨hsteps.bytes, hsteps.cells, hsteps.primitives, hsteps.vertices, hsteps.allocation⟩, hQ⟩
  · cases error <;> exact hrun
  · exact hrun.elim

theorem Plays.of_stronger {faults : Prop} (h : group.Plays faults goal own pre block)
    (hpre : ∀ i < group.launch.numLanes, ∀ t, pre' i t → pre i t) : group.Plays faults goal own pre' block := by
  have hkeeps {id : Nat} {T : Nat → Thread} (hT : Setting.Keeps ⟨group, own, faults⟩ id pre' T) :
      Setting.Keeps ⟨group, own, faults⟩ id pre T := fun l hl =>
    hpre _ (Setting.mem_launched.mp hl).2 _ (hT l hl)
  cases h with
  | last hblock hbar hgoal => exact .last (fun id hid T hT => hblock id hid T (hkeeps hT)) hbar hgoal
  | barrier own' hblock hbar hinstr hrest =>
    exact .barrier own' (fun id hid T hT => hblock id hid T (hkeeps hT)) hbar hinstr hrest

theorem Course.brings (h : group.Course own n pre block n' post) :
    (∀ id < group.numWaves, ∀ T, Setting.Keeps ⟨group, own, False⟩ id pre T →
      Block.Brings ⟨group, own, False⟩ id block (Setting.Keeps ⟨group, own, False⟩ id post) T) ∧
      block.NoBarrier group.program := by
  induction h with
  | nil =>
    refine ⟨fun id _ T hT => .nil hT, fun v hv => ?_⟩
    simp [Block.values] at hv
  | cons known h hbar _ _ _ _ _ ih =>
    refine ⟨fun id hid T hT => .append ((h id hid T hT).mono fun T' hT' => ih.1 id hid T' hT'),
      fun v hv => ?_⟩
    rw [Block.values_append, List.mem_append] at hv
    exact hv.elim (hbar v) (ih.2 v)

theorem Script.plays (h : group.Script goal n own pre block) (faults : Prop) :
    group.Plays faults goal own pre block := by
  induction h with
  | last h hgoal =>
    exact .last (fun id hid T hT => brings_of_no_faults (h.brings.1 id hid T hT) faults) h.brings.2 hgoal
  | barrier own' next h hinstr hn hnext hrest ih =>
    refine .barrier (fun _ _ => own')
      (fun id hid T hT => brings_of_no_faults (h.brings.1 id hid T hT) faults) h.brings.2 hinstr
      fun T view hT hview => ih.of_stronger fun i hi t ht => ?_
    subst ht
    exact hnext T view hT hview i hi

theorem Script.prepend {mid : Promise} {rest : Block} (known : Value → Prop)
    (h : ∀ id < group.numWaves, ∀ T, Setting.Keeps ⟨group, own, False⟩ id pre T →
      Block.Brings ⟨group, own, False⟩ id block (Setting.Keeps ⟨group, own, False⟩ id mid) T)
    (hbar : block.NoBarrier group.program)
    (hclear : (∃ i < group.launch.numLanes, ∃ t, pre i t) → Block.Clear group.program known block)
    (hknown : ∀ v, known v → v.index < n → ∀ i < group.launch.numLanes, ∀ t t', pre i t →
      pre i t' → t.lane.read v = t'.lane.read v) (hn : n ≤ n') (hbelow : ∀ v ∈ Block.values block, v.index < n')
    (hrest : group.Script goal n' own mid rest) : group.Script goal n own pre (block ++ rest) := by
  cases hrest with
  | last hlast hgoal => exact .last (.cons known h hbar hclear hknown hn hbelow hlast) hgoal
  | barrier own' next hfirst hinstr hn' hnext hrest =>
    rw [← List.append_assoc]
    exact .barrier own' next (.cons known h hbar hclear hknown hn hbelow hfirst) hinstr hn' hnext hrest

end Workgroup

end PrimitiveShader
