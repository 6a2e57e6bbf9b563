import PrimitiveShader.Proofs.Thread.Instruction
import PrimitiveShader.Proofs.Wave.Mask

/-!
# Lanes served in turn, and operations across lanes

The lanes that are on are served in ascending order, each of them once (`Crew.serve`). A cross-lane
operation writes one register on each of them. `CrossLaneOp.Gives` says what it writes, as far as
anything depends on it: nothing is said about the lane that another lane names, and about sums.
-/

namespace PrimitiveShader

/-- A condition that can be read on all lanes that are on has a mask. -/
theorem Wave.maskOf_yields (w : Wave) (value : Value) {F : Prop} {T : Nat → Thread}
    (hlane : ∀ l ∈ w.exec.lanes, w.lanes[l]? = some (T l).lane)
    (hv : ∀ l ∈ w.exec.lanes, Yields F (fun _ => True) ((T l).lane.read value)) :
    Yields F (fun mask => (∀ l ∈ w.exec.lanes, ∃ a, (T l).lane.read value = .ok a) ∧ ∀ l, l ∈ mask.lanes ↔
        l ∈ w.exec.lanes ∧ ∃ a, (T l).lane.read value = .ok a ∧ a ≠ 0) (w.maskOf value) := by
  have hread : ∀ l ∈ w.exec.lanes, readRegister w.lanes l value = (T l).lane.read value := by
    intro l hl
    rw [readRegister, hlane l hl]
  have hmasks : Yields F (fun _ => True) (w.maskOf value) := by
    refine Yields.foldlM_keeps (fun _ l hl _ => Yields.bind_iff.mpr ?_) trivial
    rw [hread l hl]
    exact (hv l hl).mono fun _ _ _ => trivial
  refine hmasks.mono fun mask hm _ => ?_
  obtain ⟨hall, hmask⟩ := Wave.maskOf_eq_ok hm
  refine ⟨fun l hl => hread l hl ▸ hall l hl, fun l => ?_⟩
  rw [hmask l]
  exact and_congr_right fun hl => by rw [hread l hl]

namespace Crew

variable {l : Nat} {c : Setting} {id : Nat} {lanes : Array Lane} {s : Shared} {T : Nat → Thread}
  {Q : Nat → Thread → Prop} {mask : LaneMask} {E : RunError → Prop}

/-- A lane waits for its turn while those before it are served. -/
theorem not_mem_of_lanes_eq {before after : List Nat} (h : mask.lanes = before ++ l :: after) : l ∉ before := by
  intro hl
  have hlt := mask.lanes_pairwise_lt
  rw [h] at hlt
  exact Nat.lt_irrefl l ((List.pairwise_append.mp hlt).2.2 l hl l (by simp))

variable (h : Crew c id lanes s T)
include h

section

variable (hmask : mask.Below c.group.wave.size)
include hmask

/-- Serving the lanes of a set one after the other, where each step hands on the states. -/
theorem serve {f : Array Lane → Nat → Exec Shared (Array Lane)}
    (hstep : ∀ l ∈ mask.lanes, ∀ lanes₁ s₁ T₁, Crew c id lanes₁ s₁ T₁ → T₁ l = T l →
      (f lanes₁ l s₁).Ends E c.faults fun lanes₂ s₂ =>
        ∃ t', Change c id l lanes₁ lanes₂ s₁ s₂ t' ∧ Q l t') :
    (mask.lanes.foldlM f lanes s).Ends E c.faults (Served c id s T Q mask.lanes) := by
  refine .foldlM (fun before l after lanes₁ s₁ hlanes hserved => ?_) (Served.nil h)
  obtain ⟨T₁, hcrew, hsteps, hdone, hwait⟩ := hserved
  have hl : l ∈ mask.lanes := by simp [hlanes]
  have hstart : T₁ l = T l := hwait l (not_mem_of_lanes_eq hlanes)
  refine (hstep l hl lanes₁ s₁ T₁ hcrew hstart).mono fun lanes₂ s₂ _ ⟨t', hc, hQ⟩ => ?_
  exact .concat hcrew hsteps hdone hwait (hmask l hl) hc hQ

/-- Serving the lanes of a set one after the other without a change of their states. -/
theorem serve_forM {f : Nat → Exec Shared Unit}
    (hstep : ∀ l ∈ mask.lanes, ∀ s₁ T₁, Crew c id lanes s₁ T₁ → T₁ l = T l → (f l s₁).Ends E c.faults fun _ s₂ =>
        ∃ t', Change c id l lanes lanes s₁ s₂ t' ∧ Q l t') :
    (mask.lanes.forM f s).Ends E c.faults fun _ => Served c id s T Q mask.lanes lanes := by
  refine .forM (I := fun before s' => Served c id s T Q before lanes s')
    (fun before l after s₁ hlanes hserved => ?_) (Served.nil h)
  obtain ⟨T₁, hcrew, hsteps, hdone, hwait⟩ := hserved
  have hl : l ∈ mask.lanes := by simp [hlanes]
  have hstart : T₁ l = T l := hwait l (not_mem_of_lanes_eq hlanes)
  refine (hstep l hl s₁ T₁ hcrew hstart).mono fun _ s₂ _ ⟨t', hc, hQ⟩ => ?_
  exact .concat hcrew hsteps hdone hwait (hmask l hl) hc hQ

/-- Serving the lanes of a set one after the other without a look at what the waves share. -/
theorem serve_yields {f : Array Lane → Nat → Except Fault (Array Lane)}
    (hstep : ∀ l ∈ mask.lanes, ∀ lanes₁ T₁, Crew c id lanes₁ s T₁ → T₁ l = T l →
      Yields c.faults (fun lanes₂ => ∃ t', Change c id l lanes₁ lanes₂ s s t' ∧ Q l t') (f lanes₁ l)) :
    Yields c.faults (fun lanes' => Served c id s T Q mask.lanes lanes' s) (mask.lanes.foldlM f lanes) := by
  refine Yields.foldlM (I := fun before lanes' => Served c id s T Q before lanes' s)
    (fun before l after lanes₁ hlanes hserved => ?_) (Served.nil h)
  obtain ⟨T₁, hcrew, hsteps, hdone, hwait⟩ := hserved
  have hl : l ∈ mask.lanes := by simp [hlanes]
  have hstart : T₁ l = T l := hwait l (not_mem_of_lanes_eq hlanes)
  refine (hstep l hl lanes₁ T₁ hcrew hstart).mono fun lanes₂ _ ⟨t', hc, hQ⟩ => ?_
  exact .concat hcrew hsteps hdone hwait (hmask l hl) hc hQ

end

/-- A register that can be read, unless a fault is admitted. -/
theorem read_yields (hl : l < c.group.wave.size) {value : Value}
    (hv : c.faults ∨ value.index < c.program.definitions.size) :
    Yields c.faults (fun a => (T l).lane.read value = .ok a) (readRegister lanes l value) := by
  rw [h.readRegister_eq hl]
  rcases hv with hv | hv
  · cases (T l).lane.read value with
    | ok a => exact rfl
    | error fault => exact hv
  · obtain ⟨a, ha⟩ := (h.sized l hl).read hv
    rw [ha]
    exact rfl

end Crew

/-- What a cross-lane operation gives to lane `l` of the lanes that are on. -/
def CrossLaneOp.Gives (exec : LaneMask) (T : Nat → Thread) (l : Nat) (a : UInt64) :
    CrossLaneOp → Prop
  | .ballot value _ => ∃ mask : LaneMask, a = mask.bits ∧
      ∀ k, k ∈ mask.lanes ↔ k ∈ exec.lanes ∧ ∃ b, (T k).lane.read value = .ok b ∧ b ≠ 0
  | .maskedBitCount mask => ∃ bits, (T l).lane.read mask = .ok bits ∧
      a = UInt64.ofNat (Bits.count (bits &&& Bits.lowOnes l))
  | .readFirstLane value => ∃ k, exec.lowest? = some k ∧ (T k).lane.read value = .ok a
  | .elect => a = (exec.lowest? == some l).toUInt64
  | .readLane _ _ => True
  | .reduceAdd _ => True

namespace Crew

variable {c : Setting} {id : Nat} {w : Wave} {s : Shared} {T : Nat → Thread}

/-- Every lane that is on has the result of the operation in its register. -/
def Given (op : CrossLaneOp) (exec : LaneMask) (T : Nat → Thread) (value : Value) (l : Nat)
    (t : Thread) : Prop :=
  ∃ a, op.Gives exec T l a ∧ t = (T l).write value a

theorem updateLanes_yields (h : Crew c id w.lanes s T) (hexec : w.exec.Below c.group.wave.size)
    {Q : Nat → Thread → Prop} {f : Nat → Lane → Except Fault Lane}
    (hsized : ∀ l lane lane', lane.Sized c.program → f l lane = .ok lane' → lane'.Sized c.program)
    (hf : ∀ l ∈ w.exec.lanes, Yields c.faults (fun lane => Q l ((T l).withLane lane)) (f l (T l).lane)) :
    Yields c.faults (fun w' => Served c id s T Q w.exec.lanes w'.lanes s) (w.updateLanes f) := by
  obtain ⟨wid, launched, exec, pc, frames, lanes⟩ := w
  refine Yields.bind_iff.mpr (h.serve_yields hexec fun l hl lanes₁ T₁ hcrew hstart => ?_)
  refine hcrew.update_yields (hexec l hl) (hsized l) ?_
  rw [hstart]
  exact hf l hl

variable {op : CrossLaneOp} {value : Value}

theorem assign_yields (h : Crew c id w.lanes s T) (hexec : w.exec.Below c.group.wave.size) {f : Nat → UInt64}
    (hf : ∀ l ∈ w.exec.lanes, op.Gives w.exec T l (f l)) :
    Yields c.faults (fun w' => Served c id s T (Given op w.exec T value) w.exec.lanes w'.lanes s) (w.assign value f) :=
  h.updateLanes_yields hexec (fun l lane lane' hlane he => by cases he; exact hlane.write value (f l))
    fun l hl => ⟨f l, hf l hl, rfl⟩

variable (h : Crew c id w.lanes s T)
include h

theorem sumOf_yields (hexec : w.exec.Below c.group.wave.size)
    (hv : c.faults ∨ value.index < c.program.definitions.size) :
    Yields c.faults (fun _ => True) (w.sumOf value) := by
  refine Yields.foldlM (I := fun _ _ => True) (fun before l after sum hlanes _ => ?_) trivial
  have hl : l ∈ w.exec.lanes := by simp [hlanes]
  exact Yields.bind_iff.mpr ((h.read_yields (hexec l hl) hv).mono fun a _ _ => trivial)

theorem readLanes_yields (hexec : w.exec.Below c.group.wave.size)
    {source index : Value} (hs : c.faults ∨ source.index < c.program.definitions.size)
    (hi : c.faults ∨ index.index < c.program.definitions.size) : Yields c.faults
      (fun w' => Served c id s T (Given (.readLane source index) w.exec T value) w.exec.lanes w'.lanes s)
      (Wave.readLanes value source index w) := by
  obtain ⟨wid, launched, exec, pc, frames, lanes⟩ := w
  refine Yields.bind_iff.mpr (h.serve_yields hexec fun l hl lanes₁ T₁ hcrew hstart => ?_)
  have hwrite : ∀ a, ∃ t', Change c id l lanes₁ (writeRegister lanes₁ l value a) s s t' ∧
      Given (.readLane source index) exec T value l t' := fun a =>
    ⟨_, .write hcrew (hexec l hl) value a, a, trivial, by rw [hstart]⟩
  refine Yields.bind_iff.mpr ((hcrew.read_yields (hexec l hl) hi).mono fun from_ _ _ => ?_)
  split
  · rename_i hlt
    rw [hcrew.count] at hlt
    exact Yields.bind_iff.mpr ((hcrew.read_yields hlt hs).mono fun a _ _ => hwrite a)
  · exact hwrite 0

/-- A cross-lane operation on lanes that are on. -/
theorem crossLane_yields (hexec : w.exec.Below c.group.wave.size)
    (hsome : w.exec.isEmpty = false) (value : Value)
    (hop : c.faults ∨ ∀ v ∈ op.operands, v.index < c.program.definitions.size) :
    Yields c.faults (fun w' => Served c id s T (Given op w.exec T value) w.exec.lanes w'.lanes s)
      (w.crossLane c.group value op) := by
  have hread : ∀ v ∈ op.operands, c.faults ∨ v.index < c.program.definitions.size :=
    fun v hv => hop.imp_right fun hall => hall v hv
  have hany : ∀ v ∈ op.operands, ∀ l ∈ w.exec.lanes,
      Yields c.faults (fun a => (T l).lane.read v = .ok a) ((T l).lane.read v) := by
    intro v hv l hl
    rw [← h.readRegister_eq (hexec l hl)]
    exact (h.read_yields (hexec l hl) (hread v hv)).mono fun a _ ha => by
      rw [h.readRegister_eq (hexec l hl)]; exact ha
  cases op with
  | ballot predicate type =>
    refine Yields.bind_iff.mpr ((Wave.maskOf_yields _ _ (fun l hl => h.lane l (hexec l hl)) fun l hl =>
      (hany predicate (by simp [CrossLaneOp.operands]) l hl).mono fun _ _ _ => trivial).mono fun mask _ hmask => ?_)
    exact h.assign_yields hexec fun l _ => ⟨mask, rfl, hmask.2⟩
  | maskedBitCount mask =>
    refine h.updateLanes_yields hexec (fun l lane lane' hlane he => ?_) fun l hl => ?_
    · obtain ⟨bits, -, he⟩ := except_bind_eq_ok.mp he
      cases he
      exact hlane.write value _
    · exact Yields.bind_iff.mpr ((hany mask (by simp [CrossLaneOp.operands]) l hl).mono
        fun bits _ hbits => ⟨_, ⟨bits, hbits, rfl⟩, rfl⟩)
  | readLane source index =>
    exact h.readLanes_yields hexec (hread source (by simp [CrossLaneOp.operands]))
      (hread index (by simp [CrossLaneOp.operands]))
  | readFirstLane source =>
    obtain ⟨k, hk, hlow⟩ := LaneMask.exists_lowest hsome
    simp only [Wave.crossLane, hlow, Option.getD_some]
    refine Yields.bind_iff.mpr ((h.read_yields (hexec k hk)
      (hread source (by simp [CrossLaneOp.operands]))).mono fun a _ ha => ?_)
    exact h.assign_yields hexec fun l _ => ⟨k, hlow, ha⟩
  | elect => exact h.assign_yields hexec fun l _ => rfl
  | reduceAdd source =>
    have hs := hread source (by simp [CrossLaneOp.operands])
    have htype : Yields c.faults (fun _ => True) (c.group.program.typeOf source) := by
      cases ht : c.group.program.typeOf source with
      | ok type => exact trivial
      | error fault =>
        refine hs.elim (fun hf => hf) fun hlt => ?_
        have hlt' : source.index < c.group.program.definitions.size := hlt
        simp [Program.typeOf, Program.definition, Program.definition?, hlt', Except.map] at ht
    refine Yields.bind_iff.mpr (htype.mono fun type _ _ => ?_)
    refine Yields.bind_iff.mpr ((h.sumOf_yields hexec hs).mono fun sum _ _ => ?_)
    exact h.assign_yields hexec fun l _ => trivial

end Crew

end PrimitiveShader
