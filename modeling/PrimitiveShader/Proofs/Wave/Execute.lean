import Mathlib.Algebra.Ring.Nat
import PrimitiveShader.Executor.Step

/-!
# What an instruction can do to a wave

An instruction looks at the number of its wave, at the lanes that are on and at their states, and it
changes nothing but the states (`Wave.execute_of_same`). Where the wave stands and which branches and
loops are open is the business of the control operations.

A turn is one operation after the other (`Wave.turn_succ`).
-/

namespace PrimitiveShader

namespace Outcome

variable {σ α β : Type}

/-- Changes the value of a successful outcome. -/
def map (f : α → β) : Outcome σ α → Outcome σ β
  | done a s => done (f a) s
  | failed error s => failed error s
  | faulted fault => faulted fault

theorem map_eq_done_iff {f : α → β} {o : Outcome σ α} {b : β} {s : σ} :
    o.map f = done b s ↔ ∃ a, o = done a s ∧ f a = b := by
  cases o with
  | done a t =>
    simp only [map, done.injEq]
    exact ⟨fun ⟨hb, hs⟩ => ⟨a, ⟨rfl, hs⟩, hb⟩, fun ⟨_, ⟨ha, hs⟩, hb⟩ => ⟨ha ▸ hb, hs⟩⟩
  | failed error t => simp [map]
  | faulted fault => simp [map]

theorem map_congr {f g : α → β} {o : Outcome σ α} (h : ∀ a s, o = done a s → f a = g a) : o.map f = o.map g := by
  cases o with
  | done a s => simp only [map, h a s rfl]
  | failed error s => rfl
  | faulted fault => rfl

end Outcome

namespace Exec

variable {σ α β : Type}

theorem bind_apply (a : Exec σ α) (k : α → Exec σ β) (s : σ) : (a >>= k) s = match a s with
      | .done x t => k x t
      | .failed error t => .failed error t
      | .faulted fault => .faulted fault := rfl

theorem pure_apply (a : α) (s : σ) : (Pure.pure a : Exec σ α) s = .done a s := rfl

theorem liftM_ok (a : α) : (liftM (Except.ok a : Except Fault α) : Exec σ α) = Pure.pure a := rfl

theorem lift_eq_done_iff {r : Except Fault α} {a : α} {s s' : σ} :
    (lift r : Exec σ α) s = .done a s' ↔ r = .ok a ∧ s = s' := by
  cases r with
  | ok b =>
    simp only [lift, Outcome.done.injEq, Except.ok.injEq]
  | error fault => simp [lift]

theorem lift_map (f : α → β) (r : Except Fault α) (s : σ) :
    (lift (r.map f) : Exec σ β) s = ((lift r : Exec σ α) s).map f := by
  cases r <;> rfl

end Exec

namespace Wave

variable {op : CodeOp} {group : Workgroup} {w u : Wave}

section

variable (he : w.exec = u.exec)
include he

variable (hl : w.lanes = u.lanes)
include hl

theorem maskOf_of_same (value : Value) : w.maskOf value = u.maskOf value := by
  simp only [maskOf, he, hl]

theorem sumOf_of_same (value : Value) : w.sumOf value = u.sumOf value := by
  simp only [sumOf, he, hl]

theorem updateLanes_of_same (f : Nat → Lane → Except Fault Lane) :
    w.updateLanes f = (u.updateLanes f).map fun u' => { w with lanes := u'.lanes } := by
  obtain ⟨id, launched, exec, pc, frames, lanes⟩ := w
  obtain ⟨id', launched', exec', pc', frames', lanes'⟩ := u
  obtain rfl : exec = exec' := he
  obtain rfl : lanes = lanes' := hl
  simp only [updateLanes]
  cases exec.lanes.foldlM (fun lanes lane => lanes.modifyM lane (f lane)) lanes <;> rfl

theorem readLanes_of_same (value source index : Value) :
    readLanes value source index w = (readLanes value source index u).map fun u' => { w with lanes := u'.lanes } := by
  obtain ⟨id, launched, exec, pc, frames, lanes⟩ := w
  obtain ⟨id', launched', exec', pc', frames', lanes'⟩ := u
  obtain rfl : exec = exec' := he
  obtain rfl : lanes = lanes' := hl
  simp only [readLanes]
  generalize (exec.lanes.foldlM _ lanes : Except Fault (Array Lane)) = r
  cases r <;> rfl

theorem crossLane_of_same (value : Value) (op : CrossLaneOp) :
    w.crossLane group value op = (u.crossLane group value op).map fun u' => { w with lanes := u'.lanes } := by
  have assign_of_same (f : Nat → UInt64) :
      w.assign value f = (u.assign value f).map fun u' => { w with lanes := u'.lanes } :=
    updateLanes_of_same he hl _
  cases op with
  | ballot predicate type =>
    simp only [crossLane, maskOf_of_same he hl]
    cases u.maskOf predicate with
    | ok mask => exact assign_of_same _
    | error fault => rfl
  | maskedBitCount mask => exact updateLanes_of_same he hl _
  | readLane source index => exact readLanes_of_same he hl value source index
  | readFirstLane source =>
    have hr : readRegister w.lanes (w.exec.lowest?.getD 64) source =
        readRegister u.lanes (u.exec.lowest?.getD 64) source := by rw [he, hl]
    simp only [crossLane, hr]
    cases readRegister u.lanes (u.exec.lowest?.getD 64) source with
    | ok data => exact assign_of_same _
    | error fault => rfl
  | elect =>
    have hf : w.exec.lowest? = u.exec.lowest? := by rw [he]
    simp only [crossLane, hf]
    exact assign_of_same _
  | reduceAdd source =>
    simp only [crossLane, sumOf_of_same he hl]
    cases group.program.typeOf source with
    | error fault => rfl
    | ok type =>
      cases u.sumOf source with
      | ok sum => exact assign_of_same _
      | error fault => rfl

end

theorem loadShared_of_same (hid : w.id = u.id) (he : w.exec = u.exec) (hl : w.lanes = u.lanes)
    (value addr : Value) (base : UInt32) (type : ScalarType) (s : Shared) : w.loadShared group value addr base type s =
      (u.loadShared group value addr base type s).map fun u' => { w with lanes := u'.lanes } := by
  obtain ⟨id, launched, exec, pc, frames, lanes⟩ := w
  obtain ⟨id', launched', exec', pc', frames', lanes'⟩ := u
  obtain rfl : id = id' := hid
  obtain rfl : exec = exec' := he
  obtain rfl : lanes = lanes' := hl
  simp only [loadShared]
  generalize (exec.lanes.foldlM _ lanes : Exec Shared (Array Lane)) = a
  simp only [Exec.bind_apply]
  cases a s <;> rfl

/-- An instruction depends on the number of its wave, on the lanes that are on and on their states,
and changes only the states. -/
theorem execute_of_same (hid : w.id = u.id) (he : w.exec = u.exec) (hl : w.lanes = u.lanes)
    (value : Value) (instr : Instr) (s : Shared) : w.execute group value instr s =
      (u.execute group value instr s).map fun u' => { w with lanes := u'.lanes } := by
  have lift_updateLanes (f : Nat → Lane → Except Fault Lane) : (Exec.lift (w.updateLanes f) : Exec Shared Wave) s =
        ((Exec.lift (u.updateLanes f) : Exec Shared Wave) s).map fun u' => { w with lanes := u'.lanes } := by
    rw [updateLanes_of_same he hl, Exec.lift_map]
  have keep {a b : Exec Shared Unit} (h : a = b) : (do a; return w : Exec Shared Wave) s =
        ((do b; return u : Exec Shared Wave) s).map fun u' => { w with lanes := u'.lanes } := by
    subst h
    simp only [Exec.bind_apply]
    cases a s with
    | done x t =>
      change Outcome.done w t = .done { w with lanes := u.lanes } t
      rw [← hl]
    | failed error t => rfl
    | faulted fault => rfl
  have perLane : (Exec.lift (w.updateLanes fun lane =>
        Lane.execute group (laneId group w.id lane) value instr) : Exec Shared Wave) s =
      ((Exec.lift (u.updateLanes fun lane =>
        Lane.execute group (laneId group u.id lane) value instr) : Exec Shared Wave) s).map
          fun u' => { w with lanes := u'.lanes } := by
    rw [← hid]
    exact lift_updateLanes _
  cases instr with
  | intrinsic op =>
    cases op with
    | crossLane op => simp only [execute, crossLane_of_same he hl, Exec.lift_map]
    | loadShared addr base type => exact loadShared_of_same hid he hl value addr base type s
    | storeShared data addr base => exact keep (by simp only [storeShared, hid, he, hl])
    | barrier => rfl
    | queryAdd stream count => exact keep (by simp only [queryAdd, he, hl])
    | allocate vertices primitives => exact keep (by simp only [allocate, hid, he, hl])
    | exportPrimitive word => exact keep (by simp only [exportPrimitives, hid, he, hl])
    | exportVertex => exact keep (by simp only [exportVertices, hid, he, hl])
    | geometry op => rfl
    | input input => exact perLane
    | storeOutput slot data => exact perLane
  | const | undef | unary | binary | select | convert | extract | loadVar | storeVar => exact perLane

/-- An instruction changes only the states of the lanes. -/
theorem execute_eq_done {value : Value} {instr : Instr} {s s' : Shared} {w' : Wave}
    (h : w.execute group value instr s = .done w' s') : w' = { w with lanes := w'.lanes } := by
  rw [execute_of_same rfl rfl rfl] at h
  obtain ⟨u', -, rfl⟩ := Outcome.map_eq_done_iff.mp h
  rfl

/-! ## Turns -/

/-- A turn of a wave as a step on what the waves share. -/
def turn (group : Workgroup) (budget : Nat) (w : Wave) : Exec Shared Pause := run group budget w

theorem turn_of_code_eq_none (h : group.executable.code[w.pc]? = none) (budget : Nat) :
    w.turn group budget = pure ⟨w, budget, .finished⟩ := by
  funext s
  unfold turn run
  simp only [h]
  rfl

theorem turn_zero (h : group.executable.code[w.pc]? = some op) : w.turn group 0 = Exec.fail (.stepLimit w.id) := by
  funext s
  unfold turn run
  simp only [h]
  rfl

theorem turn_succ (h : group.executable.code[w.pc]? = some op) (budget : Nat) :
    w.turn group (budget + 1) = (do
      let (w', atBarrier) ← w.step group op
      if atBarrier then return ⟨w', budget, .barrier⟩ else w'.turn group budget) := by
  funext s
  rw [Exec.bind_apply]
  conv => lhs; unfold turn run
  simp only [h]
  cases w.step group op s with
  | done next t =>
    obtain ⟨w', atBarrier⟩ := next
    cases atBarrier <;> rfl
  | failed error t => rfl
  | faulted fault => rfl

end Wave

end PrimitiveShader
