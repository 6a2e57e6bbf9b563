import PrimitiveShader.Proofs.Wave.Execute

/-!
# Instructions and the control stack

Only control operations look at the control stack of a wave. An instruction may break other
guarantees, but not the one that branches and loops are balanced (`Wave.balanced_execute`).
-/

namespace PrimitiveShader

/-! ## Computations that leave the control stack alone -/

section

variable {σ α β : Type}

/-- The computation does not end with a fault of the control stack. -/
class Balanced (r : Except Fault α) : Prop where
  ne : r ≠ .error .controlStack

/-- The step does not end with a fault of the control stack. -/
class Exec.Balanced (x : Exec σ α) : Prop where
  ne : ∀ s, x s ≠ .faulted .controlStack

namespace Balanced

instance (a : α) : Balanced (.ok a) := ⟨by simp⟩

instance : Balanced (.error .outOfRange : Except Fault α) := ⟨by simp⟩

instance : Balanced (.error .vertexCount : Except Fault α) := ⟨by simp⟩

instance : Balanced (.error .unknownVariable : Except Fault α) := ⟨by simp⟩

instance : Balanced (throw .shiftTooWide : Except Fault α) := ⟨by simp [throw, throwThe, MonadExceptOf.throw]⟩

instance (a : α) : Balanced (pure a : Except Fault α) := ⟨by simp [pure, Except.pure]⟩

instance (p : Prop) [Decidable p] (r r' : Except Fault α) [Balanced r] [Balanced r'] :
    Balanced (if p then r else r') := by
  split <;> infer_instance

instance (r : Except Fault α) (k : α → Except Fault β) [h : Balanced r] [hk : ∀ a, Balanced (k a)] :
    Balanced (r >>= k) := by
  cases r with
  | ok a => exact hk a
  | error fault => exact ⟨fun he => h.ne (by cases he; rfl)⟩

instance (r : Except Fault α) (f : α → β) [h : Balanced r] : Balanced (r.map f) := by
  cases r with
  | ok a => exact inferInstanceAs (Balanced (.ok (f a)))
  | error fault => exact ⟨fun he => h.ne (by cases he; rfl)⟩

instance (xs : List α) (f : β → α → Except Fault β) [h : ∀ b a, Balanced (f b a)] (start : β) :
    Balanced (xs.foldlM f start) := by
  induction xs generalizing start with
  | nil => exact inferInstanceAs (Balanced (.ok start))
  | cons a rest ih =>
    rw [List.foldlM_cons]
    infer_instance

end Balanced

namespace Exec.Balanced

instance (p : Prop) [Decidable p] (x y : Exec σ α) [x.Balanced] [y.Balanced] :
    Exec.Balanced (if p then x else y) := by
  split <;> infer_instance

instance : Exec.Balanced (Exec.get : Exec σ σ) := ⟨by simp [Exec.get]⟩

instance (a : α) : Exec.Balanced (Pure.pure a : Exec σ α) := ⟨by simp [Exec.pure_apply]⟩

instance (error : RunError) : Exec.Balanced (Exec.fail error : Exec σ α) := ⟨by simp [Exec.fail]⟩

instance (f : σ → σ) : Exec.Balanced (Exec.update f) := ⟨by simp [Exec.update]⟩

instance (r : Except Fault α) [h : PrimitiveShader.Balanced r] : Exec.Balanced (Exec.lift r : Exec σ α) := by
  cases r with
  | ok a => exact ⟨by simp [Exec.lift]⟩
  | error fault => exact ⟨fun s he => h.ne (by cases he; rfl)⟩

instance (fault : Fault) [PrimitiveShader.Balanced (.error fault : Except Fault α)] :
    Exec.Balanced (Exec.fault fault : Exec σ α) :=
  inferInstanceAs (Exec.Balanced (Exec.lift (.error fault)))

instance (r : Except Fault α) [PrimitiveShader.Balanced r] : Exec.Balanced (liftM r : Exec σ α) :=
  inferInstanceAs (Exec.Balanced (Exec.lift r))

instance (x : Exec σ α) (k : α → Exec σ β) [h : x.Balanced] [hk : ∀ a, (k a).Balanced] : (x >>= k).Balanced := by
  refine ⟨fun s => ?_⟩
  rw [Exec.bind_apply]
  cases hx : x s with
  | done a t => exact (hk a).ne t
  | failed error t => simp
  | faulted fault =>
    intro he
    cases he
    exact h.ne s hx

/-- Nothing runs behind a failure. -/
instance (error : RunError) (k : α → Exec σ β) : ((Exec.fail error : Exec σ α) >>= k).Balanced :=
  inferInstanceAs (Exec.fail error : Exec σ β).Balanced

instance (xs : List α) (f : β → α → Exec σ β) [h : ∀ b a, (f b a).Balanced] (start : β) :
    (xs.foldlM f start).Balanced := by
  induction xs generalizing start with
  | nil => exact inferInstanceAs (Exec.Balanced (Pure.pure start))
  | cons a rest ih =>
    rw [List.foldlM_cons]
    infer_instance

instance (xs : List α) (f : α → Exec σ PUnit) [h : ∀ a, (f a).Balanced] : (xs.forM f).Balanced := by
  induction xs with
  | nil => exact inferInstanceAs (Exec.Balanced (Pure.pure ()))
  | cons a rest ih => exact inferInstanceAs (Exec.Balanced (f a >>= fun _ => rest.forM f))

instance (x : Exec SharedMemory α) [h : x.Balanced] : (Shared.onMemory x).Balanced := by
  refine ⟨fun s => ?_⟩
  unfold Shared.onMemory
  cases hx : x s.memory with
  | done a m => simp
  | failed error m => simp
  | faulted fault =>
    intro he
    cases he
    exact h.ne _ hx

instance (f : WorkgroupResult → WorkgroupResult) : (Shared.onResult f).Balanced :=
  inferInstanceAs (Exec.update _).Balanced

end Exec.Balanced

end

/-! ## Memory -/

namespace SharedMemory

instance (lane addr len size : Nat) : (checkRange lane addr len size).Balanced := by
  refine ⟨fun m => ?_⟩
  unfold checkRange
  split
  · simp
  · split <;> simp

instance (wave addr : Nat) : (loadByte wave addr).Balanced := by
  refine ⟨fun m => ?_⟩
  unfold loadByte
  grind

instance (writer : Writer) (addr : Nat) : (claimByte writer addr).Balanced := by
  refine ⟨fun m => ?_⟩
  unfold claimByte
  grind

instance (i : Nat) : Balanced (checkByte i) := by
  refine ⟨?_⟩
  unfold checkByte
  split <;> simp

instance (wave addr n i : Nat) : (loadBytes wave addr n i).Balanced := by
  induction n generalizing i with
  | zero => exact inferInstanceAs (Exec.Balanced (pure 0))
  | succ n ih =>
    unfold loadBytes
    infer_instance

instance (writer : Writer) (addr : Nat) (value : UInt64) (n i : Nat) :
    (storeBytes writer addr value n i).Balanced := by
  induction n generalizing i with
  | zero => exact inferInstanceAs (Exec.Balanced (pure ()))
  | succ n ih =>
    unfold storeBytes writeByte
    infer_instance

end SharedMemory

/-! ## Lanes -/

section

variable {group : Workgroup} {id : LaneId} {lane : Lane}

instance (program : Program) (value : Value) : Balanced (program.definition value) := by
  unfold Program.definition
  split <;> infer_instance

instance (program : Program) (value : Value) : Balanced (program.typeOf value) :=
  inferInstanceAs (Balanced ((program.definition value).map _))

instance (program : Program) (value : Value) : Balanced (program.instr value) :=
  inferInstanceAs (Balanced ((program.definition value).map _))

instance (i : Nat) (indices : List UInt32) : Balanced (ExportWord.packIndices i indices) := by
  induction indices generalizing i with
  | nil => exact inferInstanceAs (Balanced (.ok 0))
  | cons index rest ih =>
    unfold ExportWord.packIndices
    split
    · infer_instance
    · exact ⟨by simp⟩

instance (indices : List UInt32) (edgeFlags : Option (List Bool)) (isNull : Bool) :
    Balanced (ExportWord.pack indices edgeFlags isNull) := by
  unfold ExportWord.pack
  split
  · infer_instance
  · exact inferInstanceAs (Balanced (.error .vertexCount : Except Fault ExportWord))

instance (input : LaneInput) : Balanced (input.eval group id) := by
  cases input <;> simp only [LaneInput.eval] <;> (try split) <;> infer_instance

namespace Lane

instance (value : Value) : Balanced (lane.read value) := by
  unfold read
  split <;> infer_instance

instance (instr : Instr) : Balanced (lane.compute group id instr) := by
  cases instr with
  | loadVar var =>
    simp only [compute, readVar]
    split <;> infer_instance
  | intrinsic op => cases op <;> simp only [compute] <;> infer_instance
  | _ =>
    simp only [compute]
    infer_instance

instance (value : Value) (instr : Instr) : Balanced (lane.execute group id value instr) := by
  have hcompute : Balanced (lane.compute group id instr >>= fun data => .ok (lane.write value data)) := inferInstance
  cases instr with
  | storeVar var a =>
    have hwrite (data : UInt64) : Balanced (lane.writeVar var data) := by
      unfold writeVar
      infer_instance
    exact inferInstanceAs (Balanced (lane.read a >>= lane.writeVar var))
  | intrinsic op =>
    cases op with
    | storeOutput slot a =>
      unfold execute
      infer_instance
    | _ => exact hcompute
  | _ => exact hcompute

end Lane

end

/-! ## Waves -/

instance (lanes : Array Lane) (lane : Nat) (value : Value) : Balanced (readRegister lanes lane value) := by
  unfold readRegister
  split <;> infer_instance

namespace Wave

variable {group : Workgroup} (w : Wave)

instance (value : Value) : Balanced (w.maskOf value) := by
  unfold maskOf
  infer_instance

instance (value : Value) : Balanced (w.sumOf value) := by
  unfold sumOf
  infer_instance

instance (lanes : Array Lane) (l : Nat) (f : Lane → Except Fault Lane) [h : ∀ lane, Balanced (f lane)] :
    Balanced (lanes.modifyM l f) := by
  unfold Array.modifyM
  split <;> infer_instance

instance (f : Nat → Lane → Except Fault Lane) [h : ∀ l lane, Balanced (f l lane)] : Balanced (w.updateLanes f) := by
  unfold updateLanes
  infer_instance

instance (value : Value) (f : Nat → UInt64) : Balanced (w.assign value f) := by
  unfold assign
  infer_instance

instance (value source index : Value) : Balanced (w.readLanes value source index) := by
  simp only [readLanes]
  infer_instance

instance (value : Value) (op : CrossLaneOp) : Balanced (w.crossLane group value op) := by
  cases op <;> simp only [crossLane] <;> infer_instance

instance (base : UInt32) (offset : UInt64) : Balanced (address base offset) := by
  refine ⟨?_⟩
  unfold address
  split <;> simp

/-- No instruction breaks the balance of branches and loops; barriers are not run this way. -/
theorem balanced_execute (value : Value) {instr : Instr} (h : instr ≠ .intrinsic .barrier) :
    (w.execute group value instr).Balanced := by
  have hlane : (Exec.lift (w.updateLanes fun lane =>
    Lane.execute group (laneId group w.id lane) value instr) : Exec Shared Wave).Balanced := inferInstance
  cases instr with
  | intrinsic op =>
    cases op with
    | barrier => exact absurd rfl h
    | input input => exact hlane
    | storeOutput slot data => exact hlane
    | queryAdd stream count =>
      simp only [execute, queryAdd]
      by_cases hstream : stream.toNat < 4 <;> simp only [hstream, ↓reduceDIte] <;> infer_instance
    | allocate vertices primitives =>
      simp only [execute, allocate]
      by_cases hid : w.id = 0 <;> simp only [hid, ↓reduceIte] <;> infer_instance
    | _ =>
      simp only [execute, loadShared, storeShared, exportPrimitives, exportVertices, SharedMemory.load,
        SharedMemory.store]
      infer_instance
  | _ => exact hlane

end Wave

end PrimitiveShader
