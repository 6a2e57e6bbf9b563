import PrimitiveShader.Proofs.Memory.Share

/-!
# Runs on memories with the same share

What a workgroup does depends on its share of the memory and on nothing else there. Two waves in the same state
take each operation side by side on memories with the same share (`Wave.step_agrees`), and so do the workgroups
to which they belong (`Workgroup.rounds_agrees`). Where no instruction loads from memory, the bytes need not be
the same, only the accesses since the last barrier.

A launch begins behind a barrier, where no access is remembered. So a run shows nothing of the runs before it
but the bytes that they have left (`ComputeUnit.run_ignores_access_history`).
-/

namespace PrimitiveShader

/-- The same share of the memory, and the same result so far. -/
structure Shared.SameShare (size : Nat) (bytes : Prop) (s s' : Shared) : Prop where
  memory : s.memory.SameShare size bytes s'.memory
  result : s'.result = s.result

/-- Whether an instruction reads shared memory. -/
def Instr.isLoad : Instr → Bool
  | .intrinsic (.loadShared _ _ _) => true
  | _ => false

namespace Shared.SameShare

variable {size : Nat} {bytes : Prop} {s s' : Shared}

variable (h : s.SameShare size bytes s')
include h

theorem meet : s.meet.SameShare size bytes s'.meet where
  memory := h.memory.sync
  result := by simp only [Shared.meet, h.result]

theorem onMemory {α : Type} {step : Exec SharedMemory α}
    (hstep : (step s.memory).Agree (SharedMemory.SameShare size bytes) (step s'.memory)) :
    (Shared.onMemory step s).Agree (SameShare size bytes) (Shared.onMemory step s') := by
  unfold Shared.onMemory
  obtain ⟨a, m, _, m', hs, hs', rfl, hm⟩ | ⟨error, m, m', hs, hs', hm⟩ | ⟨fault, hs, hs'⟩ :=
    Outcome.Twin.elim hstep <;> rw [hs, hs']
  · exact ⟨rfl, hm, h.result⟩
  · exact ⟨rfl, hm, h.result⟩
  · rfl

theorem onResult (f : WorkgroupResult → WorkgroupResult) :
    (Shared.onResult f s).Agree (SameShare size bytes) (Shared.onResult f s') :=
  ⟨rfl, h.memory, congrArg f h.result⟩

end Shared.SameShare

/-! ## Instructions -/

namespace Wave

variable {group : Workgroup} {bytes : Prop} {s s' : Shared}

theorem loadShared_agrees (h : s.SameShare group.program.sharedSize bytes s') (hbytes : bytes) (w : Wave)
    (value addr : Value) (base : UInt32) (type : ScalarType) :
    (w.loadShared group value addr base type s).Agree (Shared.SameShare group.program.sharedSize bytes)
      (w.loadShared group value addr base type s') := by
  obtain ⟨id, launched, exec, pc, frames, lanes⟩ := w
  refine .bind (.foldlM (fun l _ lanes s s' hs => ?_) h) fun lanes t t' ht => ⟨rfl, ht⟩
  refine .bind (.lift _ hs) fun offset t t' ht => ?_
  refine .bind (.lift _ ht) fun at_ t t' ht => ?_
  refine .bind (ht.onMemory (ht.memory.load hbytes)) fun data t t' ht => ?_
  exact .bind (ht.onResult _) fun _ t t' ht => ⟨rfl, ht⟩

theorem storeShared_agrees (h : s.SameShare group.program.sharedSize bytes s') (w : Wave)
    (data addr : Value) (base : UInt32) :
    (w.storeShared group data addr base s).Agree (Shared.SameShare group.program.sharedSize bytes)
      (w.storeShared group data addr base s') := by
  refine .bind (.lift _ h) fun type t t' ht => .forM (fun l _ s s' hs => ?_) ht
  refine .bind (.lift _ hs) fun offset t t' ht => ?_
  refine .bind (.lift _ ht) fun at_ t t' ht => ?_
  refine .bind (.lift _ ht) fun a t t' ht => ?_
  exact .bind (ht.onMemory ht.memory.store) fun _ t t' ht => ht.onResult _

variable {size : Nat}

section

variable (h : s.SameShare size bytes s')
include h

theorem queryAdd_agrees (w : Wave) (stream : UInt8) (count : Value) :
    (w.queryAdd stream count s).Agree (Shared.SameShare size bytes) (w.queryAdd stream count s') := by
  refine .forM (fun l _ s s' hs => ?_) h
  split
  · exact .bind (.lift _ hs) fun a t t' ht => ht.onResult _
  · rfl

theorem allocate_agrees (w : Wave) (vertices primitives : Value) :
    (w.allocate vertices primitives s).Agree (Shared.SameShare size bytes) (w.allocate vertices primitives s') := by
  refine .forM (fun l _ s s' hs => ?_) h
  by_cases hid : w.id = 0
  · simp only [hid, ↓reduceIte]
    refine Outcome.Twin.bind (x := Exec.get) ?_
    change Outcome.Agree _ ((if s.result.allocation.isSome = true then _ else _ : Exec Shared Unit) s)
      ((if s'.result.allocation.isSome = true then _ else _ : Exec Shared Unit) s')
    rw [hs.result]
    split
    · exact ⟨rfl, hs⟩
    · refine .bind (.lift _ hs) fun v t t' ht => ?_
      exact .bind (.lift _ ht) fun a t t' ht => ht.onResult _
  · simp only [hid, ↓reduceIte]
    exact ⟨rfl, hs⟩

end

variable (h : s.SameShare group.program.sharedSize bytes s')
include h

/-- An instruction ends in the same way on both sides. -/
theorem execute_agrees (w : Wave) (value : Value) {instr : Instr} (hload : instr.isLoad → bytes) :
    (w.execute group value instr s).Agree (Shared.SameShare group.program.sharedSize bytes)
      (w.execute group value instr s') := by
  have lift (r : Except Fault Wave) : ((Exec.lift r : Exec Shared Wave) s).Agree
      (Shared.SameShare group.program.sharedSize bytes) ((Exec.lift r : Exec Shared Wave) s') := .lift r h
  cases instr with
  | intrinsic op =>
    cases op with
    | loadShared addr base type => exact loadShared_agrees h (hload rfl) w value addr base type
    | storeShared data addr base =>
      exact .bind (storeShared_agrees h w data addr base) fun _ _ _ ht => ⟨rfl, ht⟩
    | queryAdd stream count => exact .bind (queryAdd_agrees h w stream count) fun _ _ _ ht => ⟨rfl, ht⟩
    | allocate vertices primitives =>
      exact .bind (allocate_agrees h w vertices primitives) fun _ _ _ ht => ⟨rfl, ht⟩
    | exportPrimitive word =>
      refine .bind (.forM (fun l _ s s' hs => ?_) h) fun _ _ _ ht => ⟨rfl, ht⟩
      exact .bind (.lift _ hs) fun a t t' ht => ht.onResult _
    | exportVertex => exact .bind (.forM (fun l _ s s' hs => hs.onResult _) h) fun _ _ _ ht => ⟨rfl, ht⟩
    | barrier => rfl
    | geometry op => exact ⟨rfl, h⟩
    | crossLane op => exact lift _
    | input input => exact lift _
    | storeOutput slot data => exact lift _
  | const | undef | unary | binary | select | convert | extract | loadVar | storeVar => exact lift _

/-! ## Turns -/

theorem stepInstr_agrees (w : Wave) (value : Value)
    (hload : ∀ instr, group.program.instr value = .ok instr → instr.isLoad → bytes) :
    (w.stepInstr group value s).Agree (Shared.SameShare group.program.sharedSize bytes)
      (w.stepInstr group value s') := by
  unfold stepInstr
  split
  · exact ⟨rfl, h⟩
  · refine Outcome.Twin.bind (.lift fun instr hinstr => ?_)
    split
    · split
      · exact ⟨rfl, h⟩
      · exact ⟨rfl, h⟩
    · exact Outcome.Agree.bind (execute_agrees h _ value (hload instr hinstr)) fun _ _ _ ht => ⟨rfl, ht⟩

/-- An operation ends in the same way on both sides. -/
theorem step_agrees (w : Wave) {op : CodeOp}
    (hload : ∀ value instr, op = .instr value → group.program.instr value = .ok instr → instr.isLoad → bytes) :
    (w.step group op s).Agree (Shared.SameShare group.program.sharedSize bytes) (w.step group op s') := by
  have steer (r : Except Fault Wave) : ((do return (← r, false) : Exec Shared (Wave × Bool)) s).Agree
      (Shared.SameShare group.program.sharedSize bytes) ((do return (← r, false) : Exec Shared (Wave × Bool)) s') :=
    .bind (.lift r h) fun _ _ _ ht => ⟨rfl, ht⟩
  cases op with
  | instr value => exact stepInstr_agrees h w value fun instr => hload value instr rfl
  | loop => exact ⟨rfl, h⟩
  | branch | otherwise | endBranch | leave | endLoop => exact steer _

end Wave

/-- Whatever the code loads, the bytes are the same. -/
def Workgroup.LoadsSame (group : Workgroup) (bytes : Prop) : Prop :=
  ∀ value instr, .instr value ∈ group.executable.code → group.program.instr value = .ok instr →
    instr.isLoad → bytes

namespace Workgroup.LoadsSame

variable {group : Workgroup} {bytes : Prop} (hload : group.LoadsSame bytes)
include hload

/-- A turn ends in the same way on both sides. -/
theorem turn {budget : Nat} {w w' : Wave} {s s' : Shared} (hw : w' = w)
    (hs : s.SameShare group.program.sharedSize bytes s') :
    (w.turn group budget s).Twin (Shared.SameShare group.program.sharedSize bytes)
      (fun p t p' t' => p.Beside (fun u u' => u' = u) p' ∧ t.SameShare group.program.sharedSize bytes t')
      (w'.turn group budget s') := by
  refine (Wave.turn_twin (J := fun _ w s w' s' => w' = w ∧ s.SameShare group.program.sharedSize bytes s')
    (P := fun w s w' s' => w' = w ∧ s.SameShare group.program.sharedSize bytes s') ?_ ?_ ⟨hw, hs⟩).mono ?_
  · rintro b w s _ s' ⟨rfl, hs⟩
    exact ⟨rfl, rfl, hs, rfl, hs⟩
  · rintro b w s _ s' op hop ⟨rfl, hs⟩
    refine (Wave.step_agrees hs _ ?_).mono ?_
    · rintro value instr rfl
      exact hload value instr (Array.mem_of_getElem? hop)
    · rintro p t _ t' - - ⟨rfl, ht⟩
      exact ⟨rfl, ⟨rfl, ht⟩, fun _ => ⟨rfl, ht⟩⟩
  · rintro p t p' t' - - ⟨hhalt, hbudget, hwave, ht⟩
    exact ⟨⟨hhalt, hbudget, hwave⟩, ht⟩

/-- The turns of a workgroup end in the same way on both sides. -/
theorem rounds (runners : List Runner) {s s' : Shared} (hs : s.SameShare group.program.sharedSize bytes s') :
    (group.rounds runners s).Twin (Shared.SameShare group.program.sharedSize bytes)
      (fun _ t _ t' => t.SameShare group.program.sharedSize bytes t') (group.rounds runners s') :=
  rounds_twin (fun h => by rw [h.result]) .meet hload.turn (List.forall₂_same.mpr fun _ _ => ⟨rfl, rfl⟩) hs

/-- A workgroup runs to the same result or to the same error. -/
theorem complete (runners : List Runner) {m m' : SharedMemory} (hm : m.SameShare group.program.sharedSize bytes m') :
    (group.complete runners m).Agree (SharedMemory.SameShare group.program.sharedSize bytes)
      (group.complete runners m') := by
  have hstart : Shared.SameShare group.program.sharedSize bytes { memory := m } { memory := m' } := ⟨hm, rfl⟩
  have hrounds := hload.rounds runners hstart
  unfold Workgroup.complete
  obtain ⟨_, s, _, s', hr, hr', hs⟩ | ⟨error, s, s', hr, hr', hs⟩ | ⟨fault, hr, hr'⟩ := hrounds.elim <;> rw [hr, hr']
  · dsimp only
    rw [hs.result]
    cases s.result.finish group.launch.numLanes with
    | ok result => exact ⟨rfl, hs.memory⟩
    | error error => exact ⟨rfl, hs.memory⟩
  · exact ⟨rfl, hs.memory⟩
  · rfl

end Workgroup.LoadsSame

/-! ## Whole runs -/

namespace SharedMemory

variable {size : Nat} {m m' : SharedMemory}

variable (hm : size ≤ m.cells.size)
include hm

/-- The first bytes of a memory, one by one. -/
theorem bytes_take_eq_iff (hm' : size ≤ m'.cells.size) :
    m.bytes.take size = m'.bytes.take size ↔ ∀ a < size, (m'.cellAt a).byte = (m.cellAt a).byte := by
  have hsize : (m.bytes.take size).size = size := by simp [bytes, hm]
  have hsize' : (m'.bytes.take size).size = size := by simp [bytes, hm']
  constructor
  · intro h a ha
    have hget : (m.bytes.take size)[a]? = (m'.bytes.take size)[a]? := by rw [h]
    rw [cellAt_eq (by omega), cellAt_eq (by omega)]
    simpa [bytes, Entry.cell, Array.getElem?_extract, Nat.min_eq_left hm, Nat.min_eq_left hm', ha,
      Nat.lt_of_lt_of_le ha hm, Nat.lt_of_lt_of_le ha hm'] using hget.symm
  · intro h
    refine Array.ext (by rw [hsize, hsize']) fun a ha ha' => ?_
    rw [hsize] at ha
    have hbyte := (h a ha).symm
    rw [cellAt_eq (by omega), cellAt_eq (by omega)] at hbyte
    simpa [bytes, Entry.cell] using hbyte

/-- Memory that is large enough stays as it is. -/
theorem reserve_eq_self : m.reserve size = m := by
  have h : size - m.cells.size = 0 := by omega
  simp [reserve, h]

/-- Behind a barrier no access is remembered. -/
theorem SameShare.of_bytes {bytes : Prop} (hm' : size ≤ m'.cells.size)
    (h : bytes → m.bytes.take size = m'.bytes.take size) : m.sync.SameShare size bytes m'.sync where
  room := hm
  room' := hm'
  cell a ha := by
    rw [cellAt_sync, cellAt_sync]
    exact ⟨fun hbytes => (bytes_take_eq_iff hm hm').mp (h hbytes) a ha, rfl, rfl⟩

end SharedMemory

namespace ComputeUnit

/-- The first bytes of a unit's memory, as a workgroup that owns `size` bytes finds them. -/
def share (size : Nat) (unit : ComputeUnit) : Array UInt8 := (unit.memory.reserve size).bytes.take size

theorem share_eq_of_sameShare {size : Nat} {unit unit' : ComputeUnit}
    (h : unit.memory.SameShare size True unit'.memory) : unit'.share size = unit.share size := by
  unfold share
  rw [SharedMemory.reserve_eq_self h.room, SharedMemory.reserve_eq_self h.room']
  exact ((SharedMemory.bytes_take_eq_iff h.room h.room').mpr
    fun a ha => (h.cell a ha).byte trivial).symm

/-- A launch finds no accesses in memory. -/
theorem startMemory_sameShare {executable : Executable} {unit unit' : ComputeUnit} {bytes : Prop}
    (h : bytes → unit'.share executable.program.sharedSize = unit.share executable.program.sharedSize) :
    (unit.startMemory executable).SameShare executable.program.sharedSize bytes (unit'.startMemory executable) :=
  .of_bytes (by rw [SharedMemory.size_reserve]; omega) (by rw [SharedMemory.size_reserve]; omega)
    fun hbytes => (h hbytes).symm

/-- No access is tagged with the epoch in which a launch begins. -/
theorem lt_epoch_startMemory (unit : ComputeUnit) (executable : Executable) {entry : Entry}
    (h : entry ∈ (unit.startMemory executable).cells) :
    entry.writeEpoch < (unit.startMemory executable).epoch ∧ entry.readEpoch < (unit.startMemory executable).epoch :=
  ((unit.memory.reserve executable.program.sharedSize).recorded.2 entry h).imp Nat.lt_succ_of_le Nat.lt_succ_of_le

/-- A run does not see the accesses of the runs before it, although their tags are still there: all of them are of
epochs before its own. Whatever has been run on two units of the same kind, if a workgroup finds the same bytes on
both then it runs to the same result, the same error or the same fault, and leaves the same bytes. -/
theorem run_ignores_access_history (executable : Executable) (launch : Launch) {unit unit' : ComputeUnit}
    (hwave : unit'.wave = unit.wave) (hschedule : unit'.schedule = unit.schedule)
    (hlimit : unit'.stepLimit = unit.stepLimit)
    (hshare : unit'.share executable.program.sharedSize = unit.share executable.program.sharedSize) :
    (∀ u ∈ [unit, unit'], ∀ entry ∈ (u.startMemory executable).cells,
      entry.writeEpoch < (u.startMemory executable).epoch ∧ entry.readEpoch < (u.startMemory executable).epoch) ∧
    (run executable launch unit').answer = (run executable launch unit).answer ∧
      (run executable launch unit').state?.map (share executable.program.sharedSize) =
        (run executable launch unit).state?.map (share executable.program.sharedSize) := by
  have hmemory := startMemory_sameShare fun _ : True => hshare
  have hgroup : unit'.workgroup executable launch = unit.workgroup executable launch := by
    unfold workgroup
    rw [hwave]
  have hload : (unit.workgroup executable launch).LoadsSame True := fun _ _ _ _ _ => trivial
  have hcomplete := hload.complete ((unit.workgroup executable launch).runners unit.schedule unit.stepLimit) hmemory
  have hrun : (run executable launch unit).Agree
      (fun u u' => u'.share executable.program.sharedSize = u.share executable.program.sharedSize)
      (run executable launch unit') := by
    unfold run
    rw [hwave]
    cases launch.validate unit.wave with
    | error cause => exact ⟨rfl, hshare⟩
    | ok u =>
      dsimp only
      rw [hgroup, hschedule, hlimit]
      obtain ⟨result, m, _, m', hc, hc', rfl, hm⟩ | ⟨error, m, m', hc, hc', hm⟩ | ⟨fault, hc, hc'⟩ :=
        Outcome.Twin.elim hcomplete <;> rw [hc, hc']
      · exact ⟨rfl, share_eq_of_sameShare hm⟩
      · exact ⟨rfl, share_eq_of_sameShare hm⟩
      · rfl
  exact ⟨fun u _ entry => u.lt_epoch_startMemory executable, hrun.answer_eq, hrun.state?_map_eq fun _ _ h => h⟩

/-- Lane 1 stores to shared memory and meets a barrier alone. -/
def strayProgram : Program where
  stage := .vertex
  definitions := #[⟨.intrinsic (.input .localInvocationIndex), .u32⟩, ⟨.const .u32 1, .u32⟩,
    ⟨.binary .eq ⟨0⟩ ⟨1⟩, .bool⟩, ⟨.const .u32 0, .u32⟩, ⟨.intrinsic (.storeShared ⟨3⟩ ⟨3⟩ 0), .void⟩,
    ⟨.intrinsic .barrier, .void⟩]
  body := [.instr ⟨0⟩, .instr ⟨1⟩, .instr ⟨2⟩, .instr ⟨3⟩, .branch ⟨2⟩ [.instr ⟨4⟩, .instr ⟨5⟩] []]
  sharedSize := 4

/-- Every lane stores to the same place. -/
def storingProgram : Program where
  stage := .vertex
  definitions := #[⟨.const .u32 0, .u32⟩, ⟨.intrinsic (.storeShared ⟨0⟩ ⟨0⟩ 0), .void⟩]
  body := [.instr ⟨0⟩, .instr ⟨1⟩]
  sharedSize := 4

/-- The first run fails after lane 1 has written in epoch 2, and its tags stay. Lane 0 of the second run may write all
the same. -/
theorem run_ignores_access_history_stray :
    let stray : Executable := ⟨strayProgram, (Block.code 0 strayProgram.body).toArray⟩
    let storing : Executable := ⟨storingProgram, (Block.code 0 storingProgram.body).toArray⟩
    let fresh : ComputeUnit := { wave := .wave32 }
    let used := (run stray { numLanes := 2 } fresh).state?.getD fresh
    used.memory.cells = Array.replicate 4 { byte := 0, writeEpoch := 2, writer := ⟨0, 1⟩ } ∧ used.memory.epoch = 2 ∧
      used.share storing.program.sharedSize = fresh.share storing.program.sharedSize ∧
      (run storing { numLanes := 1 } used).answer = (run storing { numLanes := 1 } fresh).answer ∧
      (run storing { numLanes := 1 } used).state?.map (share storing.program.sharedSize) =
        (run storing { numLanes := 1 } fresh).state?.map (share storing.program.sharedSize) :=
  ⟨by decide +kernel, by decide +kernel, by decide +kernel, (run_ignores_access_history _ _ (by decide +kernel)
    (by decide +kernel) (by decide +kernel) (by decide +kernel)).2⟩

end ComputeUnit

end PrimitiveShader
