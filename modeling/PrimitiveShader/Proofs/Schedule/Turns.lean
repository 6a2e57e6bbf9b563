import PrimitiveShader.Proofs.Schedule.WaveAction
import PrimitiveShader.Proofs.Wave.Mask

/-!
# The turns of a wave

What a wave does in its turn, one operation after the other, is an action of this wave alone
(`Wave.waveAction_turn`): it reads and writes shared bytes in its own name and exports from its own
lanes.
-/

namespace PrimitiveShader

namespace Exec

variable {σ α : Type}

theorem Quiet.onMemory {a : Exec SharedMemory α} (h : a.Quiet) : (Shared.onMemory a).Quiet := by
  intro s x s' hs
  obtain ⟨m, hm, rfl⟩ := Shared.onMemory_eq_done_iff.mp hs
  obtain ⟨rfl, hall⟩ := h hm
  exact ⟨rfl, fun t => Shared.onMemory_eq_done_iff.mpr ⟨t.memory, hall t.memory, rfl⟩⟩

end Exec

/-! ## Actions put together -/

namespace WaveAction

variable {wave : Nat} {size : Nat} {waves : Nat → Prop} {α β : Type}

theorem lift (r : Except Fault α) : WaveAction size waves (Exec.lift r) :=
  .quiet (Exec.quiet_lift r)

theorem pure (a : α) : WaveAction size waves (Pure.pure a : Exec Shared α) :=
  lift (.ok a)

theorem fail (error : RunError) : WaveAction size waves (Exec.fail error : Exec Shared α) :=
  .quiet (Exec.quiet_fail error)

theorem fault (fault : Fault) : WaveAction size waves (Exec.fault fault : Exec Shared α) :=
  lift (.error fault)

/-- An action followed by others that are all allowed. -/
theorem andThen {a : Exec Shared α} {k : α → Exec Shared β} (ha : WaveAction size waves a)
    (hk : ∀ x, WaveAction size waves (k x)) : WaveAction size waves (a >>= k) :=
  .bind ha fun _ x _ _ => hk x

theorem foldlM {xs : List α} {f : β → α → Exec Shared β}
    (h : ∀ b, ∀ a ∈ xs, WaveAction size waves (f b a)) (start : β) : WaveAction size waves (xs.foldlM f start) := by
  induction xs generalizing start with
  | nil => exact pure start
  | cons a rest ih =>
    rw [List.foldlM_cons]
    exact (h start a (by simp)).andThen fun b => ih (fun b a ha => h b a (by simp [ha])) b

theorem forM {xs : List α} {f : α → Exec Shared PUnit}
    (h : ∀ a ∈ xs, WaveAction size waves (f a)) : WaveAction size waves (xs.forM f) := by
  induction xs with
  | nil => exact pure ()
  | cons a rest ih =>
    change WaveAction size waves (f a >>= fun _ => rest.forM f)
    exact (h a (by simp)).andThen fun _ => ih fun a ha => h a (by simp [ha])

theorem loadBytes (hw : waves wave) (addr n i : Nat) :
    WaveAction size waves (Shared.onMemory (SharedMemory.loadBytes wave addr n i)) := by
  induction n generalizing i with
  | zero => exact .quiet (Exec.quiet_lift (.ok 0)).onMemory
  | succ n ih =>
    rw [SharedMemory.loadBytes, Shared.onMemory_bind]
    refine (WaveAction.memory (.load wave (addr + i) hw)).andThen fun byte => ?_
    rw [Shared.onMemory_bind]
    refine (WaveAction.quiet (Exec.quiet_lift _).onMemory).andThen fun _ => ?_
    rw [Shared.onMemory_bind]
    exact (ih (i + 1)).andThen fun rest => .quiet (Exec.quiet_lift (.ok _)).onMemory

theorem load (hw : waves wave) (lane addr len share : Nat) :
    WaveAction size waves (Shared.onMemory (SharedMemory.load wave lane addr len share)) := by
  rw [SharedMemory.load, Shared.onMemory_bind]
  exact (WaveAction.memory (.range lane addr len share)).andThen fun _ => loadBytes hw addr len 0

theorem storeBytes {writer : Writer} (hw : waves writer.wave)
    (hl : writer.lane / size = writer.wave) (addr : Nat) (value : UInt64) (n i : Nat) :
    WaveAction size waves (Shared.onMemory (SharedMemory.storeBytes writer addr value n i)) := by
  induction n generalizing i with
  | zero => exact .quiet (Exec.quiet_lift (.ok ())).onMemory
  | succ n ih =>
    -- The right to write a byte and the writing of it are one step.
    have hsplit : Shared.onMemory (SharedMemory.storeBytes writer addr value (n + 1) i) =
        Shared.onMemory (SharedMemory.claimByte writer (addr + i)) >>= fun _ =>
          Shared.onMemory (Exec.lift (SharedMemory.checkByte i)) >>= fun _ =>
            Shared.onMemory (SharedMemory.writeByte writer (addr + i) (Bits.byte value i)) >>= fun _ =>
              Shared.onMemory (SharedMemory.storeBytes writer addr value n (i + 1)) := by
      rw [SharedMemory.storeBytes, Shared.onMemory_bind]
      simp only [Shared.onMemory_bind]
      rfl
    rw [hsplit]
    by_cases hi : i < 8
    · have hcheck : SharedMemory.checkByte i = .ok () := if_pos hi
      have hjoin : (Shared.onMemory (SharedMemory.claimByte writer (addr + i)) >>= fun _ =>
          Shared.onMemory (Exec.lift (.ok ())) >>= fun _ =>
            Shared.onMemory (SharedMemory.writeByte writer (addr + i) (Bits.byte value i)) >>= fun _ =>
              Shared.onMemory (SharedMemory.storeBytes writer addr value n (i + 1))) =
          Shared.onMemory (SharedMemory.storeByte writer (addr + i) (Bits.byte value i)) >>= fun _ =>
            Shared.onMemory (SharedMemory.storeBytes writer addr value n (i + 1)) := by
        rw [SharedMemory.storeByte, Shared.onMemory_bind, bind_assoc]
        rfl
      rw [hcheck, hjoin]
      exact (WaveAction.memory (.store writer (addr + i) (Bits.byte value i) hw hl)).andThen fun _ => ih (i + 1)
    · have hcheck : SharedMemory.checkByte i = .error .shiftTooWide := if_neg hi
      rw [hcheck]
      refine .quiet fun s x s' hs => ?_
      obtain ⟨-, s₁, -, hs⟩ := Exec.bind_eq_done_iff.mp hs
      cases hs

theorem store {lane : Nat} (hw : waves wave) (hl : lane / size = wave) (addr len : Nat) (value : UInt64) (share : Nat) :
    WaveAction size waves (Shared.onMemory (SharedMemory.store wave lane addr len value share)) := by
  rw [SharedMemory.store, Shared.onMemory_bind]
  exact (WaveAction.memory (.range lane addr len share)).andThen fun _ =>
    @storeBytes _ _ ⟨wave, lane⟩ hw hl addr value len 0

theorem contribute {f : WorkgroupResult → WorkgroupResult} (c : Contribution)
    (hc : c.OnlyFrom fun lane => waves (lane / size)) (hf : ∀ r, c.add r = f r) :
    WaveAction size waves (Shared.onResult f) := by
  have he : f = c.add := funext fun r => (hf r).symm
  subst he
  exact .result (.contribute c hc)

end WaveAction

namespace Wave

variable {group : Workgroup} {w : Wave}

/-! ## Instructions -/

/-- The lanes of a wave are numbered one after the other. -/
theorem laneId_index_div {id lane : Nat} (h : lane < group.wave.size) :
    (laneId group id lane).index / group.wave.size = id := by
  have hpos : 0 < group.wave.size := by omega
  change (id * group.wave.size + lane) / group.wave.size = id
  rw [Nat.mul_comm, Nat.mul_add_div hpos, Nat.div_eq_of_lt h, Nat.add_zero]

theorem waveAction_loadShared (value addr : Value) (base : UInt32) (type : ScalarType) :
    WaveAction group.wave.size (w.id = ·) (w.loadShared group value addr base type) := by
  obtain ⟨id, launched, exec, pc, frames, lanes⟩ := w
  refine .andThen (.foldlM (fun lanes lane _ => ?_) _) fun _ => .pure _
  refine .andThen (.lift _) fun offset => .andThen (.lift _) fun at_ => ?_
  refine .andThen (.load rfl _ _ _ _) fun data => .andThen ?_ fun _ => .pure _
  exact .contribute { sharedLoads := 1 } (by simp [Contribution.OnlyFrom])
    fun r => by simp [Contribution.add, Contribution.zipWith_add_zero]

theorem waveAction_storeShared (h : w.exec.Below group.wave.size) (data addr : Value) (base : UInt32) :
    WaveAction group.wave.size (w.id = ·) (w.storeShared group data addr base) := by
  refine .andThen (.lift _) fun type => .forM fun lane hl => ?_
  refine .andThen (.lift _) fun offset => .andThen (.lift _) fun at_ => .andThen (.lift _) fun a => ?_
  refine .andThen (.store rfl (laneId_index_div (h lane hl)) _ _ _ _) fun _ => ?_
  exact .contribute { sharedStores := 1 } (by simp [Contribution.OnlyFrom])
    fun r => by simp [Contribution.add, Contribution.zipWith_add_zero]

theorem waveAction_queryAdd (stream : UInt8) (count : Value) :
    WaveAction group.wave.size (w.id = ·) (w.queryAdd stream count) := by
  refine .forM fun lane _ => ?_
  split
  · rename_i hs
    refine .andThen (.lift _) fun a => ?_
    exact .contribute { queryCounters := (#v[0, 0, 0, 0] : Vector UInt64 4).set stream.toNat a }
      (by simp [Contribution.OnlyFrom]) (Contribution.add_query _ hs a)
  · exact .fault _

/-- Asking for space succeeds in the first wave only, and once. -/
theorem waveAction_allocate (vertices primitives : Value) :
    WaveAction group.wave.size (w.id = ·) (w.allocate vertices primitives) := by
  refine .forM fun lane _ => ?_
  by_cases hid : w.id = 0
  · let space : Except Fault Allocation := do
      let v ← readRegister w.lanes lane vertices
      let p ← readRegister w.lanes lane primitives
      return ⟨v.toUInt32.toNat, p.toUInt32.toNat⟩
    refine .congr (.result (.request space hid)) fun s x s' => ?_
    apply Eq.to_iff
    congr 1
    simp only [hid, ↓reduceIte, Exec.bind_apply, Shared.inResult, requestOnce, Exec.get, space]
    split
    · rfl
    · cases readRegister w.lanes lane vertices with
      | error fault => rfl
      | ok v => cases readRegister w.lanes lane primitives <;> rfl
  · refine .quiet fun s x s' hs => ?_
    simp only [hid, ↓reduceIte] at hs
    cases hs

section

variable (h : w.exec.Below group.wave.size)
include h

theorem waveAction_exportPrimitives (word : Value) :
    WaveAction group.wave.size (w.id = ·) (w.exportPrimitives group word) := by
  refine .forM fun lane hl => .andThen (.lift _) fun a => ?_
  refine .contribute { primitives := #[((laneId group w.id lane).index, ⟨a.toUInt32⟩)] } ?_
    fun r => by simp [Contribution.add, Contribution.zipWith_add_zero]
  simpa [Contribution.OnlyFrom] using (laneId_index_div (h lane hl)).symm

theorem waveAction_exportVertices : WaveAction group.wave.size (w.id = ·) (w.exportVertices group) := by
  refine .forM fun lane hl => ?_
  refine .contribute { vertices := #[((laneId group w.id lane).index, (w.lanes[lane]?.map (·.outputs)).getD [])] } ?_
    fun r => by simp [Contribution.add, Contribution.zipWith_add_zero]
  simpa [Contribution.OnlyFrom] using (laneId_index_div (h lane hl)).symm

/-- An instruction is an action of its wave. -/
theorem waveAction_execute (value : Value) (instr : Instr) :
    WaveAction group.wave.size (w.id = ·) (w.execute group value instr) := by
  cases instr with
  | intrinsic op =>
    cases op with
    | crossLane op => exact .lift _
    | loadShared addr base type => exact waveAction_loadShared value addr base type
    | storeShared data addr base =>
      exact .andThen (waveAction_storeShared h data addr base) fun _ => .pure _
    | barrier => exact .fault _
    | queryAdd stream count => exact .andThen (waveAction_queryAdd stream count) fun _ => .pure _
    | allocate vertices primitives =>
      exact .andThen (waveAction_allocate vertices primitives) fun _ => .pure _
    | exportPrimitive word =>
      exact .andThen (waveAction_exportPrimitives h word) fun _ => .pure _
    | exportVertex => exact .andThen (waveAction_exportVertices h) fun _ => .pure _
    | geometry op => exact .fail _
    | input input => exact .lift _
    | storeOutput slot data => exact .lift _
  | const | undef | unary | binary | select | convert | extract | loadVar | storeVar => exact .lift _

/-! ## Steps and turns -/

theorem waveAction_stepInstr (value : Value) : WaveAction group.wave.size (w.id = ·) (w.stepInstr group value) := by
  unfold stepInstr
  split
  · exact .pure _
  · refine .andThen (.lift _) fun instr => ?_
    split
    · split
      · exact .pure _
      · exact .fail _
    · exact .andThen (waveAction_execute (w := { w with pc := w.pc + 1 }) h value _) fun _ => .pure _

theorem waveAction_step (op : CodeOp) : WaveAction group.wave.size (w.id = ·) (w.step group op) := by
  cases op with
  | instr value => exact waveAction_stepInstr h value
  | loop => exact .pure _
  | branch | otherwise | endBranch | leave | endLoop => exact .andThen (.lift _) fun _ => .pure _

end

theorem waveAction_turn (h : w.Below group.wave.size) (budget : Nat) :
    WaveAction group.wave.size (w.id = ·) (w.turn group budget) := by
  induction budget generalizing w with
  | zero =>
    cases hop : group.executable.code[w.pc]? with
    | none =>
      rw [turn_of_code_eq_none hop]
      exact .pure _
    | some op =>
      rw [turn_zero hop]
      exact .fail _
  | succ budget ih =>
    cases hop : group.executable.code[w.pc]? with
    | none =>
      rw [turn_of_code_eq_none hop]
      exact .pure _
    | some op =>
      rw [turn_succ hop]
      refine .bind (waveAction_step h.exec op) fun s next s' hs => ?_
      obtain ⟨hid, hbelow⟩ := h.step hs
      obtain ⟨w', _ | _⟩ := next
      · rw [← hid]
        exact ih hbelow
      · exact .pure _

/-- A turn keeps the number of the wave, and the lanes that it can switch on. -/
theorem Below.turn {n : Nat} (h : w.Below n) {budget : Nat} {s s' : Shared} {p : Pause}
    (hr : w.turn group budget s = .done p s') : p.wave.id = w.id ∧ p.wave.Below n := by
  induction budget generalizing w s with
  | zero =>
    cases hop : group.executable.code[w.pc]? with
    | none =>
      rw [turn_of_code_eq_none hop] at hr
      cases hr
      exact ⟨rfl, h⟩
    | some op =>
      rw [turn_zero hop] at hr
      cases hr
  | succ budget ih =>
    cases hop : group.executable.code[w.pc]? with
    | none =>
      rw [turn_of_code_eq_none hop] at hr
      cases hr
      exact ⟨rfl, h⟩
    | some op =>
      rw [turn_succ hop] at hr
      obtain ⟨next, s₁, hs, hr⟩ := Exec.bind_eq_done_iff.mp hr
      obtain ⟨hid, hbelow⟩ := h.step hs
      obtain ⟨w', _ | _⟩ := next
      · obtain ⟨hid', hbelow'⟩ := ih hbelow hr
        exact ⟨hid'.trans hid, hbelow'⟩
      · cases hr
        exact ⟨hid, hbelow⟩

end Wave

end PrimitiveShader
