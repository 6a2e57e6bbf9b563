import PrimitiveShader.Proofs.Wave.Execute

/-!
# Which lanes can be on

A branch switches on those lanes that are on and see a condition that is not zero
(`Wave.maskOf_eq_ok`). So a wave never switches on a lane that it does not have: the lanes that
are on and those remembered by open branches and loops stay below the width of the wave
(`Wave.Below.step`).
-/

namespace PrimitiveShader

namespace LaneMask

/-- The set contains lanes below `n` only. -/
def Below (n : Nat) (mask : LaneMask) : Prop := ∀ lane ∈ mask.lanes, lane < n

theorem below_empty (n : Nat) : empty.Below n := by
  intro lane h
  simp [mem_lanes, contains_empty] at h

variable {mask other a b : LaneMask} {lane : Nat}

theorem Below.diff {n : Nat} (h : mask.Below n) (other : LaneMask) : (mask.diff other).Below n := by
  intro lane hl
  obtain ⟨hlt, hc⟩ := mem_lanes.mp hl
  rw [contains_diff _ _ hlt, Bool.and_eq_true] at hc
  exact h lane (mem_lanes.mpr ⟨hlt, hc.1⟩)

theorem not_mem_lanes_empty (lane : Nat) : lane ∉ empty.lanes := by
  simp [mem_lanes, contains_empty]

theorem mem_lanes_diff : lane ∈ (mask.diff other).lanes ↔ lane ∈ mask.lanes ∧ lane ∉ other.lanes := by
  by_cases hl : lane < 64
  · simp [mem_lanes, hl, contains_diff]
  · simp [mem_lanes, hl]

theorem mem_lanes_union : lane ∈ (mask.union other).lanes ↔ lane ∈ mask.lanes ∨ lane ∈ other.lanes := by
  by_cases hl : lane < 64
  · simp [mem_lanes, hl, contains_union]
  · simp [mem_lanes, hl]

theorem eq_of_mem_lanes (h : ∀ lane, lane ∈ mask.lanes ↔ lane ∈ other.lanes) : mask = other := by
  refine eq_of_contains fun lane hlane => ?_
  have hiff := h lane
  simp only [mem_lanes, hlane, true_and] at hiff
  exact Bool.eq_iff_iff.mpr hiff

theorem diff_empty (mask : LaneMask) : mask.diff .empty = mask :=
  eq_of_mem_lanes fun lane => by simp [mem_lanes_diff, not_mem_lanes_empty]

theorem diff_self (mask : LaneMask) : mask.diff mask = .empty :=
  eq_of_mem_lanes fun lane => by simp [mem_lanes_diff, not_mem_lanes_empty]

/-- Taking away more lanes in a second step. -/
theorem diff_diff_of_subset {c : LaneMask} (h : ∀ lane ∈ b.lanes, lane ∈ c.lanes) : (a.diff b).diff c = a.diff c := by
  refine eq_of_mem_lanes fun lane => ?_
  simp only [mem_lanes_diff]
  exact ⟨fun hl => ⟨hl.1.1, hl.2⟩, fun hl => ⟨⟨hl.1, fun hb => hl.2 (h lane hb)⟩, hl.2⟩⟩

theorem diff_eq_self (h : ∀ lane ∈ a.lanes, lane ∉ b.lanes) : a.diff b = a := by
  refine eq_of_mem_lanes fun lane => ?_
  rw [mem_lanes_diff]
  exact ⟨fun hl => hl.1, fun hl => ⟨hl, h lane hl⟩⟩

theorem lanes_eq_nil_iff : mask.lanes = [] ↔ mask.isEmpty = true := by
  rw [isEmpty_iff]
  constructor
  · intro h
    refine eq_of_contains fun lane hlane => ?_
    rw [contains_empty, Bool.eq_false_iff]
    intro hc
    have hmem : lane ∈ mask.lanes := mem_lanes.mpr ⟨hlane, hc⟩
    rw [h] at hmem
    cases hmem
  · rintro rfl
    exact List.eq_nil_iff_forall_not_mem.mpr fun lane hl => by
      simp [mem_lanes, contains_empty] at hl

/-- A set that is not empty has a lowest lane. -/
theorem exists_lowest (h : mask.isEmpty = false) : ∃ lane ∈ mask.lanes, mask.lowest? = some lane := by
  cases hl : mask.lanes with
  | nil =>
    rw [lanes_eq_nil_iff.mp hl] at h
    cases h
  | cons lane rest => exact ⟨lane, by simp, by simp [lowest?, hl]⟩

end LaneMask

/-- Collecting the lanes of a list where a test does not give zero. -/
theorem foldlM_insert_eq_ok {test : Nat → Except Fault UInt64} {ls : List Nat}
    (hls : ∀ lane ∈ ls, lane < 64) {start mask : LaneMask} (h : ls.foldlM (fun mask lane => do
      let a ← test lane
      return if a = 0 then mask else mask.insert lane) start = .ok mask) :
    (∀ lane ∈ ls, ∃ a, test lane = .ok a) ∧ ∀ lane < 64, mask.contains lane = true ↔
      start.contains lane = true ∨ lane ∈ ls ∧ ∃ a, test lane = .ok a ∧ a ≠ 0 := by
  induction ls generalizing start with
  | nil =>
    cases h
    simp
  | cons l rest ih =>
    have hl : l < 64 := hls l (by simp)
    rw [List.foldlM_cons] at h
    obtain ⟨first, hfirst, h⟩ := except_bind_eq_ok.mp h
    obtain ⟨a, ht, hfirst⟩ := except_bind_eq_ok.mp hfirst
    cases hfirst
    obtain ⟨hall, hmask⟩ := ih (fun lane hm => hls lane (by simp [hm])) h
    refine ⟨?_, fun lane hlane => ?_⟩
    · intro lane hm
      rcases List.mem_cons.mp hm with rfl | hm
      · exact ⟨a, ht⟩
      · exact hall lane hm
    · rw [hmask lane hlane]
      by_cases ha : a = 0
      · simp only [ha, ↓reduceIte, List.mem_cons]
        refine or_congr_right ⟨And.imp_left .inr, ?_⟩
        rintro ⟨rfl | hm, x, hx, hne⟩
        · rw [ht] at hx
          cases hx
          exact absurd ha hne
        · exact ⟨hm, x, hx, hne⟩
      · simp only [ha, ↓reduceIte, LaneMask.contains_insert _ hl hlane, Bool.or_eq_true,
          decide_eq_true_eq, List.mem_cons, or_assoc]
        refine or_congr_right ⟨?_, ?_⟩
        · rintro (rfl | ⟨hm, hx⟩)
          · exact ⟨.inl rfl, a, ht, ha⟩
          · exact ⟨.inr hm, hx⟩
        · rintro ⟨rfl | hm, hx⟩
          · exact .inl rfl
          · exact .inr ⟨hm, hx⟩

namespace Wave

/-- A condition that can be read selects those lanes that are on and where it is not zero. -/
theorem maskOf_eq_ok {w : Wave} {value : Value} {mask : LaneMask} (h : w.maskOf value = .ok mask) :
    (∀ lane ∈ w.exec.lanes, ∃ a, readRegister w.lanes lane value = .ok a) ∧ ∀ lane, lane ∈ mask.lanes ↔
        lane ∈ w.exec.lanes ∧ ∃ a, readRegister w.lanes lane value = .ok a ∧ a ≠ 0 := by
  obtain ⟨hall, hmask⟩ := foldlM_insert_eq_ok (fun lane hm => (LaneMask.mem_lanes.mp hm).1) h
  refine ⟨hall, fun lane => ?_⟩
  constructor
  · intro hm
    obtain ⟨hlt, hc⟩ := LaneMask.mem_lanes.mp hm
    rcases (hmask lane hlt).mp hc with hc | hc
    · simp [LaneMask.contains_empty] at hc
    · exact hc
  · intro hm
    have hlt := (LaneMask.mem_lanes.mp hm.1).1
    exact LaneMask.mem_lanes.mpr ⟨hlt, (hmask lane hlt).mpr (.inr hm)⟩

end Wave

/-- The lanes that an open branch or loop will switch on again are below `n`. -/
def Frame.Below (n : Nat) : Frame → Prop
  | .branch saved otherwise => saved.Below n ∧ otherwise.Below n
  | .loop saved _ => saved.Below n

/-- The wave is on lanes below `n` only, and will be. -/
structure Wave.Below (n : Nat) (w : Wave) : Prop where
  exec : w.exec.Below n
  frames : ∀ frame ∈ w.frames, frame.Below n

theorem Frame.below_of_leave {n : Nat} {lanes : LaneMask} {frames frames' : List Frame}
    (h : Frame.leave lanes frames = some frames') (hf : ∀ frame ∈ frames, frame.Below n) :
    ∀ frame ∈ frames', frame.Below n := by
  induction frames generalizing frames' with
  | nil => cases h
  | cons frame rest ih =>
    have hrest : ∀ frame ∈ rest, frame.Below n := fun f hm => hf f (by simp [hm])
    cases frame with
    | loop saved broken =>
      cases h
      exact List.forall_mem_cons.mpr ⟨hf (.loop saved broken) (by simp), hrest⟩
    | branch saved otherwise =>
      obtain ⟨frames₁, h₁, rfl⟩ := Option.map_eq_some_iff.mp h
      exact List.forall_mem_cons.mpr ⟨hf _ (by simp), ih h₁ hrest⟩

namespace Wave

variable {group : Workgroup} {op : CodeOp} {w w' : Wave}

/-- Runs a control operation. -/
def steer (op : CodeOp) (w : Wave) : Except Fault Wave :=
  match op with
  | .instr _ => .ok w
  | .branch cond elseAt => w.enterBranch cond elseAt
  | .otherwise endAt => w.turnBranch endAt
  | .endBranch => w.endBranch
  | .loop => .ok w.enterLoop
  | .leave => w.leaveLoop
  | .endLoop loopAt => w.endLoop loopAt

theorem step_eq_steer (h : ∀ v, op ≠ .instr v) :
    w.step group op = (do return (← w.steer op, false)) := by
  cases op with
  | instr v => exact absurd rfl (h v)
  | branch | otherwise | endBranch | loop | leave | endLoop => rfl

/-- A control operation looks at no register but the condition of a branch. -/
theorem steer_withLanes {lanes : Array Lane} (hmask : ∀ cond elseAt, op = .branch cond elseAt →
      ({ w with lanes := lanes } : Wave).maskOf cond = w.maskOf cond) :
    ({ w with lanes := lanes } : Wave).steer op = (w.steer op).map fun u => { u with lanes := lanes } := by
  cases op with
  | branch cond elseAt =>
    simp only [steer, enterBranch, hmask cond elseAt rfl]
    cases w.maskOf cond <;> rfl
  | instr | loop => rfl
  | otherwise | endBranch =>
    simp only [steer, turnBranch, endBranch]
    rcases w.frames with - | ⟨_ | _, _⟩ <;> rfl
  | leave =>
    simp only [steer, leaveLoop]
    cases Frame.leave w.exec w.frames <;> rfl
  | endLoop loopAt =>
    simp only [steer, endLoop]
    split
    · rcases w.frames with - | ⟨_ | _, _⟩ <;> rfl
    · rfl

/-- A control operation leaves the lanes and the number of the wave alone. -/
theorem steer_eq_ok (h : w.steer op = .ok w') :
    w' = { w with exec := w'.exec, frames := w'.frames, pc := w'.pc } := by
  cases op with
  | instr | loop =>
    cases h
    rfl
  | branch cond elseAt =>
    obtain ⟨taken, -, h⟩ := except_bind_eq_ok.mp h
    cases h
    rfl
  | otherwise | endBranch | leave =>
    simp only [steer, turnBranch, endBranch, leaveLoop] at h
    split at h <;> cases h
    rfl
  | endLoop loopAt =>
    simp only [steer, endLoop] at h
    split at h
    · split at h <;> cases h
      rfl
    · cases h
      rfl

theorem lanes_of_steer (h : w.steer op = .ok w') : w'.lanes = w.lanes := by
  rw [steer_eq_ok h]

/-- A control operation switches on no lane that the wave does not have. -/
theorem Below.steer {n : Nat} (h : w.Below n) (hw : w.steer op = .ok w') : w'.Below n := by
  cases op with
  | instr value => exact Except.ok.inj hw ▸ h
  | branch cond elseAt =>
    obtain ⟨taken, hm, hw⟩ := except_bind_eq_ok.mp hw
    cases hw
    have htaken := (maskOf_eq_ok hm).2
    exact ⟨fun lane hl => h.exec lane ((htaken lane).mp hl).1,
      List.forall_mem_cons.mpr ⟨⟨h.exec, h.exec.diff taken⟩, h.frames⟩⟩
  | otherwise endAt =>
    simp only [Wave.steer, turnBranch] at hw
    split at hw <;> cases hw
    rename_i saved otherwise rest hf
    exact ⟨(h.frames (.branch saved otherwise) (by simp [hf])).2, h.frames⟩
  | endBranch =>
    simp only [Wave.steer, endBranch] at hw
    split at hw <;> cases hw
    rename_i saved otherwise rest hf
    exact ⟨(h.frames (.branch saved otherwise) (by simp [hf])).1.diff _,
      fun frame hm => h.frames frame (by simp [hf, hm])⟩
  | loop =>
    cases hw
    exact ⟨h.exec, List.forall_mem_cons.mpr ⟨h.exec, h.frames⟩⟩
  | leave =>
    simp only [Wave.steer, leaveLoop] at hw
    split at hw <;> cases hw
    rename_i frames hf
    exact ⟨LaneMask.below_empty n, Frame.below_of_leave hf h.frames⟩
  | endLoop loopAt =>
    simp only [Wave.steer, endLoop] at hw
    split at hw
    · split at hw <;> cases hw
      rename_i saved broken rest hf
      exact ⟨h.frames (.loop saved broken) (by simp [hf]), fun frame hm => h.frames frame (by simp [hf, hm])⟩
    · cases hw
      exact ⟨h.exec, h.frames⟩

/-- The outcome of an instruction: a step forward, and new states of the lanes at most. -/
theorem stepInstr_eq_done {value : Value} {s s' : Shared} {next : Wave × Bool}
    (h : w.stepInstr group value s = .done next s') : next.1 = { w with pc := w.pc + 1, lanes := next.1.lanes } := by
  unfold stepInstr at h
  split at h
  · cases h
    rfl
  · obtain ⟨instr, s₁, -, h⟩ := Exec.bind_eq_done_iff.mp h
    split at h
    · split at h
      · cases h
        rfl
      · cases h
    · obtain ⟨u, s₂, hu, h⟩ := Exec.bind_eq_done_iff.mp h
      cases h
      exact execute_eq_done hu

/-- A control operation succeeds when its effect on the wave is defined, and touches nothing else. -/
theorem control_eq_done_iff {r : Except Fault Wave} {s s' : Shared} {next : Wave × Bool} :
    (do return (← r, false) : Exec Shared (Wave × Bool)) s = .done next s' ↔
      r = .ok next.1 ∧ next.2 = false ∧ s' = s := by
  obtain ⟨w', b⟩ := next
  cases r with
  | ok u =>
    change Outcome.done (u, false) s = .done (w', b) s' ↔ _
    simp [eq_comm, and_assoc]
  | error fault =>
    change Outcome.faulted fault = .done (w', b) s' ↔ _
    simp

/-- A step keeps the number of the wave and switches on no lane that the wave does not have. -/
theorem Below.step {n : Nat} (h : w.Below n) {s s' : Shared} {next : Wave × Bool}
    (hs : w.step group op s = .done next s') : next.1.id = w.id ∧ next.1.Below n := by
  by_cases hinstr : ∃ value, op = .instr value
  · obtain ⟨value, rfl⟩ := hinstr
    have hnext : next.1 = { w with pc := w.pc + 1, lanes := next.1.lanes } := stepInstr_eq_done hs
    rw [hnext]
    exact ⟨rfl, h.exec, h.frames⟩
  · rw [step_eq_steer fun value heq => hinstr ⟨value, heq⟩] at hs
    obtain ⟨hw, -, -⟩ := control_eq_done_iff.mp hs
    exact ⟨by rw [steer_eq_ok hw], h.steer hw⟩

end Wave

end PrimitiveShader
