import PrimitiveShader.Proofs.Emission.Executable
import PrimitiveShader.Proofs.Scalar.Placement
import PrimitiveShader.Proofs.Wave.Spared

/-!
# One lane of a wave

The lanes of a wave are switched on and off together, but as long as no instruction looks at another
lane or at shared memory, none of them can tell. What a lane does on its own is a postcondition of the block that
it meets as a thread (`Block.wp_runs`), so it is what the lane does in lockstep. At the end of a wave every lane
has the state of a lane that has run the body of the program alone (`Wave.run_eq_scalar`).
-/

namespace PrimitiveShader

variable {f : Nat → Lane → Except Fault Lane} {ls : List Nat}

/-! ## Lanes served one after the other -/

/-- Serving lanes one after the other changes the state of each lane once. -/
theorem foldlM_modifyM_eq_ok (hnodup : ls.Nodup) {lanes lanes' : Array Lane}
    (h : ls.foldlM (fun lanes lane => lanes.modifyM lane (f lane)) lanes = .ok lanes') (l : Nat) :
    (l ∉ ls → lanes'[l]? = lanes[l]?) ∧ (l ∈ ls → ∀ lane, lanes[l]? = some lane →
        ∃ lane', f l lane = .ok lane' ∧ lanes'[l]? = some lane') := by
  induction ls generalizing lanes with
  | nil =>
    cases h
    simp
  | cons k rest ih =>
    obtain ⟨hk, hnodup⟩ := List.nodup_cons.mp hnodup
    rw [List.foldlM_cons] at h
    obtain ⟨lanes₁, h₁, h⟩ := except_bind_eq_ok.mp h
    obtain ⟨-, hsame, hserved⟩ := modifyM_eq_ok h₁
    obtain ⟨hoff, hon⟩ := ih hnodup h
    rcases Decidable.em (l = k) with rfl | hne
    · refine ⟨fun hl => absurd (List.mem_cons_self ..) hl, fun _ lane hlane => ?_⟩
      obtain ⟨lane', hf, hlane'⟩ := hserved lane hlane
      exact ⟨lane', hf, (hoff hk).trans hlane'⟩
    · rw [List.mem_cons, or_iff_right hne, ← hsame l hne]
      exact ⟨hoff, hon⟩

/-- Lanes that can be served one after the other. -/
theorem exists_foldlM_modifyM (hnodup : ls.Nodup)
    {lanes : Array Lane} (h : ∀ l ∈ ls, ∃ lane lane', lanes[l]? = some lane ∧ f l lane = .ok lane') :
    ∃ lanes', ls.foldlM (fun lanes lane => lanes.modifyM lane (f lane)) lanes = .ok lanes' := by
  induction ls generalizing lanes with
  | nil => exact ⟨lanes, rfl⟩
  | cons k rest ih =>
    obtain ⟨hk, hnodup⟩ := List.nodup_cons.mp hnodup
    obtain ⟨lane, lane', hlane, hf⟩ := h k List.mem_cons_self
    obtain ⟨lanes₁, h₁⟩ : ∃ lanes₁, lanes.modifyM k (f k) = .ok lanes₁ := by
      obtain ⟨hlt, rfl⟩ := Array.getElem?_eq_some_iff.mp hlane
      simp only [Array.modifyM, hlt, ↓reduceDIte, hf]
      exact ⟨_, rfl⟩
    obtain ⟨lanes', h'⟩ := @ih hnodup lanes₁ fun l hl => by
      rw [(modifyM_eq_ok h₁).2.1 l fun heq => hk (heq ▸ hl)]
      exact h l (List.mem_cons_of_mem _ hl)
    exact ⟨lanes', by rw [List.foldlM_cons, h₁]; exact h'⟩

section

variable {value : Value} {w : Wave} {i : Instr} {group : Workgroup} {id : Nat}

/-- An instruction of the lanes' own in lockstep. -/
theorem Wave.execute_of_isLaneLocal (h : i.isLaneLocal) : w.execute group value i = Exec.lift
      (w.updateLanes fun lane => Lane.execute group (Wave.laneId group w.id lane) value i) := by
  cases i with
  | intrinsic op => cases op <;> first | rfl | cases h
  | _ => rfl

/-- Every lane that is on runs an instruction that concerns it alone. -/
theorem Wave.execute_eq_pure (hlocal : i.isLaneLocal)
    {R : Nat → Lane → Prop} (h : ∀ l ∈ w.exec.lanes, ∃ lane lane', w.lanes[l]? = some lane ∧
      lane.execute group (Wave.laneId group w.id l) value i = .ok lane' ∧ R l lane') :
    ∃ lanes, (∀ l ∉ w.exec.lanes, lanes[l]? = w.lanes[l]?) ∧
      (∀ l ∈ w.exec.lanes, ∃ lane, lanes[l]? = some lane ∧ R l lane) ∧
      w.execute group value i = pure { w with lanes } := by
  have hnodup : w.exec.lanes.Nodup := (LaneMask.lanes_pairwise_lt w.exec).imp Nat.ne_of_lt
  obtain ⟨lanes, hlanes⟩ := exists_foldlM_modifyM (f := fun l => Lane.execute group (Wave.laneId group w.id l) value i)
    hnodup fun l hl => (h l hl).imp fun _ => .imp fun _ h => ⟨h.1, h.2.1⟩
  refine ⟨lanes, fun l hl => (foldlM_modifyM_eq_ok hnodup hlanes l).1 hl, fun l hl => ?_, ?_⟩
  · obtain ⟨lane, lane', hlane, hexecute, hR⟩ := h l hl
    obtain ⟨lane₁, hexecute₁, hlane₁⟩ := (foldlM_modifyM_eq_ok hnodup hlanes l).2 hl lane hlane
    cases hexecute.symm.trans hexecute₁
    exact ⟨lane', hlane₁, hR⟩
  · rw [Wave.execute_of_isLaneLocal hlocal]
    simp only [Wave.updateLanes, hlanes]
    rfl

end

/-! ## Lanes as threads -/

/-- The first `n` lanes have the states of their threads, and that is all. -/
def Tie.ofLanes (n : Nat) : Tie where
  Covers l := l < n
  Holds lanes _ T := ∀ l < n, lanes[l]? = some (T l).lane
  lane h := h

variable {c : Setting}

/-- Instructions that concern each lane alone do not untie lanes and threads. -/
theorem Value.preserves_ofLanes {E : RunError → Prop} {id n : Nat} {value : Value} (hfaults : c.faults)
    (hlocal : ∀ i, c.program.instr value = .ok i → i.isLaneLocal) :
    value.Preserves c id E (.ofLanes n) := by
  refine .of_execute fun w s T Q i hid htie hexec _ hi hwp => ?_
  subst hid
  have hlocal := hlocal i hi
  rw [Wave.execute_of_isLaneLocal hlocal]
  refine .lift ?_
  cases hupdate : w.updateLanes fun lane => Lane.execute c.group (Wave.laneId c.group w.id lane) value i with
  | error fault => exact hfaults
  | ok w' =>
    obtain ⟨lanes, hlanes, hw⟩ := except_bind_eq_ok.mp hupdate
    cases hw
    have hserved := foldlM_modifyM_eq_ok ((LaneMask.lanes_pairwise_lt w.exec).imp Nat.ne_of_lt) hlanes
    let T' (l : Nat) : Thread := if l ∈ w.exec.lanes then (T l).withLane (lanes[l]?.getD (T l).lane) else T l
    have hon (l : Nat) (hl : l ∈ w.exec.lanes) : ∃ lane, T' l = (T l).withLane lane ∧ lanes[l]? = some lane ∧
        (T l).lane.execute c.group (Wave.laneId c.group w.id l) value i = .ok lane := by
      obtain ⟨lane, hexecute, hlane⟩ := (hserved l).2 hl _ (htie l (hexec l hl))
      exact ⟨lane, by simp only [T', if_pos hl, hlane, Option.getD_some], hlane, hexecute⟩
    refine ⟨T', fun l hl => ?_, fun l hl => ?_, fun l hl => if_neg hl⟩
    · by_cases hexec : l ∈ w.exec.lanes
      · obtain ⟨lane, hT', hlane, -⟩ := hon l hexec
        rw [hT']
        exact hlane
      · rw [show T' l = T l from if_neg hexec]
        exact ((hserved l).1 hexec).trans (htie l hl)
    · obtain ⟨lane, hT', -, hexecute⟩ := hon l hl
      have hl' := hwp l hl
      rw [Instr.wp_of_isLaneLocal hlocal, hexecute] at hl'
      rw [hT']
      exact hl'

/-- A lane that meets a block as a thread does what it does on its own. -/
theorem Block.wp_runs (hfaults : c.faults) (id : LaneId) : ∀ block : Block,
    Block.All c.program (·.isLaneLocal) block → ∀ t : Thread, Block.wp c id block
      (fun u => Block.Runs c.group id block ⟨t.lane, []⟩ (.next ⟨u.lane, []⟩))
      (fun u => Block.Runs c.group id block ⟨t.lane, []⟩ (.left ⟨u.lane, []⟩)) t
  | [], _, t => by
    rw [Block.wp]
    exact .nil _
  | .instr value :: rest, hlocal, t => by
    rw [Block.wp, Node.wp]
    cases hi : c.program.instr value with
    | error fault => exact hfaults
    | ok i =>
      change i.wp _ _ _ _ _
      rw [Instr.wp_of_isLaneLocal (hlocal.instr hi)]
      cases he : t.lane.execute c.group id value i with
      | error fault => exact hfaults
      | ok lane =>
        have hruns := Instr.runs_of_isLaneLocal (hlocal.instr hi)
          (show (Invocation.lane ⟨t.lane, []⟩).execute c.group id value i = .ok lane from he)
        exact Block.wp_mono rest (Block.wp_runs hfaults id rest hlocal.head.2 (t.withLane lane))
          (fun u hu => .instr hi hruns hu) fun u hu => .instr hi hruns hu
  | .branch cond thenBlock elseBlock :: rest, hlocal, t => by
    rw [Block.wp, Node.wp]
    cases ha : t.lane.read cond with
    | error fault => exact hfaults
    | ok a =>
      have hrest := Block.wp_runs hfaults id rest hlocal.head.2
      have hall : Block.All c.program (·.isLaneLocal) (if a = 0 then elseBlock else thenBlock) := hlocal.side
      by_cases hzero : a = 0
      · simp only [Yields, hzero, ↓reduceIte] at hall ⊢
        exact Block.wp_mono elseBlock (Block.wp_runs hfaults id elseBlock hall t)
          (fun u hu => Block.wp_mono rest (hrest u) (fun v hv => .branch ha (by rwa [if_pos hzero]) hv)
            fun v hv => .branch ha (by rwa [if_pos hzero]) hv)
          fun u hu => .branch_left ha (by rwa [if_pos hzero])
      · simp only [Yields, hzero, ↓reduceIte] at hall ⊢
        exact Block.wp_mono thenBlock (Block.wp_runs hfaults id thenBlock hall t)
          (fun u hu => Block.wp_mono rest (hrest u) (fun v hv => .branch ha (by rwa [if_neg hzero]) hv)
            fun v hv => .branch ha (by rwa [if_neg hzero]) hv)
          fun u hu => .branch_left ha (by rwa [if_neg hzero])
  | .loop body :: rest, hlocal, t => by
    rw [Block.wp, Node.wp]
    -- However the loop ends from here on, it ends so from the start.
    refine ⟨fun u => ∀ ending, Block.Runs c.group id (.loop body :: rest) ⟨u.lane, []⟩ ending →
      Block.Runs c.group id (.loop body :: rest) ⟨t.lane, []⟩ ending, fun _ h => h, fun u hu => ?_⟩
    refine Block.wp_mono body (Block.wp_runs hfaults id body hlocal.head.1 u)
      (fun v hv ending h => hu ending (.again hv h)) fun v hv => ?_
    exact Block.wp_mono rest (Block.wp_runs hfaults id rest hlocal.head.2 v) (fun x hx => hu _ (.loop_left hv hx))
      fun x hx => hu _ (.loop_left hv hx)
  | .leave :: rest, _, t => by
    rw [Block.wp, Node.wp]
    exact .leave _

/-! ## Waves -/

/-- Lane-local code is run to its end in lockstep. -/
theorem Wave.lockstep_of_run_eq_done {group : Workgroup} {id budget b : Nat} {w : Wave} {s s' : Shared}
    (hcode : group.executable.code = (Block.code 0 group.program.body).toArray)
    (hlocal : Block.All group.program (·.isLaneLocal) group.program.body)
    (h : (Wave.start group id).run group budget s = .done ⟨w, b, .finished⟩ s') :
    ∃ φ, Block.lockstep group id budget group.program.body (Wave.start group id).formation s =
      .done φ s' ∧ w.lanes = φ.lanes := by
  have hat : CodeAt group.executable.code 0 (Block.code 0 group.program.body) :=
    ⟨[], [], by simp [hcode], rfl⟩
  have hbar : ∀ v ∈ Block.values group.program.body,
      group.program.instr v ≠ .ok (.intrinsic .barrier) := fun v hv hi => by
    cases hlocal v hv _ hi
  have hfollows := Block.follows s (Nat.le_refl budget) group.program.body
    (show CodeAt _ (Wave.start group id).pc _ from hat) hbar
  obtain ⟨w', t, b', hmap, hturn⟩ := hfollows.of_done h
  obtain ⟨φ, hφ, rfl⟩ := Outcome.map_eq_done_iff.mp hmap
  rw [Wave.turn_of_code_eq_none (by simp [arrive, hcode, start])] at hturn
  cases hturn
  exact ⟨φ, hφ, rfl⟩

/-- Every lane of a wave that has ended has the state that it reaches on its own. -/
theorem Wave.run_eq_scalar {program : Program} {group : Workgroup}
    (hgroup : program.toExecutable = .ok (.ok group.executable))
    (hlocal : Block.All program (·.isLaneLocal) program.body) {id budget b : Nat} {w : Wave}
    {s s' : Shared} (h : (Wave.start group id).run group budget s = .done ⟨w, b, .finished⟩ s') :
    ∀ l ∈ (Wave.start group id).launched.lanes, ∃ lane, w.lanes[l]? = some lane ∧
      ∀ ending, Block.Runs group (Wave.laneId group id l) program.body (.start program) ending ↔
        ending = .next ⟨lane, []⟩ := by
  obtain ⟨hexecutable, -⟩ := Program.toExecutable_eq_ok hgroup
  have hcode : group.executable.code = (Block.code 0 group.program.body).toArray := by
    rw [Workgroup.program, hexecutable]
  obtain rfl : group.program = program := by rw [Workgroup.program, hexecutable]
  obtain ⟨φ, hφ, hlanes⟩ := lockstep_of_run_eq_done hcode hlocal h
  change Block.lockstep group id budget group.program.body
    ⟨(Wave.start group id).launched, none, (Wave.start group id).lanes⟩ s = _ at hφ
  let c : Setting := ⟨group, fun _ => none, True⟩
  let T (_ : Nat) : Thread := ⟨Lane.start group.program, fun _ => 0, [], [], none⟩
  have hbelow : ∀ l ∈ (Wave.start group id).launched.lanes, l < group.wave.size := Setting.launched_below c id
  intro l hl
  have hready : Ready c (.ofLanes group.wave.size)
      ⟨(Wave.start group id).launched, none, (Wave.start group id).lanes⟩ s T fun _ _ => True := by
    refine ⟨fun k hk => by simp [T, start, hk], hbelow, fun k _ => LaneMask.not_mem_lanes_empty k,
      fun _ => ⟨?_, fun _ _ h => h⟩⟩
    rw [← Bool.not_eq_true]
    intro hempty
    rw [LaneMask.lanes_eq_nil_iff.mpr hempty] at hl
    cases hl
  have hends := Block.runsFrom (E := fun _ => True) trivial budget group.program.body
    (fun v hv => Value.preserves_ofLanes (c := c) trivial (hlocal v hv)) _ s T _ _ hready
    fun k _ => Block.wp_mono _ (Block.wp_runs (c := c) trivial (Wave.laneId group id k) _ hlocal (T k))
      (fun u hu => hu) fun _ _ => trivial
  rw [hφ] at hends
  obtain ⟨T', hmoved⟩ := hends
  have hleft : φ.left = none := by simpa using hmoved.left
  have hruns := (hmoved.on l (hmoved.exec_eq hleft ▸ hl)).2
  refine ⟨(T' l).lane, hlanes ▸ hmoved.tie l (hbelow l hl), fun ending => ⟨fun hending => ?_, fun h => h ▸ hruns⟩⟩
  have hscalar : Block.All group.program (·.isScalar) group.program.body :=
    fun v hv i hi => Instr.isScalar_of_isLaneLocal (hlocal v hv i hi)
  exact hending.unique hscalar hruns

/-- Each lane counts up to its own number, so the lanes leave the loop one after the other. -/
def countingProgram : Program where
  stage := .vertex
  definitions := #[⟨.intrinsic (.input .localInvocationIndex), .u32⟩, ⟨.const .u32 1, .u32⟩,
    ⟨.loadVar ⟨0⟩, .u32⟩, ⟨.binary .lt ⟨2⟩ ⟨0⟩, .bool⟩, ⟨.binary .add ⟨2⟩ ⟨1⟩, .u32⟩,
    ⟨.storeVar ⟨0⟩ ⟨4⟩, .void⟩, ⟨.intrinsic (.storeOutput ⟨0, 0, 0⟩ ⟨2⟩), .void⟩]
  vars := #[⟨"count", .u32⟩]
  body := [.instr ⟨0⟩, .instr ⟨1⟩, .loop [.instr ⟨2⟩, .instr ⟨3⟩,
    .branch ⟨3⟩ [.instr ⟨4⟩, .instr ⟨5⟩] [.instr ⟨6⟩, .leave]]]

theorem isLaneLocal_countingProgram : Block.All countingProgram (·.isLaneLocal) countingProgram.body := by
  intro v hv i hi
  have hmem : v ∈ [(⟨0⟩ : Value), ⟨1⟩, ⟨2⟩, ⟨3⟩, ⟨4⟩, ⟨5⟩, ⟨6⟩] := hv
  simp only [List.mem_cons, List.not_mem_nil, or_false] at hmem
  rcases hmem with rfl | rfl | rfl | rfl | rfl | rfl | rfl <;> cases hi <;> rfl

theorem Wave.run_eq_scalar_counting :
    let executable : Executable := ⟨countingProgram, (Block.code 0 countingProgram.body).toArray⟩
    let group : Workgroup := ⟨executable, { numLanes := 3 }, .wave32⟩
    ∃ lane, Block.Runs group (Wave.laneId group 0 2) countingProgram.body (.start countingProgram)
      (.next ⟨lane, []⟩) ∧ lane.vars = #[2] ∧ lane.outputs = [(⟨0, 0, 0⟩, 2)] := by
  intro executable group
  have hend : ((Wave.start group 0).run group 100 { memory := {} }).value?.map (fun p =>
      (p.halt, p.wave.lanes[2]?.map fun lane => (lane.vars, lane.outputs))) =
        some (.finished, some (#[2], [(⟨0, 0, 0⟩, 2)])) := by decide +kernel
  obtain ⟨⟨w, b, halt⟩, hvalue, hpair⟩ := Option.map_eq_some_iff.mp hend
  obtain ⟨rfl, hlanes⟩ := Prod.mk.inj hpair
  obtain ⟨s', hrun⟩ := Outcome.exists_done_of_value? hvalue
  obtain ⟨lane, hlane, hruns⟩ := Wave.run_eq_scalar (show countingProgram.toExecutable = _ from rfl)
    isLaneLocal_countingProgram hrun 2 (by decide +kernel)
  rw [hlane] at hlanes
  obtain ⟨hvars, houtputs⟩ := Prod.mk.inj (Option.some.inj hlanes)
  exact ⟨lane, (hruns _).mpr rfl, hvars, houtputs⟩

end PrimitiveShader
