import PrimitiveShader.Proofs.Lowering.Emitters
import PrimitiveShader.Proofs.Lowering.Geometry.Validity

/-!
# Clearing the flags of unused places

When an invocation states its vertex count, a loop clears the flags of the places behind. The lanes of a wave enter
the loop with different counts, so they leave it in different rounds. Each round brings a lane that stays nearer to
the last of its places, and no lane touches the flags of another, so the loop comes to an end for all lanes and for
any counts (`GeometryPlan.clearFlags_zeroes_tail`).
-/

namespace PrimitiveShader

/-! ## A wave anywhere in its program -/

/-- The exports of a lane carry its number. -/
theorem exportsOf_eq_map {α : Type} (a : Array (Nat × α)) (lane : Nat) :
    exportsOf a lane = ((exportsOf a lane).map (·.2)).map (lane, ·) := by
  rw [List.map_map, List.map_congr_left, List.map_id]
  rintro ⟨l, x⟩ hx
  have hl : l = lane := by simpa using (List.mem_filter.mp hx).2
  rw [← hl]
  rfl

/-- The lanes of a wave as threads that see the memory as it is and know what they have exported. -/
def Shared.threads (c : Setting) (id : Nat) (lanes : Array Lane) (s : Shared) (l : Nat) : Thread where
  lane := lanes[l]?.getD ⟨#[], #[], []⟩
  view := s.memory.byteAt
  primitives := (exportsOf s.result.primitives (c.index id l)).map (·.2)
  vertices := (exportsOf s.result.vertices (c.index id l)).map (·.2)
  space := s.result.allocation

/-- In the middle of a run, too, the lanes of a wave are a crew, if the accesses so far keep to the ownership. -/
theorem Shared.crew_threads {c : Setting} {id : Nat} {lanes : Array Lane} {s : Shared}
    (hcount : lanes.size = c.group.wave.size) (hsized : ∀ lane ∈ lanes, lane.Sized c.program)
    (hobeys : s.memory.Obeys c.own c.group.wave.size) (hshare : c.program.sharedSize ≤ s.memory.cells.size) :
    Crew c id lanes s (s.threads c id lanes) := by
  have hlane (l : Nat) (hl : l < c.group.wave.size) : lanes[l]? = some (s.threads c id lanes l).lane := by
    rw [threads, Array.getElem?_eq_getElem (hcount ▸ hl), Option.getD_some]
  exact ⟨hcount, hlane, fun l hl => hsized _ (Array.mem_of_getElem? (hlane l hl)), fun _ _ _ _ => rfl,
    fun _ _ => exportsOf_eq_map _ _, fun _ _ => exportsOf_eq_map _ _, fun _ => rfl, hobeys, hshare⟩

/-- What a block does in lockstep its flat code does too, in so many operations. -/
theorem Block.turn_of_lockstep {group : Workgroup} {fuel : Nat} {w : Wave} {s t : Shared} {block : Block}
    {φ : Formation} (hcode : CodeAt group.executable.code w.pc (Block.code w.pc block))
    (hbar : ∀ v ∈ Block.values block, group.program.instr v ≠ .ok (.intrinsic .barrier))
    (hdone : Block.lockstep group w.id fuel block w.formation s = .done φ t) :
    ∃ cost, ∀ budget, w.turn group (cost + budget) s =
      (w.arrive φ (w.pc + (Block.code w.pc block).length)).turn group budget t := by
  obtain ⟨cost, -, hend⟩ := Block.retraces_perform (Wave.drives_turn group) fuel s block hcode hbar
  rw [Block.perform_lockstep] at hend
  dsimp only [Report.map, Traced.quietly] at hend
  rw [hdone] at hend
  exact ⟨cost, fun budget => congrArg Report.outcome (hend budget)⟩

/-! ## Departures -/

/-- Without loops the step limit is no way to end. -/
theorem RunsFrom.of_departing {c : Setting} {id : Nat} {E : RunError → Prop} {K : Tie}
    (hK : ∀ value : Value, value.Preserves c id E K) (fuel : Nat) {block : Block} (h : ∀ node ∈ block,
      (∃ value, node = .instr value) ∨ ∃ cond, node = .branch cond [.leave] []) :
    RunsFrom c E K (Block.lockstep c.group id fuel block) (Block.pre c id block) := by
  induction block with
  | nil => exact .nil
  | cons node rest ih =>
    refine .cons ?_ (ih fun node hnode => h node (List.mem_cons_of_mem _ hnode))
    rcases h node List.mem_cons_self with ⟨value, rfl⟩ | ⟨cond, rfl⟩
    · exact .instr (hK value)
    · exact .branch (.cons .leave .nil) .nil

namespace Lowering.GeometryPlan

open Emit

/-! ## The loop -/

section

variable {plan : GeometryPlan} {stream : UInt8} {first : Value} {p p' : Program} {region : Region}
  {group : Workgroup} {id : Nat} {on : LaneMask} {l n a : Nat}

/-- While the loop runs, the lanes in it own the flags of their places. All other bytes are left to a lane that no
workgroup has. -/
def flagOwner (plan : GeometryPlan) (region : Region) (group : Workgroup) (id : Nat) (on : LaneMask) : Ownership :=
  fun a => some <|
    if region.offset ≤ a ∧ ∃ l ∈ on.lanes,
        (Wave.laneId group id l).index = (a - region.offset) / plan.config.geometry.maxVerticesOut then
      (a - region.offset) / plan.config.geometry.maxVerticesOut
    else SharedMemory.maxReaders * 64

theorem Sound.flagOwner_placeOf (h : plan.Sound) (hl : l ∈ on.lanes) (hn : n < plan.config.geometry.maxVerticesOut) :
    plan.flagOwner region group id on (region.offset + plan.placeOf (Wave.laneId group id l).index n) =
      some (Wave.laneId group id l).index := by
  have hdiv : (region.offset + plan.placeOf (Wave.laneId group id l).index n - region.offset) /
      plan.config.geometry.maxVerticesOut = (Wave.laneId group id l).index := by
    rw [Nat.add_sub_cancel_left, h.placeOf_div _ hn]
  rw [flagOwner, if_pos ⟨Nat.le_add_right _ _, l, hl, hdiv.symm⟩, hdiv]

theorem Sound.flagOwner_cases (h : plan.Sound) (group : Workgroup) (id : Nat) (on : LaneMask) (region : Region)
    (a : Nat) : (∃ l ∈ on.lanes, ∃ n < plan.config.geometry.maxVerticesOut,
        a = region.offset + plan.placeOf (Wave.laneId group id l).index n) ∨
      ∀ lane, plan.flagOwner region group id on a = some lane →
        SharedMemory.maxReaders ≤ lane / group.wave.size := by
  by_cases hin : region.offset ≤ a ∧ ∃ l ∈ on.lanes,
      (Wave.laneId group id l).index = (a - region.offset) / plan.config.geometry.maxVerticesOut
  · obtain ⟨hle, l, hl, hindex⟩ := hin
    refine .inl ⟨l, hl, (a - region.offset) % plan.config.geometry.maxVerticesOut, Nat.mod_lt _ h.positive, ?_⟩
    have hdiv := Nat.div_add_mod (a - region.offset) plan.config.geometry.maxVerticesOut
    rw [← hindex, Nat.mul_comm] at hdiv
    unfold placeOf
    omega
  · refine .inr fun lane hown => ?_
    rw [flagOwner, if_neg hin] at hown
    obtain rfl := Option.some.inj hown
    have hsize : group.wave.size ≤ 64 := by cases group.wave <;> decide
    exact (Nat.le_div_iff_mul_le group.wave_size_pos).mpr (Nat.mul_le_mul_left _ hsize)

/-- The flag of one place. -/
theorem withCleared_placeOf (hr : plan.flagsRegion stream = .ok region) {i start stop : Nat} (hn : n < stop)
    {view : Nat → UInt8} : plan.withCleared stream i start stop view (region.offset + plan.placeOf i n) =
      if start ≤ n then 0 else view (region.offset + plan.placeOf i n) := by
  simp only [withCleared, hr, placeOf, Nat.add_le_add_iff_left, Nat.add_lt_add_iff_left, hn, and_true]

/-- The code is a store to a variable of its own and a loop. -/
theorem clearFlags_eq_ok (h : plan.clearFlags stream first p = .ok ((), p'))
    (hr : plan.flagsRegion stream = .ok region) :
    ∃ index p₁ p₂ inner, p₁.body = p.body ∧ p₁.varType? index = some .u32 ∧ storeVar index first p₁ = .ok ((), p₂) ∧
      plan.clearRound region index { p₂ with body := [] } = .ok ((), inner) ∧
      p' = { inner with body := p₂.body ++ [.loop inner.body] } := by
  unfold clearFlags at h
  obtain ⟨region', hregion, h⟩ := lift_bind_eq_ok_iff.mp h
  obtain rfl : region = region' := Except.ok.inj (hr.symm.trans hregion)
  obtain ⟨index, p₁, hcreate, h⟩ := bind_eq_ok_iff.mp h
  obtain ⟨⟨⟩, p₂, hstore, h⟩ := bind_eq_ok_iff.mp h
  obtain ⟨inner, hinner, rfl⟩ := loop_eq_ok h
  refine ⟨index, p₁, p₂, inner, ?_, ?_, hstore, hinner, rfl⟩ <;> cases hcreate
  · rfl
  · simp [Program.varType?, Program.var?]

/-- A round has no branches but the departure from the loop. -/
theorem nodes_of_clearRound {index : Var} (h : plan.clearRound region index p = .ok ((), p')) :
    ∀ node ∈ p'.body.drop p.body.length,
      (∃ value, node = .instr value) ∨ ∃ cond, node = .branch cond [.leave] [] := by
  have hstraight {α : Type} {e : Emit α} [he : Straight (Instr.Runnable true) e] {q q' : Program} {x : α}
      (hx : e q = .ok (x, q')) : ∀ node ∈ q'.body.drop q.body.length, ∃ value, node = .instr value := he.nodes hx
  obtain ⟨i, p₁, h₁, h⟩ := bind_eq_ok_iff.mp h
  obtain ⟨done, p₂, h₂, h⟩ := bind_eq_ok_iff.mp h
  obtain ⟨⟨⟩, p₃, h₃, h⟩ := bind_eq_ok_iff.mp h
  have hgrows₃ := Emit.grows _ h₃
  have hgrows₄ := Emit.grows _ h
  obtain ⟨inner, hinner, rfl⟩ := ifThen_eq_ok h₃
  obtain rfl := place_eq_ok hinner
  intro node hnode
  have hgrows₂ := Emit.grows _ h₂
  rw [drop_body_eq (Emit.grows _ h₁) (hgrows₂.trans (hgrows₃.trans hgrows₄)),
    drop_body_eq hgrows₂ (hgrows₃.trans hgrows₄), drop_body_eq hgrows₃ hgrows₄, List.drop_left] at hnode
  simp only [List.mem_append, List.mem_singleton] at hnode
  rcases hnode with hnode | hnode | hnode | hnode
  · exact .inl (hstraight h₁ node hnode)
  · exact .inl (hstraight h₂ node hnode)
  · exact .inr ⟨_, hnode⟩
  · exact .inl (hstraight h node hnode)

/-- The loop has cleared flags, and leaves after less than `k` more rounds. -/
def ClearsWithin (plan : GeometryPlan) (c : Setting) (stream : UInt8) (i : Nat) (index : Var) (first : UInt64)
    (p : Program) (t : Thread) (k : Nat) (u : Thread) : Prop :=
  u.Sized c ∧ ∃ n, plan.config.geometry.maxVerticesOut - n.toNat < k ∧ plan.ClearsTo stream i index first p t n u

/-- A round brings a lane nearer to its last place, or the lane leaves with all flags cleared. -/
theorem Seat.wp_round {c : Setting} {id : LaneId} (h : plan.Seat c id) (hr : plan.flagsRegion stream = .ok region)
    (hown : ∀ n < plan.config.geometry.maxVerticesOut,
      c.own (region.offset + plan.placeOf id.index n) = some id.index) {index : Var} {inner : Program}
    (hround : plan.clearRound region index { p with body := [] } = .ok ((), inner)) (hw : inner.Within c.program)
    (htype : p.varType? index = some .u32) {first : UInt64} {t u : Thread} {k : Nat}
    (hu : plan.ClearsWithin c stream id.index index first p t (k + 1) u) :
    Block.wp c id inner.body (plan.ClearsWithin c stream id.index index first p t k)
      (fun v => Adjusted (Eq index) p { t with
        view := plan.withCleared stream id.index first.toNat plan.config.geometry.maxVerticesOut t.view } p v) u := by
  obtain ⟨hsized, n, hk, hclears⟩ := hu
  have hwithin : p.Within { p with body := [] } := .same
  have hwp := wp_clearRound h hr hown hwithin htype hclears hsized () inner hround hw
  refine Block.wp_mono _ (Block.wp_sized _ hsized hwp) ?_ fun _ hv => hv.2
  rintro v ⟨hsized', n₁, hlt, hclears₁⟩
  exact ⟨hsized', n₁, by omega, hclears₁⟩

/-- The address of a flag that is to be cleared: one from number `x l` on of a lane `l` of the wave. -/
def InTail (plan : GeometryPlan) (region : Region) (group : Workgroup) (id : Nat) (on : LaneMask) (x : Nat → UInt32)
    (a : Nat) : Prop :=
  ∃ l ∈ on.lanes, ∃ n, (x l).toNat ≤ n ∧ n < plan.config.geometry.maxVerticesOut ∧
    a = region.offset + plan.placeOf (Wave.laneId group id l).index n

variable {φ : Formation} {s : Shared} {x : Nat → UInt32}

/-- A wave in front of the loop. The lanes that are on have places of their own and numbers in the register `first`. -/
structure Enters (plan : GeometryPlan) (region : Region) (group : Workgroup) (first : Value) (id : Nat) (φ : Formation)
    (x : Nat → UInt32) (s : Shared) : Prop extends plan.Sound where
  share : group.program.sharedSize = plan.layout.size
  cells : plan.layout.size ≤ s.memory.cells.size
  wave : id < SharedMemory.maxReaders
  count : φ.lanes.size = group.wave.size
  sized : ∀ lane ∈ φ.lanes, lane.Sized group.program
  lanes : ∀ l ∈ φ.exec.lanes, (Wave.laneId group id l).index < plan.config.geometry.maxInputPrimitives ∧
    ∃ lane, φ.lanes[l]? = some lane ∧ lane.read first = .ok (x l).toUInt64
  free : ∀ l ∈ φ.exec.lanes, ∀ n < plan.config.geometry.maxVerticesOut,
    (s.memory.cellAt (region.offset + plan.placeOf (Wave.laneId group id l).index n)).Writable
      ⟨id, (Wave.laneId group id l).index⟩

/-- The setting of the loop. No fault is expected. -/
abbrev clearing (plan : GeometryPlan) (region : Region) (group : Workgroup) (id : Nat) (on : LaneMask) : Setting :=
  ⟨group, plan.flagOwner region group id on, False⟩

namespace Enters

variable (h : plan.Enters region group first id φ x s)
include h

theorem below (hl : l ∈ φ.exec.lanes) : l < group.wave.size := by
  obtain ⟨-, lane, hlane, -⟩ := h.lanes l hl
  exact h.count ▸ (Array.getElem?_eq_some_iff.mp hlane).1

theorem fits (on : LaneMask) : Setting.Fits (plan.clearing region group id on) id where
  share := by
    change group.program.sharedSize < 2 ^ 64
    rw [h.share]
    exact Nat.lt_trans h.small (by decide)
  wave := h.wave

theorem crew : Crew (plan.clearing region group id φ.exec) id φ.lanes s
    (s.threads (plan.clearing region group id φ.exec) id φ.lanes) := by
  refine Shared.crew_threads h.count h.sized ⟨fun a => nofun, fun a lane hown hwave => ?_⟩
    (Nat.le_trans (Nat.le_of_eq h.share) h.cells)
  rcases h.flagOwner_cases group id φ.exec region a with ⟨l, hl, n, hn, rfl⟩ | hforeign
  · obtain rfl := Option.some.inj ((h.flagOwner_placeOf hl hn).symm.trans hown)
    have hdiv : (Wave.laneId group id l).index / group.wave.size = id :=
      @Setting.index_div (plan.clearing region group id φ.exec) id l (h.below hl)
    rw [hdiv]
    exact h.free l hl n hn
  · exact absurd hwave (Nat.not_lt.mpr (hforeign lane hown))

/-- The lanes that are on run the code to its end, and each of them sees its flags cleared from its number on. -/
theorem lockstep_ends (hr : plan.flagsRegion stream = .ok region)
    (he : plan.clearFlags stream first p = .ok ((), p')) (hw : p'.Within group.program) :
    (Block.lockstep group id (plan.config.geometry.maxVerticesOut + 1) (p'.body.drop p.body.length) φ s).Ends
      (fun _ => False) False fun φ' s' => φ' = { φ with lanes := φ'.lanes } ∧ ∃ T',
        Crew (plan.clearing region group id φ.exec) id φ'.lanes s' T' ∧
        s.Steps (plan.clearing region group id φ.exec) id s' ∧
        (∀ l ∉ φ.exec.lanes, T' l = s.threads (plan.clearing region group id φ.exec) id φ.lanes l) ∧
        ∀ l ∈ φ.exec.lanes, (T' l).view = plan.withCleared stream (Wave.laneId group id l).index (x l).toNat
          plan.config.geometry.maxVerticesOut s.memory.byteAt := by
  obtain ⟨index, p₁, p₂, inner, hbody, htype, hstore, hround, rfl⟩ := clearFlags_eq_ok he hr
  obtain ⟨hgains, hbody₂⟩ := run_eq_ok hstore
  have hinner : p₂.Within inner := by
    have := (Emit.grows _ hround).toWithin
    exact ⟨this.definitions, this.vars⟩
  have hw' : inner.Within group.program := ⟨hw.definitions, hw.vars⟩
  have hblock : (p₂.body ++ [Node.loop inner.body]).drop p.body.length =
      [.instr ⟨p₁.definitions.size⟩, .loop inner.body] := by
    rw [hbody₂, hbody, List.append_assoc, List.drop_left]
    rfl
  let c := plan.clearing region group id φ.exec
  let T := s.threads c id φ.lanes
  let start (l : Nat) : Thread := (T l).setVar index (x l).toUInt64
  have hkept (value : Value) : value.Preserves c id (fun _ => False) (Crew.tie c id s) :=
    Crew.preserves_tie (h.fits φ.exec) s value
  -- The variable starts with the number of the lane.
  have hset : ∀ l ∈ φ.exec.lanes, Node.pre c id (.instr ⟨p₁.definitions.size⟩) l (fun u => u.Sized c ∧
      u = start l ∧ u.lane.readVar index = .ok (x l).toUInt64) (fun _ => False) (T l) := by
    intro l hl
    obtain ⟨-, lane, hlane, hread⟩ := h.lanes l hl
    have hread' : (T l).lane.read first = .ok (x l).toUInt64 := by
      change ((φ.lanes[l]?).getD _).read first = _
      rwa [hlane]
    have hsized : (T l).Sized c := h.crew.sized l (h.below hl)
    have hwp : Emit.wp c (Wave.laneId group id l) (storeVar index first) p₁ (fun _ _ u =>
        u = start l ∧ u.lane.readVar index = .ok (x l).toUInt64) (fun _ => False) (T l) :=
      wp_storeVar htype hread' fun _ _ hread => ⟨rfl, hread⟩
    have hblock := Block.wp_sized _ hsized (hwp hsized () p₂ hstore (hinner.trans hw'))
    rw [hbody₂, List.drop_left] at hblock
    exact Node.wp_mono _ hblock (fun u hu => hu) fun u hu => hu.2
  rw [hblock, Block.lockstep, Node.lockstep]
  refine .bind ((hkept _ φ s T _ (fun _ _ => False) ⟨h.crew, .refl s⟩ (fun l hl => h.below hl) hset).mono ?_)
  rintro φ₁ s₁ - ⟨T₁, h₁⟩
  rw [Block.lockstep]
  have hdeparts : RunsFrom c (fun _ => False) (Crew.tie c id s) _ _ := .of_departing hkept
    (plan.config.geometry.maxVerticesOut + 1)
    fun node hnode => nodes_of_clearRound hround node (by simpa using hnode)
  let cleared (l : Nat) : Nat → UInt8 := plan.withCleared stream (Wave.laneId group id l).index
    (x l).toUInt64.toNat plan.config.geometry.maxVerticesOut s.memory.byteAt
  refine .bind ((hdeparts.loop_passes (L := fun _ _ => False)
    (Q := fun l v => Adjusted (Eq index) p₂ ((start l).see (cleared l)) p₂ v)
    (I := fun k l u => l ∈ φ.exec.lanes ∧ plan.ClearsWithin c stream (Wave.laneId group id l).index index
      (x l).toUInt64 p₂ (start l) k u) (fun k l t ht => ?_)
    (.inr ⟨Nat.succ_pos _, fun l t ht => ?_⟩) h₁.tie (fun l hl => h.below (h₁.on l hl).1) fun l hl => ?_).mono ?_)
  · have hseat : plan.Seat c (Wave.laneId group id l) := ⟨h.toSound, (h.lanes l ht.1).1, h.share⟩
    exact Block.wp_mono _ (hseat.wp_round hr (fun n hn => h.flagOwner_placeOf ht.1 hn) hround hw'
      (hgains.toWithin.varType?_eq htype) ht.2) (fun u hu => ⟨ht.1, hu⟩) fun u hu => hu
  · obtain ⟨-, -, n, hn, -⟩ := ht
    exact Nat.not_lt_zero _ hn
  · obtain ⟨hl₀, hsized, heq, hread⟩ := h₁.on l hl
    refine ⟨hl₀, hsized, (x l).toUInt64, Nat.lt_succ_of_le (Nat.sub_le _ _), hread, Nat.le_refl _, .inl rfl, ?_⟩
    rw [withCleared_of_le (Nat.le_refl _), heq]
    exact .refl _ _ _
  · rintro φ₂ s₂ - ⟨T₂, h₂⟩
    rw [Block.lockstep]
    have hall := h₁.trans h₂
    refine ⟨hall.eq_of_stays, T₂, hall.tie.1, hall.tie.2, hall.others, fun l hl => ?_⟩
    have hadjusted := (hall.on l (by rwa [hall.eq_of_stays])).2
    rw [hadjusted.view]
    change plan.withCleared stream _ (x l).toUInt64.toNat _ _ = _
    rw [UInt32.toNat_toUInt64]

end Enters

end

/-- For every plan and every stream with flags: where the loop is emitted, any lanes of any wave that have a place
and nobody else's traces on their flags run it to its end, whatever numbers they start with. Each of them clears
its flags from its number on, nothing else in memory changes, and the same lanes go on behind the loop. -/
theorem clearFlags_zeroes_tail {config : Config} {source declared : Program} {survey : Survey} {plan : GeometryPlan}
    (hconfig : config.validateGeometry = .ok ()) (hsurvey : Survey.ofProgram source config.geometry = .ok survey)
    (hplan : makePlan config survey source = .ok (plan, declared)) {stream : UInt8}
    (huse : config.geometry.usesStream stream) (p : Program) (first : Value) (hfirst : p.typeOf first = .ok .u32) :
    ∃ region p', plan.flagsRegion stream = .ok region ∧ plan.clearFlags stream first p = .ok ((), p') ∧
      ∀ (group : Workgroup) (w : Wave) (x : Nat → UInt32) (s : Shared), p'.Within group.program →
        group.program.sharedSize = plan.layout.size → plan.layout.size ≤ s.memory.cells.size →
        w.id < SharedMemory.maxReaders → w.lanes.size = group.wave.size →
        (∀ lane ∈ w.lanes, lane.Sized group.program) →
        CodeAt group.executable.code w.pc (Block.code w.pc (p'.body.drop p.body.length)) →
        (∀ l ∈ w.exec.lanes, (Wave.laneId group w.id l).index < config.geometry.maxInputPrimitives ∧
          ∃ lane, w.lanes[l]? = some lane ∧ lane.read first = .ok (x l).toUInt64) →
        (∀ l ∈ w.exec.lanes, ∀ n < config.geometry.maxVerticesOut,
          (s.memory.cellAt (region.offset + plan.placeOf (Wave.laneId group w.id l).index n)).Writable
            ⟨w.id, (Wave.laneId group w.id l).index⟩) →
        ∃ cost lanes s', (∀ budget, w.run group (cost + budget) s = Wave.run group budget
            { w with pc := w.pc + (Block.code w.pc (p'.body.drop p.body.length)).length, lanes } s') ∧
          (∀ l ∉ w.exec.lanes, lanes[l]? = w.lanes[l]?) ∧
          ∀ a, (plan.InTail region group w.id w.exec x a → s'.memory.byteAt a = 0) ∧
            (¬ plan.InTail region group w.id w.exec x a → s'.memory.byteAt a = s.memory.byteAt a) := by
  have haccepted := validateGeometry_eq_ok_iff.mp hconfig
  obtain rfl := (makePlan_eq_ok hplan).1
  have hsound := sound_of_makePlan haccepted hsurvey hplan
  obtain ⟨region, hr⟩ := exists_flagsRegion haccepted hplan huse
  obtain ⟨⟨⟩, p', he⟩ : ∃ u p', plan.clearFlags stream first p = .ok (u, p') :=
    Writes.exists_eq_ok (Q := fun _ _ => True) (writes_clearFlags (provides_of_makePlan haccepted hsurvey hplan) huse
      ⟨trivial, hfirst⟩ fun _ _ => trivial)
  refine ⟨region, p', hr, he, fun group w x s hw hshare hcells hwave hcount hsized hcode hlanes hfree => ?_⟩
  have henters : plan.Enters region group first w.id w.formation x s :=
    ⟨hsound, hshare, hcells, hwave, hcount, hsized, hlanes, hfree⟩
  obtain ⟨φ, s', hdone, hφ, T', hcrew, hsteps, hothers, hviews⟩ := (henters.lockstep_ends hr he hw).exists_done
  have hnovel : Novel (Instr.Runnable false) (plan.clearFlags stream first) := inferInstance
  obtain ⟨cost, hturn⟩ := Block.turn_of_lockstep hcode (fun v hv hbarrier => by
    obtain ⟨-, instr, hinstr, hrunnable⟩ := hnovel.placed he v hv
    cases (hw.instr_eq hinstr).symm.trans hbarrier
    exact hrunnable.barrier rfl rfl) hdone
  rw [hφ, Wave.arrive_lanes] at hturn
  refine ⟨cost, φ.lanes, s', hturn, fun l hl => ?_, fun a => ?_⟩
  · by_cases hlt : l < group.wave.size
    · rw [hcrew.lane l hlt, hothers l hl, ← henters.crew.lane l hlt]
      rfl
    · have hsame : φ.lanes.size = w.lanes.size := hcrew.count.trans hcount.symm
      rw [Array.getElem?_eq_none (by omega), Array.getElem?_eq_none (by omega)]
  -- A flag is seen by its lane, and every other byte belongs to nobody in the wave.
  · have hseen : ∀ l ∈ w.exec.lanes, ∀ n < plan.config.geometry.maxVerticesOut,
        a = region.offset + plan.placeOf (Wave.laneId group w.id l).index n →
        s'.memory.byteAt a = if (x l).toNat ≤ n then 0 else s.memory.byteAt a := by
      rintro l hl n hn rfl
      rw [← hcrew.view l (henters.below hl) _ (.inr (hsound.flagOwner_placeOf hl hn)), hviews l hl]
      exact withCleared_placeOf hr hn
    refine ⟨?_, fun hnot => ?_⟩
    · rintro ⟨l, hl, n, hle, hn, ha⟩
      rw [hseen l hl n hn ha, if_pos hle]
    · rcases hsound.flagOwner_cases group w.id w.exec region a with ⟨l, hl, n, hn, ha⟩ | hforeign
      · rw [hseen l hl n hn ha, if_neg fun hle => hnot ⟨l, hl, n, hle, hn, ha⟩]
      · exact hsteps.bytes a fun lane hown hid => Nat.not_lt.mpr (hforeign lane hown) (hid ▸ hwave)

/-- The plan of a program without outputs. -/
def barePlan : GeometryPlan :=
  ((makePlan {} {} { stage := .geometry }).toOption.map (·.1)).getD ⟨{}, .empty, [], 0⟩

/-- A number for each lane. -/
def numberProgram : Program where
  stage := .geometry
  definitions := #[⟨.intrinsic (.input .localInvocationIndex), .u32⟩]
  body := [.instr ⟨0⟩]

/-- The program with a loop that clears the flags from this number on. -/
def clearingProgram : Program :=
  { ((barePlan.clearFlags 0 ⟨0⟩ numberProgram).toOption.map (·.2)).getD numberProgram with sharedSize := 260 }

def clearingGroup : Workgroup :=
  ⟨⟨clearingProgram, (Block.code 0 clearingProgram.body).toArray⟩, { numLanes := 3 }, .wave32⟩

/-- A lane with its number. -/
def numberLane (x : UInt32) : Lane where
  registers := #[x.toUInt64] ++ Array.replicate (clearingProgram.definitions.size - 1) 0
  vars := #[0]

/-- Three lanes in front of the loop. The numbers of the first two lie below and far above the maximum, the last lane is
off. -/
def unevenWave : Wave where
  id := 0
  launched := .first 3
  exec := .first 2
  pc := 1
  frames := [.branch (.first 3) (LaneMask.empty.insert 2)]
  lanes := #[numberLane 1, numberLane 4294967295] ++ Array.replicate 30 (numberLane 0)

/-- A memory full of flags. -/
def flaggedMemory : SharedMemory := SharedMemory.reserve { fill := 7 } 260

theorem makePlan_barePlan : makePlan {} {} { stage := .geometry } = .ok (barePlan, { stage := .geometry }) := by rfl

theorem writable_flaggedMemory (a : Nat) (writer : Writer) : (flaggedMemory.cellAt a).Writable writer := by
  rw [flaggedMemory, SharedMemory.cellAt_reserve]
  simp [SharedMemory.cellAt, Entry.cell, Cell.Writable, Cell.mem_readers]

theorem clearFlags_zeroes_tail_uneven : ∃ cost lanes s', (∀ budget,
      unevenWave.run clearingGroup (cost + budget) { memory := flaggedMemory } =
        Wave.run clearingGroup budget { unevenWave with pc := 20, lanes } s') ∧
    ∀ a, 5 ≤ a → a ≤ 7 → s'.memory.byteAt a = 0 := by
  obtain ⟨region, p', hregion, he, h⟩ := clearFlags_zeroes_tail (show Config.validateGeometry {} = .ok () by decide)
    (show Survey.ofProgram { stage := .geometry } _ = .ok {} from rfl) makePlan_barePlan
    (show GeometryLimits.usesStream {} 0 by decide) numberProgram ⟨0⟩ rfl
  obtain rfl : region = ⟨"prim_flags", 4, 128⟩ := by
    have : barePlan.flagsRegion 0 = .ok ⟨"prim_flags", 4, 128⟩ := by rfl
    exact Except.ok.inj (hregion.symm.trans this)
  have hwithin : p'.Within clearingProgram := by
    rw [clearingProgram, he]
    exact .same
  have hbody : p'.body = clearingProgram.body := by rw [clearingProgram, he]; rfl
  have hon : ∀ l ∈ unevenWave.exec.lanes, l = 0 ∨ l = 1 := by decide +kernel
  have hsized : ∀ lane ∈ unevenWave.lanes.toList, lane.registers.size = clearingProgram.definitions.size ∧
      lane.vars.size = clearingProgram.vars.size := by decide +kernel
  rw [hbody] at h
  obtain ⟨cost, lanes, s', hrun, -, hbytes⟩ := h clearingGroup unevenWave (fun l => if l = 0 then 1 else 4294967295)
    { memory := flaggedMemory } hwithin (by decide +kernel) (by decide +kernel) (by decide) (by decide +kernel)
    (fun lane hlane => ⟨(hsized lane (Array.mem_def.mp hlane)).1, (hsized lane (Array.mem_def.mp hlane)).2⟩)
    ⟨Block.code 0 numberProgram.body, [], by decide +kernel, rfl⟩
    (fun l hl => by
      rcases hon l hl with rfl | rfl
      · exact ⟨by decide, _, rfl, rfl⟩
      · exact ⟨by decide, _, rfl, rfl⟩)
    fun _ _ _ _ => writable_flaggedMemory _ _
  have hcount : (Block.code unevenWave.pc (clearingProgram.body.drop numberProgram.body.length)).length = 19 := by
    decide +kernel
  rw [hcount] at hrun
  refine ⟨cost, lanes, s', hrun, fun a hlo hhi => (hbytes a).1 ⟨0, by decide +kernel, a - 4, ?_, ?_, ?_⟩⟩
  · change 1 ≤ a - 4
    omega
  · change a - 4 < 4
    omega
  · change a = 4 + ((0 * 32 + 0) * 4 + (a - 4))
    omega

end Lowering.GeometryPlan

end PrimitiveShader
