import PrimitiveShader.Proofs.Lowering.Geometry.Body
import PrimitiveShader.Proofs.Lowering.Geometry.Compacting

/-!
# Whole geometry programs

Between the first two barriers every lane owns the bytes of its own places (`GeometryPlan.PlaceStake`), and
runs the staged body if it has an invocation. Behind the second barrier all lanes see what the invocations
have staged (`GeometryPlan.Staged`), and export it.
-/

namespace PrimitiveShader.Lowering.GeometryPlan

open Emit

/-! ## The owners of the places -/

/-- A byte of a place of invocation `i`, in a region with `width` bytes for each place. -/
def InPlace (plan : GeometryPlan) (region : Region) (width i a : Nat) : Prop :=
  ∃ n < plan.config.geometry.maxVerticesOut, ∃ j < width,
    a = region.offset + plan.placeOf i n * width + j

/-- A byte of a component or of a flag of a place of invocation `i`. -/
def PlaceStake (plan : GeometryPlan) (i a : Nat) : Prop :=
  i < plan.config.geometry.maxInputPrimitives ∧
    ((∃ region, plan.layout.vertexAttributes = some region ∧ plan.InPlace region plan.stride i a) ∨
      ∃ stream region, plan.flagsRegion stream = .ok region ∧ plan.InPlace region 1 i a)

variable {plan : GeometryPlan} {source group : Workgroup} {declared p : Program} {faults : Prop} {compacts : Bool}
  {before view : Nat → UInt8} {i : Nat} {t : Thread} {L : Thread → Prop} {a width : Nat} {program : Program}
  {region : Region}

/-- A byte of a place lies in a region that has room for all places. -/
theorem Sound.region_of_placeStake (h : plan.Sound) (ha : plan.PlaceStake i a) :
    ∃ role region width, plan.layout.slot role = some region ∧ region.size = plan.places * width ∧
      plan.InPlace region width i a := by
  obtain ⟨-, ⟨region, hr, hin⟩ | ⟨stream, region, hr, hin⟩⟩ := ha
  · exact ⟨1, region, plan.stride, hr, h.room region hr, hin⟩
  · exact ⟨_, region, 1, flagsRegion_eq_ok hr, by rw [h.flags stream region hr, Nat.mul_one], hin⟩

theorem InPlace.bounds (h : plan.InPlace region width i a)
    (hsize : region.size = plan.places * width) (hi : i < plan.config.geometry.maxInputPrimitives) :
    region.offset ≤ a ∧ a < region.offset + region.size := by
  obtain ⟨n, hn, j, hj, rfl⟩ := h
  have hle : (plan.placeOf i n + 1) * width ≤ plan.places * width :=
    Nat.mul_le_mul_right _ (placeOf_lt hi hn)
  rw [Nat.add_mul, Nat.one_mul] at hle
  omega

/-- In one region the byte says which invocation it belongs to. -/
theorem InPlace.eq (h : plan.Sound) {j : Nat}
    (hi : plan.InPlace region width i a) (hj : plan.InPlace region width j a) : i = j := by
  obtain ⟨n, hn, x, hx, rfl⟩ := hi
  obtain ⟨m, hm, y, hy, heq⟩ := hj
  have hdiv (place z : Nat) (hz : z < width) : (place * width + z) / width = place := by
    rw [Nat.mul_comm, Nat.mul_add_div (by omega), Nat.div_eq_of_lt hz, Nat.add_zero]
  have hplace : plan.placeOf i n = plan.placeOf j m := by
    rw [← hdiv (plan.placeOf i n) x hx, ← hdiv (plan.placeOf j m) y hy]
    congr 1
    omega
  rw [← h.placeOf_div i hn, ← h.placeOf_div j hm, hplace]

theorem Sound.placeStake_unique (h : plan.Sound) (i j a : Nat) (hi : plan.PlaceStake i a)
    (hj : plan.PlaceStake j a) : i = j := by
  obtain ⟨role, region, width, hr, hsize, hin⟩ := h.region_of_placeStake hi
  obtain ⟨role', region', width', hr', hsize', hin'⟩ := h.region_of_placeStake hj
  have hbounds := hin.bounds hsize hi.1
  have hbounds' := hin'.bounds hsize' hj.1
  by_cases hrole : role = role'
  · subst hrole
    rw [hr] at hr'
    cases hr'
    have hpos : 0 < plan.places :=
      Nat.mul_pos (Nat.lt_of_le_of_lt (Nat.zero_le _) hi.1) h.positive
    rw [hsize] at hsize'
    cases Nat.eq_of_mul_eq_mul_left hpos hsize'
    exact hin.eq h hin'
  · have hapart := h.regions.disjoint role role' region region' hrole hr hr'
    omega

/-- While the bodies run, every lane owns the bytes of its places. -/
noncomputable def bodyOwner (plan : GeometryPlan) : Ownership := .ofStakes plan.PlaceStake

theorem Sound.bodyOwner_eq (h : plan.Sound) (ha : plan.PlaceStake i a) : plan.bodyOwner a = some i :=
  Ownership.ofStakes_eq h.placeStake_unique ha

/-- A lane with an invocation can stage its vertices. -/
theorem Ends.stage_places (h : plan.Ends group) (hi : i < group.launch.primitives.size) :
    plan.Stage ⟨group, plan.bodyOwner, faults⟩ (group.laneId i) where
  toSound := h.toSound
  lane := Nat.lt_of_lt_of_le hi h.invocations
  share := h.share
  ownsFields region hr n hn j hj := h.bodyOwner_eq
    ⟨Nat.lt_of_lt_of_le hi h.invocations, .inl ⟨region, hr, n, hn, j, hj, rfl⟩⟩
  ownsFlags stream region hr n hn := h.bodyOwner_eq ⟨Nat.lt_of_lt_of_le hi h.invocations,
    .inr ⟨stream, region, hr, n, hn, 0, Nat.one_pos, by rw [Nat.mul_one]; rfl⟩⟩

/-! ## The body -/

/-- A workgroup that runs a lowered program, next to one with the same launch that runs its source. -/
structure Suits (plan : GeometryPlan) (source group : Workgroup) (declared : Program) (faults : Prop) :
    Prop extends plan.Ends group, group.Hosts source where
  keeps : plan.Keeps source.program declared
  declares : declared.Within group.program
  valid : source.program.validate = .ok ()
  plain : Block.All source.program (·.isPlain) source.program.body
  panics : ∀ i < source.launch.primitives.size, ∀ fault, source.Invokes i (.faulted fault) → faults

/-- A thread that has exported nothing and, if it has an invocation, has staged what that hands over. -/
structure HasRun (plan : GeometryPlan) (source : Workgroup) (before : Nat → UInt8) (i : Nat) (t : Thread) :
    Prop where
  poised : Poised t.view t
  space : t.space = none
  staged : i < source.launch.primitives.size → ∃ inv, source.Invokes i (.next inv) ∧
    t.view = plan.afterEvents i inv.events before

/-- A thread at its start is where the invocation is at its start. -/
theorem Suits.stages_start (h : plan.Suits source group declared faults) (view : Nat → UInt8) (i : Nat) :
    plan.Stages source.program i (Thread.start group.program view) (.start source.program)
      (Thread.start group.program view) where
  toMirrors := (Fresh.start h.within view).mirrors
  sorted := .nil
  kept a ha := by
    have hlt := Program.lt_of_varType? (h.declares.varType?_eq (h.keeps.vars a ha).2)
    exact ⟨0, by simp [Thread.start, Lane.start, Lane.readVar, hlt], rfl⟩
  view := rfl
  outputs := rfl
  primitives := rfl
  vertices := rfl
  space := rfl

theorem Stages.computed {p' : Program} {start t' : Thread} {inv : Invocation}
    (h : plan.Stages program i start inv t) (hw : program.Within p) (hc : Computed p t p' t') :
    plan.Stages program i start inv t' := by
  have hadj : Adjusted (fun _ => False) p t p' t' := hc.adjusted
  exact h.adjust hw hadj (fun _ => False.elim) rfl rfl h.sorted
    (fun a ha => (h.kept a ha).imp fun _ hx => ⟨(hadj.vars a.var not_false).trans hx.1, hx.2⟩) h.view

/-- The body does what its invocation does. -/
theorem Suits.wp_stageBody (h : plan.Suits source group declared faults) (hw : declared.Within p) (view : Nat → UInt8) :
    Emit.wp ⟨group, plan.bodyOwner, faults⟩ (group.laneId i) (plan.stageBody source.program.body) p
      (fun _ _ => plan.HasRun source view i) L (Thread.start group.program view) := by
  have hformed : Block.WellFormed source.program false (· ∈ []) source.program.body := by
    simpa using (Program.validate_eq_ok_iff.mp h.valid).1
  have hsource : source.program.Within p := h.keeps.grows.toWithin.trans hw
  have hid : group.laneId i = source.laneId i := by
    unfold Workgroup.laneId
    rw [h.wave]
  refine wp_bind (wp_input fun hasPrimitive p₁ t₁ h₁ hk => ?_)
  have hstart := (h.stages_start view i).computed hsource h₁
  refine wp_ifThen hk (fun hne p₂ h₂ => ?_) fun hz p₂ h₂ => ?_
  · obtain ⟨prim, hprim⟩ : ∃ prim, group.launch.primitive? i = some prim := by
      simpa [toUInt64_eq_zero_iff, Workgroup.laneId, Option.ne_none_iff_exists'] using hne
    have hi : i < group.launch.primitives.size := (Array.getElem?_eq_some_iff.mp hprim).1
    refine wp_mono (wp_stageBlock ⟨h.stage_places hi, h.toHosts, h.keeps⟩ source.program.body
      (source.Invokes i) hformed h.plain ((hw.trans h₁.within).trans h₂.within) hstart
      (fun v hv => by cases hv) (fun ending hr => ?_) (h.panics i (h.launch ▸ hi))) ?_ ?_
    · rwa [hid] at hr
    · rintro _ p₃ u ⟨-, inv, hinv, hstages, -⟩ p₄ -
      exact ⟨⟨rfl, hstages.outputs, hstages.primitives, hstages.vertices⟩, hstages.space,
        fun _ => ⟨inv, hinv, hstages.view⟩⟩
    · rintro u ⟨inv, hinv, -⟩
      exact absurd rfl (Block.Runs.ne_left hinv hformed inv)
  · have hnone : group.launch.primitive? i = none := by
      simpa [toUInt64_eq_zero_iff, Workgroup.laneId] using hz
    refine ⟨⟨rfl, h₁.outputs, h₁.primitives, h₁.vertices⟩, h₁.space, fun hi => ?_⟩
    have hge := Array.getElem?_eq_none_iff.mp hnone
    rw [← h.launch] at hi
    omega

theorem steady_stageBody (hvalid : program.validate = .ok ()) {barriers : Bool}
    (hplain : barriers = false → Block.All program (·.isPlain) program.body) :
    Steady program barriers (plan.stageBody program.body) := by
  have hblock : Steady program barriers (plan.stageBlock program.body) := by
    refine steady_stageBlock _ fun v hv => ?_
    obtain ⟨i, hi⟩ := Program.exists_instr_of_validate hvalid hv
    refine ⟨i, hi, fun hfalse hbar => ?_⟩
    have hkind := hplain hfalse v hv _ hi
    rw [hbar] at hkind
    cases hkind
  unfold stageBody
  infer_instance

/-! ## Both barriers -/

/-- Each invocation has staged what it has handed over, where it found the bytes `before`. -/
def Staged (plan : GeometryPlan) (source : Workgroup) (before view : Nat → UInt8) : Prop :=
  ∀ i < source.launch.primitives.size, ∃ inv, source.Invokes i (.next inv) ∧
    ∀ a, plan.PlaceStake i a → view a = plan.afterEvents i inv.events before a

/-- The places that are taken to be live. -/
def exported (plan : GeometryPlan) (compacts : Bool) (launch : Launch) (view : Nat → UInt8) : Nat → Bool :=
  if compacts then plan.liveAt launch view else fun _ => true

/-- What the threads have done in the end: they have exported what the invocations have staged. -/
def Finished (plan : GeometryPlan) (compacts : Bool) (source group : Workgroup) (T : Nat → Thread) : Prop :=
  ∃ before view, plan.Staged source before view ∧ ∀ i < group.launch.numLanes,
    plan.Delivers group.launch view (plan.exported compacts group.launch view) i (T i)

/-- The waves of a workgroup have room for their counts. -/
theorem Ends.countsFit (h : plan.Ends group) (hcompacts : plan.Compacts)
    (hwaves : group.numWaves ≤ plan.config.maxWaves) : CountsFit group plan.layout.waveCounts := by
  cases hscratch : plan.layout.waveCounts with
  | none => exact Nat.le_trans hwaves (hcompacts.single hscratch)
  | some region =>
    obtain ⟨hsize, hle⟩ := hcompacts.scratch region hscratch
    refine ⟨Nat.le_trans hwaves hle, hsize, ?_, ?_⟩
    · rw [h.share]
      exact h.regions.bounded 0 region hscratch
    · rw [h.share]
      exact h.small

/-- Threads that see what `view` shows export it. -/
theorem Ends.finale_scripts (h : plan.Ends group) (hcompacts : compacts = true → plan.Compacts)
    (hwaves : group.numWaves ≤ plan.config.maxWaves) (view : Nat → UInt8) :
    ∃ own : Ownership, ∀ {source p : Program}, source.Within p → ∀ {goal : (Nat → Thread) → Prop},
      (∀ T : Nat → Thread, (∀ i < group.launch.numLanes,
        plan.Delivers group.launch view (plan.exported compacts group.launch view) i (T i)) → goal T) →
      Scripts group goal own (fun _ t =>
        plan.Primed group.launch (plan.exported compacts group.launch view) view t ∧ t.space = none)
        (plan.finale compacts) p := by
  cases compacts with
  | false => exact ⟨_, fun hsource => h.exportAll_scripts hsource⟩
  | true =>
    obtain ⟨region, hregion, hsize⟩ := (hcompacts rfl).index
    exact ⟨_, fun hsource =>
      h.exportLive_scripts hregion hsize (h.countsFit (hcompacts rfl) hwaves) hsource⟩

instance {K : Instr → Prop} [Instr.Common K] [Novel K (Emit.effect .barrier)] : Novel K (plan.finale compacts) := by
  unfold finale
  split
  · unfold exportLive exportPacked
    infer_instance
  · unfold exportAll
    infer_instance

theorem steady_wholeProgram (hvalid : program.validate = .ok ()) (compacts : Bool) :
    Steady program true (plan.wholeProgram compacts program.body) := by
  have hbody : Steady program true (plan.stageBody program.body) := steady_stageBody hvalid nofun
  unfold wholeProgram
  infer_instance

theorem meets_exportPacked (program : Program) (found : Found) (packed : Compaction) :
    Meets program 1 (plan.exportPacked found packed) :=
  .after fun _ => .after fun _ => .after fun _ => .barrier .none

/-- Only a compaction needs more barriers. -/
theorem meets_finale (program : Program) (compacts : Bool) : ∃ n ≤ 2, Meets program n (plan.finale compacts) := by
  cases compacts with
  | false =>
    refine ⟨0, by decide, ?_⟩
    change Meets program 0 plan.exportAll
    unfold exportAll
    exact .none
  | true =>
    change ∃ n ≤ 2, Meets program n plan.exportLive
    unfold exportLive
    cases plan.layout.waveCounts with
    | none =>
      simp only [compactLanes_none]
      exact ⟨1, by decide, .after fun _ => .after fun _ => meets_exportPacked _ _ _⟩
    | some scratch =>
      simp only [compactLanes_some, bind_assoc]
      exact ⟨2, by decide, .after fun _ => .after fun _ => .barrier (.after fun _ => meets_exportPacked _ _ _)⟩

/-- The waves meet in front of the bodies, behind them and at most twice in the finale. -/
theorem meets_wholeProgram {program : Program} (hvalid : program.validate = .ok ())
    (hplain : Block.All program (·.isPlain) program.body) (compacts : Bool) :
    ∃ n ≤ 4, Meets program n (plan.wholeProgram compacts program.body) := by
  have hbody : Steady program false (plan.stageBody program.body) := steady_stageBody hvalid fun _ => hplain
  obtain ⟨n, hn, hfinale⟩ := plan.meets_finale program compacts
  unfold wholeProgram
  exact ⟨1 + (1 + n), by omega, .barrier (.after fun _ => .barrier hfinale)⟩

/-- What the threads know once they have met behind the body. -/
theorem Suits.staged_of_meet (h : plan.Suits source group declared faults) {T : Nat → Thread}
    (hT : ∀ i < group.launch.numLanes, plan.HasRun source before i (T i))
    (hagree : ∀ i < group.launch.numLanes, ∀ a, plan.bodyOwner a = none ∨ plan.bodyOwner a = some i →
      (T i).view a = view a) : plan.Staged source before view := by
  intro i hi
  have hlanes : i < group.launch.numLanes :=
    Nat.lt_of_lt_of_le (h.launch ▸ hi) h.launched.primitives
  obtain ⟨inv, hinv, hview⟩ := (hT i hlanes).staged hi
  refine ⟨inv, hinv, fun a ha => ?_⟩
  rw [← hagree i hlanes a (.inr (h.bodyOwner_eq ha)), hview]

/-- The workgroup runs the bodies and exports what they have staged. -/
theorem Suits.wholeProgram_plays (h : plan.Suits source group declared faults)
    (hcompacts : compacts = true → plan.Compacts) (hwaves : group.numWaves ≤ plan.config.maxWaves) :
    Emit.Plays group faults (plan.Finished compacts source group) (fun _ => none)
      (fun _ t => ∃ view, t = Thread.start group.program view)
      (plan.wholeProgram compacts source.program.body) { declared with body := [] } := by
  unfold wholeProgram
  refine .barrier (fun _ _ => plan.bodyOwner) fun T before p₁ hp₁ hT _ => ?_
  have hw₁ : declared.Within p₁ := ⟨hp₁.definitions, hp₁.vars⟩
  have hsource₁ : source.program.Within p₁ := h.keeps.grows.toWithin.trans hw₁
  have hsteady : Steady source.program false (plan.stageBody source.program.body) :=
    steady_stageBody h.valid fun _ => h.plain
  refine .each hsource₁ h.fits (M := fun _ _ => plan.HasRun source before) (fun i hi t ht => ?_)
    fun _ p₂ _ hsource₂ => ?_
  · obtain ⟨view, hview⟩ := hT i hi
    rw [ht, hview]
    exact h.wp_stageBody hw₁ before
  refine .barrier (fun _ view => (h.finale_scripts hcompacts hwaves view).choose)
    fun T view p₃ hp₃ hT hagree a p₄ hp₄ hw₄ => ?_
  have hscripts := (h.finale_scripts hcompacts hwaves view).choose_spec (hsource₂.trans hp₃)
    fun T' hT' => (⟨before, view, h.staged_of_meet hT hagree, hT'⟩ : plan.Finished compacts source group T')
  refine (hscripts.plays faults a p₄ hp₄ hw₄).of_stronger fun i hi t ht => ?_
  rw [ht]
  exact ⟨⟨view, .refl plan _ _ view, (hT i hi).poised.see view⟩, (hT i hi).space⟩

end PrimitiveShader.Lowering.GeometryPlan
