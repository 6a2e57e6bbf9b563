import PrimitiveShader.Proofs.Lowering.Geometry.Stale
import PrimitiveShader.Proofs.Lowering.Geometry.Widening
import PrimitiveShader.Proofs.Wave.CommonFront

/-!
# Both finales agree

A program is lowered without a compaction if it always emits the declared maximum of vertices. If one more stream is
switched on that it makes no use of, then it is lowered with a compaction, as nothing is counted on that stream. All
vertices are still live, so that the compaction numbers each place by itself, and both programs export the same
(`GeometryPlan.Finished.same_exports`). They count the same since they have the staged body in common and nothing is
counted behind it (`LowersGeometry.commonFront`).
-/

namespace PrimitiveShader.Lowering

open Emit

namespace GeometryPlan

variable {plan plan' : GeometryPlan} {launch : Launch} {view view' : Nat → UInt8} {live live' : Nat → Bool}

/-! ## Exports -/

/-- What is exported under another plan from other bytes, if those show the same. -/
theorem Delivers.of_resembles {i : Nat} {t : Thread} (h : plan'.Delivers launch view' live' i t)
    (hplans : plan.Resembles plan') (hprovoking : plan'.config.provokingVertex = plan.config.provokingVertex)
    (hlive : ∀ i < plan.placesOf launch, live' i = live i)
    (hflags : ∀ i < plan.placesOf launch, plan'.flagsAt view' i = plan.flagsAt view i)
    (hvertices : ∀ i < plan.placesOf launch, plan'.vertexAt view' i [] = plan.vertexAt view i []) :
    plan.Delivers launch view live i t := by
  have hplaces : plan'.livePlaces launch live' = plan.livePlaces launch live := by
    unfold livePlaces
    rw [hplans.placesOf_eq]
    exact List.filter_congr fun i hi => hlive i (List.mem_range.mp hi)
  have hspace : plan'.spaceFor launch live' = plan.spaceFor launch live := by
    unfold spaceFor
    rw [hplaces, hplans.placesOf_eq]
  refine ⟨fun hi => hspace ▸ h.space hi, ?_, ?_⟩
  · rw [h.primitives, hspace]
    split
    · rename_i hlt
      have hplace := Nat.lt_of_lt_of_le hlt (plan.primitives_spaceFor_le launch live)
      have hcount : countBelow live' i = countBelow live i :=
        List.countP_congr fun j hj => by rw [hlive j (Nat.lt_trans (List.mem_range.mp hj) hplace)]
      unfold wordOf
      rw [hflags i hplace, hcount, hplans.topology, hprovoking]
    · rfl
  · rw [h.vertices, hplaces]
    cases hget : (plan.livePlaces launch live)[i]? with
    | none => rfl
    | some place =>
      have hmem := (List.mem_filter.mp (List.mem_of_getElem? hget)).1
      simp only [Option.toList, List.map_cons, List.map_nil, hvertices place (List.mem_range.mp hmem)]

/-- Where every invocation emits all of its vertices and states no smaller number, all places are live, and both
finales export the same. -/
theorem Finished.same_exports {source group group' : Workgroup} {declared declared' : Program} {faults : Prop}
    {T T' : Nat → Thread} (h : plan.Finished false source group T) (h' : plan'.Finished true source group' T')
    (hsuits : plan.Suits source group declared faults) (hsuits' : plan'.Suits source group' declared' faults)
    (hplans : plan.Resembles plan') (hprovoking : plan'.config.provokingVertex = plan.config.provokingVertex)
    {flags flags' : Region} (hr : plan.flagsRegion 0 = .ok flags) (hr' : plan'.flagsRegion 0 = .ok flags')
    (huse : plan.config.geometry.usesStream 0) (huse' : plan'.config.geometry.usesStream 0)
    (hscalar : Block.All source.program (·.isScalar) source.program.body)
    (hroom : plan.placesOf source.launch ≤ source.launch.numLanes)
    (hemits : ∀ p < source.launch.primitives.size, ∀ inv, source.Invokes p (.next inv) →
      ∀ m < plan.config.geometry.maxVerticesOut, Emits inv m ∧
        ∀ vertices primitives, .counts 0 vertices primitives ∈ inv.events → m < vertices.toNat) :
    ∀ i < source.launch.numLanes, (i = 0 → (T' i).space = (T i).space) ∧
      (T' i).primitives = (T i).primitives ∧ (T' i).vertices = (T i).vertices := by
  obtain ⟨before, view, hstaged, hT⟩ := h
  obtain ⟨before', view', hstaged', hT'⟩ := h'
  have hlaunch : group.launch = source.launch := hsuits.launch
  have hlaunch' : group'.launch = source.launch := hsuits'.launch
  rw [hlaunch] at hT
  rw [hlaunch'] at hT'
  -- Each place belongs to a vertex that one and the same invocation leaves on both sides.
  have hboth : ∀ i < plan.placesOf source.launch, plan'.flagsAt view' i = plan.flagsAt view i ∧
      plan'.vertexAt view' i [] = plan.vertexAt view i [] ∧ PrimitiveFlags.isLive ⟨plan'.flagsAt view' i⟩ = true := by
    intro i hi
    obtain ⟨p, hp, m, hm, rfl⟩ := hsuits.exists_placeOf hi
    obtain ⟨inv, hinv, hleaves⟩ := hstaged.leaves hsuits.toSound hr huse (hlaunch ▸ hsuits.invocations) hp
    obtain ⟨inv', hinv', hleaves'⟩ := hstaged'.leaves hsuits'.toSound hr' huse' (hlaunch' ▸ hsuits'.invocations) hp
    cases hinv.unique hscalar hinv'
    obtain ⟨hemit, hcounts⟩ := hemits p hp inv hinv m hm
    refine ⟨hleaves.flags_eq hplans hleaves' hm hemit.flags_eq, hleaves.vertexAt_eq hplans hleaves' hm hemit, ?_⟩
    rw [← hplans.placeOf_eq p m, hleaves'.flags m (hplans.vertices ▸ hm)]
    exact hemit.isLive hcounts _ _
  have hlive : ∀ i < plan.placesOf source.launch, plan'.exported true source.launch view' i = true := by
    intro i hi
    change plan'.liveAt source.launch view' i = true
    unfold liveAt
    rw [hplans.placesOf_eq, (hboth i hi).2.2, decide_eq_true hi, decide_eq_true (Nat.lt_of_lt_of_le hi hroom)]
    rfl
  intro i hi
  have hdelivers : plan.Delivers source.launch view (fun _ => true) i (T i) := hT i hi
  have hdelivers' : plan.Delivers source.launch view (fun _ => true) i (T' i) :=
    (hT' i hi).of_resembles hplans hprovoking hlive (fun i hi => (hboth i hi).1) fun i hi => (hboth i hi).2.1
  refine ⟨fun hz => ?_, ?_, ?_⟩
  · rw [hdelivers.space hz, hdelivers'.space hz]
  · rw [hdelivers.primitives, hdelivers'.primitives]
  · rw [hdelivers.vertices, hdelivers'.vertices]

end GeometryPlan

/-! ## Counters -/

namespace LowersGeometry

variable {config config' : Config} {program declared lowered lowered' : Program} {survey survey' : Survey}
  {plan plan' : GeometryPlan}

/-- What stands behind the staged body does not count. -/
theorem uncounted_finale {compacts : Bool} {p p' : Program} {size : Nat} {u : Unit}
    (h : plan.finale compacts p = .ok (u, p')) :
    ∀ v ∈ Block.values (p'.body.drop p.body.length), ∃ i, { p' with sharedSize := size }.instr v = .ok i ∧
      i.isQuery = false :=
  fun v hv => by
    obtain ⟨-, i, hi, -, hquery⟩ := Novel.placed (P := Instr.Uncounted) inferInstance h v hv
    exact ⟨i, hi, hquery⟩

/-- Two programs that a body is lowered to under plans that resemble each other begin with the staged body, and do
not count behind it. -/
theorem commonFront (h : LowersGeometry config program survey plan declared lowered)
    (h' : LowersGeometry config' program survey' plan' declared lowered') (hplans : plan.Resembles plan')
    (hadmits : ∀ v ∈ Block.values program.body, GeometryPlan.Resembles.Admits plan plan' program v)
    (hstores : ∀ v ∈ Block.values program.body, ¬ program.StoresDropped v) {unit unit' : ComputeUnit}
    (hwave : unit'.wave = unit.wave) (launch : Launch) :
    ∃ p q stop, (unit.workgroup (executable lowered) launch).CommonFront p q stop
      (unit'.workgroup (executable lowered') launch) := by
  have hstage : lowered'.stage = lowered.stage := h'.grows.2.1.trans h.grows.2.1.symm
  obtain ⟨p, p', hfront, hfinale, -, hgrows, hlowered⟩ := h.parts
  obtain ⟨q, q', hfront', hfinale', -, hgrows', hlowered'⟩ := h'.parts
  have hstart : program.Within { declared with body := [] } := ⟨h.keeps.grows.definitions, h.keeps.grows.vars⟩
  obtain ⟨-, halike, hstaging⟩ := (hplans.front hadmits).alike hstart hstart (.refl _) hfront hfront'
  rw [List.length_nil, List.drop_zero] at hstaging
  obtain ⟨⟨⟩, s, nodes, hrun, hext, -⟩ := GeometryPlan.writes_front
    (GeometryPlan.provides_of_makePlan h.accepted h.surveyed h.planned) h.valid
    (h.keeps.begins (s := Scope.start declared) rfl fun _ => id) fun v hv hd => absurd hd (hstores v hv)
  obtain rfl : p = s.program := congrArg Prod.snd (Except.ok.inj (hfront.symm.trans hrun))
  have hformed : Block.WellFormed s.program false (fun _ => False) s.program.body := by
    rw [hext.body]
    exact hext.wellFormed
  subst hlowered hlowered'
  have hcode : (Block.code 0 p'.body).toArray =
      (Block.code 0 (s.program.body ++ p'.body.drop s.program.body.length)).toArray := by
    rw [List.prefix_iff_eq_append.mp hgrows.body]
  have hcode' : (Block.code 0 q'.body).toArray =
      (Block.code 0 (s.program.body ++ q'.body.drop q.body.length)).toArray := by
    rw [← halike.body, List.prefix_iff_eq_append.mp hgrows'.body]
  exact ⟨s.program, q, _, Workgroup.commonFront_of_code rfl hwave hstage halike ⟨hgrows.definitions, hgrows.vars⟩
    ⟨hgrows'.definitions, hgrows'.vars⟩ hformed hstaging hcode hcode' (uncounted_finale hfinale)
    (uncounted_finale hfinale')⟩

variable {unit unit' : ComputeUnit} {launch : Launch} {output output' : WorkgroupResult} {after after' : ComputeUnit}

variable (h : LowersGeometry config program survey plan declared lowered)
include h

/-- They count the same when they come to an end. -/
theorem queryCounters_eq
    (h' : LowersGeometry config' program survey' plan' declared lowered') (hplans : plan.Resembles plan')
    (hadmits : ∀ v ∈ Block.values program.body, GeometryPlan.Resembles.Admits plan plan' program v)
    (hstores : ∀ v ∈ Block.values program.body, ¬ program.StoresDropped v) (hkind : unit.SameKind unit')
    (hdone : ComputeUnit.run (executable lowered) launch unit = .done output after)
    (hdone' : ComputeUnit.run (executable lowered') launch unit' = .done output' after') :
    output'.queryCounters = output.queryCounters := by
  obtain ⟨p, q, stop, hfront⟩ := h.commonFront h' hplans hadmits hstores hkind.wave launch
  obtain ⟨t, hrounds, hcounters⟩ := ComputeUnit.queryCounters_of_run hdone
  obtain ⟨t', hrounds', hcounters'⟩ := ComputeUnit.queryCounters_of_run hdone'
  rw [hkind.schedule, hkind.stepLimit] at hrounds'
  rw [hcounters, hcounters']
  exact hfront.queryCounters_eq (hfront.paired_runners unit.schedule unit.stepLimit) (by rfl) hrounds hrounds'

/-- Where every invocation emits all of its vertices, a program that compacts exports the same as one that does not. -/
theorem exports_eq (h' : LowersGeometry config' program survey' plan' declared lowered')
    (hstatic : survey.needsCompaction config.geometry = false)
    (hcompacts : survey'.needsCompaction config'.geometry = true) (hplans : plan.Resembles plan')
    (hprovoking : plan'.config.provokingVertex = plan.config.provokingVertex)
    (hscalar : Block.All program (·.isScalar) program.body) {source group group' : Workgroup} {faults : Prop}
    (hsource : source.program = program) (hsuits : plan.Suits source group declared faults)
    (hsuits' : plan'.Suits source group' declared faults)
    (hroom : source.launch.primitives.size * config.geometry.maxVerticesOut ≤ source.launch.numLanes)
    (hemits : ∀ p < source.launch.primitives.size, ∀ inv, source.Invokes p (.next inv) →
      ∀ m < config.geometry.maxVerticesOut, Emits inv m) {T T' : Nat → Thread}
    (hT : plan.Finished (survey.needsCompaction config.geometry) source group T)
    (hT' : plan'.Finished (survey'.needsCompaction config'.geometry) source group' T')
    (hgathers : group.Gathers T output) (hgathers' : group'.Gathers T' output') :
    output'.allocation = output.allocation ∧ output'.primitives = output.primitives ∧
      output'.vertices = output.vertices := by
  obtain ⟨flags, hflags⟩ := GeometryPlan.exists_flagsRegion h.accepted h.planned h.accepted.stream
  obtain ⟨flags', hflags'⟩ := GeometryPlan.exists_flagsRegion h'.accepted h'.planned h'.accepted.stream
  obtain rfl := h.config_eq
  obtain rfl := h'.config_eq
  have hmax : (UInt64.ofNat plan.config.geometry.maxVerticesOut).toNat = plan.config.geometry.maxVerticesOut :=
    UInt64.toNat_ofNat_of_lt' (Nat.lt_trans (hsuits.maxVertices_lt h.accepted.primitives) (by decide))
  rw [hstatic] at hT
  rw [hcompacts] at hT'
  have hcounted : ∀ p < source.launch.primitives.size, ∀ inv, source.Invokes p (.next inv) →
      ∀ m < plan.config.geometry.maxVerticesOut, Emits inv m ∧
        ∀ vertices primitives, .counts 0 vertices primitives ∈ inv.events → m < vertices.toNat := by
    refine fun p hp inv hinv m hm => ⟨hemits p hp inv hinv m hm, fun vertices primitives hcounts => ?_⟩
    rwa [h.counts_eq_maximum hstatic hsource hinv hcounts, hmax]
  have hsame := hT.same_exports hT' hsuits hsuits' hplans hprovoking hflags hflags' h.accepted.stream
    h'.accepted.stream (hsource ▸ hscalar) hroom hcounted
  have hlaunch : group.launch = source.launch := hsuits.launch
  have hlaunch' : group'.launch = source.launch := hsuits'.launch
  have hlanes : 0 < source.launch.numLanes := hlaunch ▸ hsuits.launched.lanes
  refine ⟨?_, ?_, ?_⟩
  · rw [hgathers.allocation, hgathers'.allocation, (hsame 0 hlanes).1 rfl]
  · rw [hgathers.primitives, hgathers'.primitives, hlaunch, hlaunch']
    exact lanewise_congr fun i hi => (hsame i hi).2.1
  · rw [hgathers.vertices, hgathers'.vertices, hlaunch, hlaunch']
    exact lanewise_congr fun i hi => (hsame i hi).2.2

end LowersGeometry

/-- The body of some invocation comes to a fault. -/
def BodyFaults (source : Workgroup) : Prop :=
  ∃ p < source.launch.primitives.size, ∃ fault, source.Invokes p (.faulted fault)

/-- The static and the compacting finale agree. A program that is lowered without a compaction is lowered with one as
soon as a stream is switched on that it makes no use of. If every invocation emits all vertices up to the declared
maximum, and every place has a lane, then both programs run well, but for the step limit and faults of the body, and
they ask for the same space, export the same and count the same. -/
theorem static_compacting_finales_agree {config : Config} {program : Program} {result : Lowered}
    {report : LoweringReport} (hlower : lowerGeometry config program = .ok result) (hok : result.outcome = .ok report)
    (hstatic : report.compaction = false) {stream : UInt8} (hstream : stream < 4)
    (hinactive : config.geometry.usesStream stream = false)
    (hunused : Block.All program (fun instr => isOfStream stream instr = false) program.body)
    (hscalar : Block.All program (·.isScalar) program.body) {unit unit' : ComputeUnit} (hkind : unit.SameKind unit')
    (hwave : unit.wave = config.wave) {launch : Launch} (hvalid : launch.validate unit.wave = .ok ())
    (hlanes : launch.numLanes ≤ config.maxWorkgroupSize)
    (hprimitives : launch.primitives.size ≤ config.geometry.maxInputPrimitives)
    (hroom : launch.primitives.size * config.geometry.maxVerticesOut ≤ launch.numLanes)
    (hemits : ∀ p < launch.primitives.size, ∀ inv, (unit.workgroup ⟨program, #[]⟩ launch).Invokes p (.next inv) →
      ∀ m < config.geometry.maxVerticesOut, Emits inv m) :
    ∃ result' report' executable executable', lowerGeometry (config.withStream stream) program = .ok result' ∧
      result'.outcome = .ok report' ∧ report'.compaction = true ∧
      result.program.toExecutable = .ok (.ok executable) ∧ result'.program.toExecutable = .ok (.ok executable') ∧
      (ComputeUnit.run executable launch unit).Ensures (BodyFaults (unit.workgroup ⟨program, #[]⟩ launch))
        (fun _ _ => True) ∧
      (ComputeUnit.run executable' launch unit').Ensures (BodyFaults (unit.workgroup ⟨program, #[]⟩ launch))
        (fun _ _ => True) ∧ ∀ output after output' after', ComputeUnit.run executable launch unit = .done output after →
        ComputeUnit.run executable' launch unit' = .done output' after' →
        output'.allocation = output.allocation ∧ output'.primitives = output.primitives ∧
          output'.vertices = output.vertices ∧ output'.queryCounters = output.queryCounters := by
  obtain ⟨survey, plan, declared, h, hreport⟩ := lowerGeometry_eq_ok hlower hok
  have hlowered := validate_of_lowerGeometry hlower hok
  obtain ⟨result', report', plan', hlower', hok', hreport', h', hplans⟩ :=
    h.exists_withStream hlowered hstream hinactive hunused
  have hplain : Block.All program (·.isPlain) program.body := fun v hv i hi => isPlain_of_isScalar (hscalar v hv i hi)
  have hgroup := hkind.workgroup_eq ⟨program, #[]⟩ launch
  have hpanics : ∀ p < launch.primitives.size, ∀ fault, (unit.workgroup ⟨program, #[]⟩ launch).Invokes p
      (.faulted fault) → BodyFaults (unit.workgroup ⟨program, #[]⟩ launch) :=
    fun p hp fault hfault => ⟨p, hp, fault, hfault⟩
  have hpanics' : ∀ p < launch.primitives.size, ∀ fault, (unit'.workgroup ⟨program, #[]⟩ launch).Invokes p
      (.faulted fault) → BodyFaults (unit.workgroup ⟨program, #[]⟩ launch) :=
    fun p hp fault hfault => ⟨p, hp, fault, hgroup ▸ hfault⟩
  have hvalid' : launch.validate unit'.wave = .ok () := hkind.wave ▸ hvalid
  have hrun := h.run_finished hplain hwave hvalid hlanes hprimitives hpanics
  have hrun' := h'.run_finished hplain (hkind.wave.trans hwave) hvalid' hlanes hprimitives hpanics'
  refine ⟨result', report', _, _, hlower', hok', hreport', h.toExecutable, h'.toExecutable,
    hrun.mono fun _ _ _ _ => trivial, hrun'.mono fun _ _ _ _ => trivial, ?_⟩
  intro output after output' after' hdone hdone'
  rw [hdone] at hrun
  rw [hdone', hgroup] at hrun'
  obtain ⟨T, hT, hgathers⟩ := hrun
  obtain ⟨T', hT', hgathers'⟩ := hrun'
  have hprovoking : plan'.config.provokingVertex = plan.config.provokingVertex := by
    rw [h.config_eq, h'.config_eq]
    rfl
  have hsuits := h.suits hplain hvalid hprimitives hpanics
  have hsuits' := h'.suits hplain hvalid' hprimitives hpanics'
  rw [hgroup] at hsuits'
  obtain ⟨hallocation, hwords, hvertices⟩ := h.exports_eq h' (hreport.symm.trans hstatic)
    (Survey.needsCompaction_withStream hstream hinactive h.surveyed) hplans hprovoking hscalar rfl
    hsuits hsuits' hroom hemits hT hT' hgathers hgathers'
  exact ⟨hallocation, hwords, hvertices, h.queryCounters_eq h' hplans (h.admits_withStream h' hscalar hstream hunused)
    (h.not_storesDropped hlowered) hkind hdone hdone'⟩

/-- A geometry program that emits both ends of an edge, the second one first. -/
def edgeProgram : Program where
  stage := .geometry
  definitions := #[⟨.intrinsic (.input .localInvocationIndex), .u32⟩, ⟨.const .u32 0, .u32⟩, ⟨.const .u32 1, .u32⟩,
    ⟨.const .u32 2, .u32⟩, ⟨.intrinsic (.storeOutput ⟨0, 0, 0⟩ ⟨0⟩), .void⟩,
    ⟨.intrinsic (.geometry (.emitVertex 0 ⟨2⟩ ⟨2⟩)), .void⟩, ⟨.intrinsic (.storeOutput ⟨0, 0, 0⟩ ⟨2⟩), .void⟩,
    ⟨.intrinsic (.geometry (.emitVertex 0 ⟨1⟩ ⟨1⟩)), .void⟩, ⟨.intrinsic (.geometry (.setCounts 0 ⟨3⟩ ⟨2⟩)), .void⟩]
  body := [.instr ⟨0⟩, .instr ⟨1⟩, .instr ⟨2⟩, .instr ⟨3⟩, .instr ⟨4⟩, .instr ⟨5⟩, .instr ⟨6⟩, .instr ⟨7⟩, .instr ⟨8⟩]

/-- Lines of two vertices. -/
def edgeConfig : Config where
  topology := .lines
  geometry := { maxVerticesOut := 2 }

theorem all_edgeProgram : Block.All edgeProgram (fun instr => instr.isScalar ∧ isOfStream 2 instr = false)
    edgeProgram.body := by
  intro v hv instr hi
  have hmem : v ∈ (List.range 9).map Value.mk := hv
  simp only [List.range, List.range.loop, List.map_cons, List.map_nil, List.mem_cons, List.not_mem_nil,
    or_false] at hmem
  rcases hmem with rfl | rfl | rfl | rfl | rfl | rfl | rfl | rfl | rfl <;> cases hi <;> exact ⟨rfl, rfl⟩

/-- Two invocations that count their primitives. -/
def countedEdges : Launch := { eightLanes with queryEnabled := true }

theorem invokes_edgeProgram (p : Nat) : ∃ inv,
    (reverseUnit.workgroup ⟨edgeProgram, #[]⟩ countedEdges).Invokes p (.next inv) ∧ ∀ m < 2, Emits inv m := by
  refine ⟨?inv, ?run, fun m hm => ?_⟩
  case run =>
    iterate 9 refine .instr rfl (.scalar rfl) ?_
    exact .nil _
  obtain rfl | rfl : m = 0 ∨ m = 1 := by omega
  · exact ⟨0, 0, _, .tail _ (.head _), rfl⟩
  · exact ⟨1, 1, _, .head _, rfl⟩

/-- Both programs of the edges, once with stream 2 switched on and with other contents of the memory. -/
theorem static_compacting_finales_agree_edges :
    ∃ result report, lowerGeometry edgeConfig edgeProgram = .ok result ∧ result.outcome = .ok report ∧
      report.compaction = false ∧ ∃ result' report' executable executable',
        lowerGeometry (edgeConfig.withStream 2) edgeProgram = .ok result' ∧ result'.outcome = .ok report' ∧
        report'.compaction = true ∧ result.program.toExecutable = .ok (.ok executable) ∧
        result'.program.toExecutable = .ok (.ok executable') ∧
        (ComputeUnit.run executable countedEdges reverseUnit).Ensures False (fun _ _ => True) ∧
        (ComputeUnit.run executable' countedEdges { reverseUnit with memory := { fill := 255 } }).Ensures False
          (fun _ _ => True) ∧
        ∀ output after output' after', ComputeUnit.run executable countedEdges reverseUnit = .done output after →
          ComputeUnit.run executable' countedEdges { reverseUnit with memory := { fill := 255 } } =
            .done output' after' → output'.allocation = output.allocation ∧ output'.primitives = output.primitives ∧
            output'.vertices = output.vertices ∧ output'.queryCounters = output.queryCounters := by
  obtain ⟨result, report, hlower, hok⟩ :=
    exists_lowerGeometry_of_checks edgeConfig edgeProgram (by decide +kernel) (by decide +kernel) (by decide +kernel)
  obtain ⟨survey, plan, declared, h, hreport⟩ := lowerGeometry_eq_ok hlower hok
  have hsurvey : (Survey.ofProgram edgeProgram edgeConfig.geometry).map (·.needsCompaction edgeConfig.geometry) =
      .ok false := by
    decide +kernel
  rw [h.surveyed] at hsurvey
  have hstatic : report.compaction = false := hreport.trans (Except.ok.inj hsurvey)
  have hscalar : Block.All edgeProgram (·.isScalar) edgeProgram.body := fun v hv i hi => (all_edgeProgram v hv i hi).1
  have hunique : ∀ p ending, (reverseUnit.workgroup ⟨edgeProgram, #[]⟩ countedEdges).Invokes p ending →
      ∃ inv, ending = .next inv ∧ ∀ m < 2, Emits inv m := by
    intro p ending hending
    obtain ⟨inv, hinv, hemits⟩ := invokes_edgeProgram p
    exact ⟨inv, (hinv.unique hscalar hending).symm, hemits⟩
  have hfaults : ¬ BodyFaults (reverseUnit.workgroup ⟨edgeProgram, #[]⟩ countedEdges) := by
    rintro ⟨p, hp, fault, hinv⟩
    obtain ⟨inv, heq, -⟩ := hunique p _ hinv
    cases heq
  obtain ⟨result', report', executable, executable', hlower', hok', hcompacts, hexec, hexec', hrun, hrun', hsame⟩ :=
    static_compacting_finales_agree hlower hok hstatic (show (2 : UInt8) < 4 by decide) (by decide)
      (fun v hv i hi => (all_edgeProgram v hv i hi).2) hscalar
      (show reverseUnit.SameKind { reverseUnit with memory := { fill := 255 } } from ⟨rfl, rfl, rfl⟩) rfl
      (show countedEdges.validate reverseUnit.wave = .ok () from rfl) (by decide) (by decide) (by decide)
      fun p hp inv hinv => by
        obtain ⟨inv', heq, hemits⟩ := hunique p _ hinv
        cases heq
        exact hemits
  exact ⟨result, report, hlower, hok, hstatic, result', report', executable, executable', hlower', hok', hcompacts,
    hexec, hexec', hrun.mono_faults hfaults, hrun'.mono_faults hfaults, hsame⟩

end PrimitiveShader.Lowering
