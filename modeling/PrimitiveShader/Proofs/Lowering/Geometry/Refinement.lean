import PrimitiveShader.Proofs.Lowering.Geometry.Run
import PrimitiveShader.Proofs.Lowering.Geometry.Strips
import PrimitiveShader.Proofs.Lowering.Geometry.Validity

/-!
# Lowered geometry programs export the strips of their source

With a compaction the vertices of all invocations are exported one behind the other, and each vertex that
completes a primitive of its strip brings about the word of that primitive. This is so whatever the control
flow of the source and whatever the schedule, unless the step limit is hit or the source itself faults
(`run_lowerGeometry_ensures`).
-/

namespace PrimitiveShader.Lowering

theorem isPlain_of_isScalar {instr : Instr} (h : instr.isScalar) : instr.isPlain := by
  cases instr with
  | intrinsic op => cases op <;> first | rfl | cases h
  | _ => rfl

/-- The elements of a list, each exported by the lane of its number. -/
theorem lanewise_getElem? {α : Type} [Inhabited α] {numLanes : Nat} (xs : List α) {exports : Nat → List α}
    (hle : xs.length ≤ numLanes) (h : ∀ i < numLanes, exports i = xs[i]?.toList) :
    lanewise numLanes exports = (xs.mapIdx fun i x => (i, x)).toArray := by
  have hfirst : ∀ i < xs.length, exports i = [xs[i]!] := by
    intro i hi
    rw [h i (Nat.lt_of_lt_of_le hi hle), getElem!_pos xs i hi, List.getElem?_eq_getElem hi]
    rfl
  have hrest : ∀ i < numLanes, xs.length ≤ i → exports i = [] := by
    intro i hi hge
    rw [h i hi, List.getElem?_eq_none hge]
    rfl
  rw [lanewise_singletons hle hfirst hrest]
  refine congrArg _ (List.ext_getElem (by simp) fun i hi hi' => ?_)
  rw [List.length_map, List.length_range] at hi
  simp [hi]

namespace GeometryPlan.ShowsStrips

variable {plan : GeometryPlan} {program : Program} {strips : Nat → List StripVertex} {launch : Launch}
  {view : Nat → UInt8} {T : Nat → Thread}

variable (h : plan.ShowsStrips program strips launch view)
include h

variable (hroom : plan.placesOf launch ≤ launch.numLanes)
include hroom

/-- The space has room for all vertices and for their words. -/
theorem spaceFor_eq :
    plan.spaceFor launch (plan.liveAt launch view) = ⟨(allVertices strips launch.primitives.size).length,
        wordCount plan.config strips launch.primitives.size⟩ := by
  have hlength := congrArg List.length (h.map_vertexAt hroom)
  rw [List.length_map, List.length_map] at hlength
  have hempty : plan.livePlaces launch (plan.liveAt launch view) = [] ↔
      allVertices strips launch.primitives.size = [] := by
    rw [← List.length_eq_zero_iff, hlength, List.length_eq_zero_iff]
  simp only [spaceFor, wordCount, hlength, hempty]
  rfl

variable (hT : ∀ i < launch.numLanes, plan.Delivers launch view (plan.liveAt launch view) i (T i))
include hT

theorem lanewise_vertices :
    lanewise launch.numLanes (fun i => (T i).vertices) =
      ((allVertices strips launch.primitives.size).mapIdx fun lane v =>
        (lane, exportedVertex program v.outputs)).toArray := by
  have hvertices := h.map_vertexAt hroom
  rw [lanewise_getElem? ((allVertices strips launch.primitives.size).map fun v =>
    exportedVertex program v.outputs)]
  · refine congrArg _ (List.ext_getElem? fun i => ?_)
    simp only [List.getElem?_mapIdx, List.getElem?_map, Option.map_map]
    rfl
  · rw [← hvertices, List.length_map]
    exact Nat.le_trans (List.length_filter_le _ _) (by rwa [List.length_range])
  · intro i hi
    rw [(hT i hi).vertices, ← hvertices, List.getElem?_map, Option.toList_map]

theorem lanewise_primitives :
    lanewise launch.numLanes (fun i => (T i).primitives) =
      ((List.range (wordCount plan.config strips launch.primitives.size)).map fun place =>
        (place, plan.wordOf (.ofNat (countBelow (plan.liveAt launch view) place))
          (plan.flagsAt view place))).toArray := by
  have hcount := congrArg Allocation.primitives (h.spaceFor_eq hroom)
  have hle := Nat.le_trans (primitives_spaceFor_le plan launch (plan.liveAt launch view)) hroom
  rw [hcount] at hle
  refine lanewise_singletons hle (fun i hi => ?_) fun i hi hge => ?_
  · rw [(hT i (Nat.lt_of_lt_of_le hi hle)).primitives, hcount, if_pos hi]
  · rw [(hT i hi).primitives, hcount, if_neg (Nat.not_lt.mpr hge)]

end GeometryPlan.ShowsStrips

/-- A lowered geometry program that compacts its vertices is ready to run. Where each invocation emits its
vertices one by one and then states their number, its run exports the vertices of all invocations one behind
the other, with a word for each place: the primitive that the vertex of the place completes, or a null
primitive. -/
theorem run_lowerGeometry_ensures {config : Config} {program : Program} {launch : Launch}
    {unit : ComputeUnit} {result : Lowered} {report : LoweringReport} {strips : Nat → List StripVertex}
    (hlower : lowerGeometry config program = .ok result) (hok : result.outcome = .ok report)
    (hcompacts : report.compaction = true) (hbody : Block.All program (·.isScalar) program.body)
    (hconstants : Block.All program (fun instr => ∀ type a, instr = .const type a → type.Fits a) program.body)
    (hwave : unit.wave = config.wave) (hvalid : launch.validate unit.wave = .ok ())
    (hlanes : launch.numLanes ≤ config.maxWorkgroupSize)
    (hprimitives : launch.primitives.size ≤ config.geometry.maxInputPrimitives)
    (hroom : launch.primitives.size * config.geometry.maxVerticesOut ≤ launch.numLanes)
    (hstrips : ∀ p < launch.primitives.size, ∀ inv, (unit.workgroup ⟨program, #[]⟩ launch).Invokes p (.next inv) →
      EmitsStrips config.geometry.maxVerticesOut inv (strips p)) :
    ∃ executable, result.program.toExecutable = .ok (.ok executable) ∧ (ComputeUnit.run executable launch unit).Ensures
        (∃ p < launch.primitives.size, ∃ fault, (unit.workgroup ⟨program, #[]⟩ launch).Invokes p (.faulted fault))
        fun output _ =>
          (∀ p < launch.primitives.size, ∃ inv, (unit.workgroup ⟨program, #[]⟩ launch).Invokes p (.next inv)) ∧
          output.allocation = some ⟨(allVertices strips launch.primitives.size).length,
            wordCount config strips launch.primitives.size⟩ ∧
          output.vertices = ((allVertices strips launch.primitives.size).mapIdx fun lane v =>
            (lane, exportedVertex program v.outputs)).toArray ∧
          ∃ words : Nat → ExportWord, (∀ place < launch.primitives.size * config.geometry.maxVerticesOut,
              placeWord config strips place = .ok (words place)) ∧
            output.primitives = ((List.range (wordCount config strips launch.primitives.size)).map fun place =>
              (place, words place)).toArray := by
  obtain ⟨survey, plan, declared, h, hcompaction⟩ := lowerGeometry_eq_ok hlower hok
  have hplain : Block.All program (·.isPlain) program.body :=
    fun v hv i hi => isPlain_of_isScalar (hbody v hv i hi)
  have hlaunch := Launch.valid_of_validate hvalid
  refine ⟨_, h.toExecutable, (h.run_finished hplain hwave hvalid hlanes hprimitives
    fun p hp fault hinv => ⟨p, hp, fault, hinv⟩).mono ?_⟩
  rintro output _ - ⟨T, ⟨before, view, hstaged, hT⟩, hgathers⟩
  rw [← hcompaction, hcompacts] at hT
  obtain rfl := h.config_eq
  have hsound := GeometryPlan.sound_of_makePlan h.accepted h.surveyed h.planned
  have hsource : (unit.workgroup ⟨program, #[]⟩ launch).TypedSource := ⟨hlaunch, h.valid, hbody, hconstants⟩
  have hshows := h.showsStrips rfl hsource hstaged hprimitives hstrips
  refine ⟨fun p hp => (hstaged p hp).imp fun _ hinv => hinv.1, ?_, ?_, _,
    fun place hplace => hshows.placeWord_eq hsound hprimitives hroom hplace, ?_⟩
  · rw [hgathers.allocation, (hT 0 hlaunch.lanes).space rfl]
    exact congrArg some (hshows.spaceFor_eq hroom)
  · rw [hgathers.vertices]
    exact hshows.lanewise_vertices hroom hT
  · rw [hgathers.primitives]
    exact hshows.lanewise_primitives hroom hT

/-- A geometry program whose first invocation emits a triangle, and all others a single vertex. -/
def unevenProgram : Program where
  stage := .geometry
  definitions := #[⟨.intrinsic (.input .localInvocationIndex), .u32⟩, ⟨.const .u32 0, .u32⟩,
    ⟨.const .u32 1, .u32⟩, ⟨.const .u32 2, .u32⟩, ⟨.const .u32 3, .u32⟩, ⟨.binary .eq ⟨0⟩ ⟨1⟩, .bool⟩,
    ⟨.intrinsic (.storeOutput ⟨0, 0, 0⟩ ⟨0⟩), .void⟩,
    ⟨.intrinsic (.geometry (.emitVertex 0 ⟨1⟩ ⟨1⟩)), .void⟩,
    ⟨.intrinsic (.storeOutput ⟨0, 0, 0⟩ ⟨2⟩), .void⟩,
    ⟨.intrinsic (.geometry (.emitVertex 0 ⟨2⟩ ⟨2⟩)), .void⟩,
    ⟨.intrinsic (.geometry (.emitVertex 0 ⟨3⟩ ⟨3⟩)), .void⟩,
    ⟨.intrinsic (.geometry (.setCounts 0 ⟨4⟩ ⟨2⟩)), .void⟩,
    ⟨.intrinsic (.geometry (.setCounts 0 ⟨2⟩ ⟨1⟩)), .void⟩]
  body := [.instr ⟨0⟩, .instr ⟨1⟩, .instr ⟨2⟩, .instr ⟨3⟩, .instr ⟨4⟩, .instr ⟨5⟩, .instr ⟨6⟩, .instr ⟨7⟩,
    .branch ⟨5⟩ [.instr ⟨8⟩, .instr ⟨9⟩, .instr ⟨10⟩, .instr ⟨11⟩] [.instr ⟨12⟩]]

/-- Two invocations on as many lanes as they have places. -/
def eightLanes : Launch where
  numLanes := 8
  primitives := #[.triangle 0 1 2 7, .triangle 2 1 3 9]

/-- The vertices of `unevenProgram`. -/
def unevenStrips : Nat → List StripVertex
  | 0 => [⟨0, [(⟨0, 0, 0⟩, 0)]⟩, ⟨1, [(⟨0, 0, 0⟩, 1)]⟩, ⟨2, []⟩]
  | _ => [⟨0, [(⟨0, 0, 0⟩, 1)]⟩]

theorem all_unevenProgram : Block.All unevenProgram
    (fun instr => instr.isScalar ∧ ∀ type a, instr = .const type a → type.Fits a) unevenProgram.body := by
  intro v hv instr hi
  have hmem : v ∈ (List.range 13).map Value.mk := hv
  simp only [List.range, List.range.loop, List.map_cons, List.map_nil, List.mem_cons, List.not_mem_nil,
    or_false] at hmem
  rcases hmem with rfl | rfl | rfl | rfl | rfl | rfl | rfl | rfl | rfl | rfl | rfl | rfl | rfl <;>
    cases hi <;> refine ⟨rfl, ?_⟩ <;> rintro type a ⟨⟩ <;> decide

/-- Waves that run in the reverse order. -/
def reverseUnit : ComputeUnit where
  wave := .wave64
  schedule := .reverse

theorem lowers_unevenProgram :
    ∃ result report, lowerGeometry {} unevenProgram = .ok result ∧ result.outcome = .ok report :=
  exists_lowerGeometry_of_checks {} unevenProgram (by decide +kernel) (by decide +kernel) (by decide +kernel)

/-- The first invocation of `unevenProgram`. -/
theorem events_unevenProgram : ∃ inv, (reverseUnit.workgroup ⟨unevenProgram, #[]⟩ eightLanes).Invokes 0 (.next inv) ∧
    inv.events = [.vertex 0 0 0 [(⟨0, 0, 0⟩, 0)], .vertex 0 1 1 [(⟨0, 0, 0⟩, 1)], .vertex 0 2 2 [], .counts 0 3 1] := by
  refine ⟨?inv, ?run, ?_⟩
  case run =>
    iterate 8 refine .instr rfl (.scalar rfl) ?_
    refine .branch rfl ?_ (.nil _)
    iterate 4 refine .instr rfl (.scalar rfl) ?_
    exact .nil _
  rfl

/-- Both invocations end with their vertices. -/
theorem ends_unevenProgram {p : Nat} {ending : Ending} (hp : p < 2)
    (h : (reverseUnit.workgroup ⟨unevenProgram, #[]⟩ eightLanes).Invokes p ending) :
    ∃ inv, ending = .next inv ∧ EmitsStrips 4 inv (unevenStrips p) := by
  have hscalar : Block.All unevenProgram (·.isScalar) unevenProgram.body :=
    fun v hv i hi => (all_unevenProgram v hv i hi).1
  obtain rfl | rfl : p = 0 ∨ p = 1 := by omega
  · obtain ⟨inv, hinv, hevents⟩ := events_unevenProgram
    refine ⟨inv, (hinv.unique hscalar h).symm, ⟨1, by rw [hevents]; rfl⟩, by decide, ?_⟩
    rintro (_ | _ | _ | i) v hv <;> cases hv <;> decide
  · obtain ⟨inv, hinv, hevents⟩ : ∃ inv, (reverseUnit.workgroup ⟨unevenProgram, #[]⟩ eightLanes).Invokes 1
        (.next inv) ∧ inv.events = [.vertex 0 0 0 [(⟨0, 0, 0⟩, 1)], .counts 0 1 0] := by
      refine ⟨?inv, ?run, ?_⟩
      case run =>
        iterate 8 refine .instr rfl (.scalar rfl) ?_
        refine .branch rfl ?_ (.nil _)
        refine .instr rfl (.scalar rfl) ?_
        exact .nil _
      rfl
    refine ⟨inv, (hinv.unique hscalar h).symm, ⟨0, by rw [hevents]; rfl⟩, by decide, ?_⟩
    rintro (_ | i) v hv <;> cases hv
    decide

theorem not_faulted_unevenProgram : ¬ ∃ p < eightLanes.primitives.size, ∃ fault,
    (reverseUnit.workgroup ⟨unevenProgram, #[]⟩ eightLanes).Invokes p (.faulted fault) := by
  rintro ⟨p, hp, fault, hinv⟩
  obtain ⟨inv, heq, -⟩ := ends_unevenProgram hp hinv
  cases heq

/-- The compacted vertices of both invocations, and the one triangle. -/
theorem run_lowerGeometry_ensures_uneven :
    ∃ result report, lowerGeometry {} unevenProgram = .ok result ∧ result.outcome = .ok report ∧
      report.compaction = true ∧ ∃ executable, result.program.toExecutable = .ok (.ok executable) ∧
        (ComputeUnit.run executable eightLanes reverseUnit).Ensures False fun output _ =>
          output.allocation = some ⟨4, 8⟩ ∧
          output.vertices = #[(0, [(⟨0, 0, 0⟩, 0)]), (1, [(⟨0, 0, 0⟩, 1)]), (2, [(⟨0, 0, 0⟩, 0)]),
            (3, [(⟨0, 0, 0⟩, 1)])] ∧ output.primitives.size = 8 := by
  obtain ⟨result, report, hlower, hok⟩ := lowers_unevenProgram
  obtain ⟨survey, plan, declared, h, hcompaction⟩ := lowerGeometry_eq_ok hlower hok
  have hcompacts : (Survey.ofProgram unevenProgram {}).map (·.needsCompaction {}) = .ok true := by
    decide +kernel
  rw [h.surveyed] at hcompacts
  have htrue : report.compaction = true := hcompaction.trans (Except.ok.inj hcompacts)
  have hscalar : Block.All unevenProgram (·.isScalar) unevenProgram.body :=
    fun v hv i hi => (all_unevenProgram v hv i hi).1
  obtain ⟨executable, hexec, hrun⟩ := run_lowerGeometry_ensures hlower hok htrue hscalar
    (fun v hv i hi => (all_unevenProgram v hv i hi).2) (show reverseUnit.wave = .wave64 from rfl)
    (show eightLanes.validate reverseUnit.wave = .ok () from rfl) (by decide) (by decide) (by decide)
    fun p hp inv hinv => by
      obtain ⟨inv', heq, hemits⟩ := ends_unevenProgram hp hinv
      cases heq
      exact hemits
  refine ⟨result, report, hlower, hok, htrue, executable, hexec, ?_⟩
  refine (hrun.mono_faults not_faulted_unevenProgram).mono ?_
  rintro output _ - ⟨-, hspace, hvertices, words, -, hprimitives⟩
  exact ⟨hspace, hvertices, by rw [hprimitives]; rfl⟩

end PrimitiveShader.Lowering
