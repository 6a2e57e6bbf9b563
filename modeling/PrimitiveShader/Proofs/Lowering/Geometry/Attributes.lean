import PrimitiveShader.Proofs.Lowering.Geometry.Emissions
import PrimitiveShader.Proofs.Lowering.Geometry.Refinement
import PrimitiveShader.Proofs.Memory.History

/-!
# Staged components

Every slot of an active stream that a geometry program stores to has one component, which is wide enough for all that
is stored to it (`LowersGeometry.count_slots`). The bytes of a component of a vertex are its own
(`GeometryPlan.Sound.fields_apart`), so that no store to another component, to another vertex, to flags or to what a
compaction uses changes them (`GeometryPlan.Sound.load_staged`). What is emitted is what is exported
(`GeometryPlan.Leaves.find?_vertexAt`).
-/

namespace PrimitiveShader

namespace MemoryCall

variable {fill : UInt8} {later history : List MemoryCall} {a lane : Nat}

/-- Calls that do not store a byte leave it as it was. -/
theorem latest_append (h : ∀ call ∈ later, ∀ lane, ¬ call.StoresAt lane a) :
    latest fill (later ++ history) a = latest fill history a := by
  induction later with
  | nil => rfl
  | cons call rest ih =>
    have hrest := ih fun call hcall => h call (List.mem_cons_of_mem _ hcall)
    have hcall := h call List.mem_cons_self
    cases call with
    | store lane addr len value size =>
      rw [List.cons_append, latest, overwrite, if_neg fun hin => hcall lane ⟨rfl, hin⟩, hrest]
    | _ => exact hrest

/-- Behind a barrier only the calls since then count. -/
theorem not_storedBy_append (hsync : .sync ∈ later) (h : ∀ call ∈ later, ¬ call.StoresAt lane a) :
    ¬ StoredBy (later ++ history) lane a := by
  rintro ⟨call, hmem, hstores⟩
  refine h call ?_ hstores
  have hshort : (later.takeWhile (· ≠ .sync)).length ≠ later.length := by
    intro hlength
    rw [← (List.takeWhile_prefix _).eq_of_length hlength] at hsync
    simpa using List.all_eq_true.mp List.all_takeWhile _ hsync
  rw [sinceSync, List.takeWhile_append, if_neg hshort] at hmem
  exact (List.takeWhile_prefix _).subset hmem

end MemoryCall

open MemoryCall

/-- A load within bounds of bytes that no other wave has stored since the last barrier returns what was stored last. -/
theorem SharedMemory.Records.load_eq_done {waveOf : Nat → Nat} {fill : UInt8} {history : List MemoryCall}
    {m : SharedMemory} (h : m.Records waveOf fill history) {lane addr len size : Nat}
    (hwave : waveOf lane < SharedMemory.maxReaders) (hlen : len ≤ 8) (hfit : addr + len < 2 ^ 64)
    (hsize : addr + len ≤ size)
    (hreserved : addr + len ≤ reserved history)
    (hfree : ∀ a, addr ≤ a → a < addr + len → ∀ other, ¬ StoredBy history other a) :
    ∃ m', SharedMemory.load (waveOf lane) lane addr len size m =
      .done (littleEndian (latest fill history) addr len 0) m' := by
  have hbytes : (fun a => (m.cellAt a).byte) = latest fill history := funext fun a => (h.cell a).byte
  rcases load_accesses (m := m) (F := False) lane size (.inr ⟨hwave, hlen, hfit⟩) with ⟨hex, -⟩ | ⟨-, haccess⟩
  · rw [h.exceeds_iff] at hex
    omega
  · revert haccess
    cases SharedMemory.load (waveOf lane) lane addr len size m with
    | done v m' =>
      rintro ⟨-, hv⟩
      exact ⟨m', by rw [hv, hbytes]⟩
    | failed error m' =>
      rintro ⟨stop, hlo, hhi, herror, -⟩
      have hread : (m.cellAt stop).Readable (waveOf lane) :=
        (h.cell stop).readable_iff.mpr fun other hother => absurd hother (hfree stop hlo hhi other)
      cases (Cell.readError?_eq_none.mpr hread).symm.trans herror
    | faulted fault => exact False.elim

namespace Lowering

namespace GeometryPlan

variable {plan : GeometryPlan} {region : Region} {vertex : Nat} {a : Attribute}

/-! ## What is stored elsewhere -/

/-- The call stores nothing, or another component, or the same component of another vertex, or flags, or something
that a compaction uses. -/
def StoresElsewhere (plan : GeometryPlan) (vertex : Nat) (a : Attribute) : MemoryCall → Prop
  | .store _ addr len _ _ =>
    (∃ region, plan.layout.vertexAttributes = some region ∧ ∃ other < plan.places, ∃ b ∈ plan.attributes,
      (vertex, a) ≠ (other, b) ∧ addr = region.fieldAddress other plan.stride b.offset ∧ len = b.type.bytes) ∨
    ∃ region, ((∃ stream, plan.flagsRegion stream = .ok region) ∨ plan.layout.compactionIndex = some region ∨
        plan.layout.waveCounts = some region) ∧
      region.offset ≤ addr ∧ addr + len ≤ region.offset + region.size
  | _ => True

section

variable (h : plan.Sound) (hr : plan.layout.vertexAttributes = some region) (hvertex : vertex < plan.places)
  (ha : a ∈ plan.attributes)
include h hr hvertex ha

/-- The bytes of a component lie inside of the region. -/
theorem Sound.field_within : region.offset ≤ region.fieldAddress vertex plan.stride a.offset ∧
    region.fieldAddress vertex plan.stride a.offset + a.type.bytes ≤ region.offset + region.size := by
  have hpos := bytes_pos_of_isStaged (h.staged a ha)
  have hlast := h.component_lt hr hvertex ha (j := a.type.bytes - 1) (by omega)
  simp only [Region.fieldAddress]
  omega

/-- What is stored elsewhere does not touch the component. -/
theorem Sound.not_storesAt {call : MemoryCall} (hcall : plan.StoresElsewhere vertex a call) {x : Nat}
    (hlo : region.fieldAddress vertex plan.stride a.offset ≤ x)
    (hhi : x < region.fieldAddress vertex plan.stride a.offset + a.type.bytes) (lane : Nat) :
    ¬ call.StoresAt lane x := by
  cases call with
  | store lane' addr len value size =>
    rintro ⟨-, hstart, hend⟩
    rcases hcall with ⟨region', hr', other, -, b, hb, hne, rfl, rfl⟩ | ⟨other, hother, hin⟩
    · cases hr.symm.trans hr'
      have := h.fields_apart ha hb hne region
      omega
    · obtain ⟨role, hrole, hslot⟩ : ∃ role, role ≠ 1 ∧ plan.layout.slot role = some other := by
        rcases hother with ⟨stream, hflags⟩ | hindex | hcounts
        · exact ⟨4 + stream.toNat, by omega, flagsRegion_eq_ok hflags⟩
        · exact ⟨2, by decide, hindex⟩
        · exact ⟨0, by decide, hcounts⟩
      have hapart := h.regions.disjoint role 1 other region hrole hslot hr
      have hwithin := h.field_within hr hvertex ha
      omega
  | _ => exact not_false

/-- A component that has been stored is loaded again behind a barrier, whatever has been stored elsewhere. -/
theorem Sound.load_staged {value : UInt64} (hfits : a.type.Fits value) {waveOf : Nat → Nat}
    (hwave : ∀ lane, waveOf lane < SharedMemory.maxReaders) {fill : UInt8} {later earlier : List MemoryCall}
    {lane size : Nat}
    {m : SharedMemory} (hafter : SharedMemory.After waveOf fill (later ++
      .store lane (region.fieldAddress vertex plan.stride a.offset) a.type.bytes value size :: earlier) m)
    (hreserved : plan.layout.size ≤ reserved (later ++
      .store lane (region.fieldAddress vertex plan.stride a.offset) a.type.bytes value size :: earlier))
    (hsync : .sync ∈ later) (hlater : ∀ call ∈ later, plan.StoresElsewhere vertex a call) (reader : Nat) :
    ∃ m', SharedMemory.load (waveOf reader) reader (region.fieldAddress vertex plan.stride a.offset) a.type.bytes
      plan.layout.size m = .done value m' := by
  obtain ⟨hbytes, hconvert⟩ := convert_eq_and_lowOnes (h.staged a ha) value
  have hwithin := h.field_within hr hvertex ha
  have hbounded := h.regions.bounded 1 region hr
  have hsmall := h.small
  have huntouched : ∀ call ∈ later, ∀ x, region.fieldAddress vertex plan.stride a.offset ≤ x →
      x < region.fieldAddress vertex plan.stride a.offset + a.type.bytes → ∀ lane, ¬ call.StoresAt lane x :=
    fun call hcall x hlo hhi => h.not_storesAt hr hvertex ha (hlater call hcall) hlo hhi
  obtain ⟨m', hload⟩ := hafter.records.load_eq_done (hwave reader) hbytes (by omega)
    (Nat.le_trans hwithin.2 hbounded) (by omega) fun x hlo hhi other =>
      not_storedBy_append hsync fun call hcall => huntouched call hcall x hlo hhi other
  refine ⟨m', hload.trans (congrArg (Outcome.done · m') ?_)⟩
  rw [littleEndian_congr fun j _ hj => latest_append fun call hcall =>
    huntouched call hcall _ (Nat.le_add_right _ j) (by omega)]
  exact (littleEndian_overwrite _ _ hbytes value).trans (hconvert.symm.trans (convert_eq_self (h.staged a ha) hfits))

end

/-! ## What is exported -/

theorem Sound.find?_vertexAt (h : plan.Sound) (hr : plan.layout.vertexAttributes = some region)
    (ha : a ∈ plan.streamAttributes 0) (view : Nat → UInt8) (place : Nat) :
    (plan.vertexAt view place []).find? a.slot = some (plan.fieldAt region view place a) := by
  classical
  have hnodup : ((plan.streamAttributes 0).map (·.slot)).Nodup := h.slots.sublist (List.filter_sublist.map _)
  -- No two components have the same slot, so that a component is found by its slot.
  let found (slot : OutputSlot) : UInt64 := if hb : ∃ b ∈ plan.streamAttributes 0, b.slot = slot then
    plan.fieldAt region view place hb.choose else 0
  have hfound : ∀ b ∈ plan.streamAttributes 0, plan.fieldAt region view place b = found b.slot := by
    intro b hb
    have hex : ∃ b' ∈ plan.streamAttributes 0, b'.slot = b.slot := ⟨b, hb, rfl⟩
    have heq := List.inj_on_of_nodup_map hnodup hex.choose_spec.1 hb hex.choose_spec.2
    simp only [found, dif_pos hex, heq]
  rw [vertexAt_eq_fill hr hfound, SlotTable.find?_fill .nil, if_pos (List.mem_map_of_mem ha), hfound a ha]

/-- A vertex that is emitted, and not taken back by a smaller number of vertices, is exported. -/
theorem Leaves.exists_lane {before view : Nat → UInt8} {i m : Nat} {inv : Invocation}
    (hleaves : plan.Leaves before view i inv.events) {launch : Launch} (hi : i < launch.primitives.size)
    (hm : m < plan.config.geometry.maxVerticesOut)
    (hemits : Emits inv m)
    (hcounts : ∀ vertices primitives, .counts 0 vertices primitives ∈ inv.events → m < vertices.toNat)
    (hlane : plan.placeOf i m < launch.numLanes) (compacts : Bool) :
    ∃ lane < launch.numLanes, (plan.livePlaces launch (plan.exported compacts launch view))[lane]? =
      some (plan.placeOf i m) := by
  have hplace : plan.placeOf i m < plan.placesOf launch := by
    have hle := Nat.mul_le_mul_right plan.config.geometry.maxVerticesOut hi
    rw [Nat.succ_mul] at hle
    exact Nat.lt_of_lt_of_le (Nat.add_lt_add_left hm _) hle
  have hlive : plan.exported compacts launch view (plan.placeOf i m) = true := by
    unfold exported
    split
    · rw [liveAt, decide_eq_true hlane, decide_eq_true hplace, hleaves.flags m hm]
      exact hemits.isLive hcounts _ _
    · rfl
  exact ⟨_, Nat.lt_of_le_of_lt (countBelow_le _ _) hlane, getElem?_filter_range hplace hlive⟩

end GeometryPlan

/-- The vertex of number `m` of stream 0 that the invocation emits last has these outputs. -/
def EmitsLast (inv : Invocation) (m : Nat) (outputs : SlotTable UInt64) : Prop :=
  ∃ earlier number before later, inv.events = earlier ++ .vertex 0 number before outputs :: later ∧
    number.toNat = m ∧ ∀ number' before' outputs', .vertex 0 number' before' outputs' ∈ later → number'.toNat ≠ m

namespace EmitsLast

variable {inv : Invocation} {m : Nat} {outputs : SlotTable UInt64}

theorem emits (h : EmitsLast inv m outputs) : Emits inv m := by
  obtain ⟨earlier, number, before, later, hevents, hnumber, -⟩ := h
  exact ⟨number, before, outputs, by simp [hevents], hnumber⟩

/-- The last outputs are the ones that are left. -/
theorem foldl_fieldAfter (h : EmitsLast inv m outputs) (a : Attribute) (x : UInt64) :
    inv.events.foldl (fieldAfter m a) x = a.type.convert ((outputs.find? a.slot).getD 0) := by
  obtain ⟨earlier, number, before, later, hevents, rfl, hlater⟩ := h
  have hkeeps : ∀ (events : List GeometryEvent) (y : UInt64), (∀ event ∈ events, event ∈ later) →
      events.foldl (fieldAfter number.toNat a) y = y := by
    intro events y hsub
    induction events with
    | nil => rfl
    | cons event rest ih =>
      have hstep : fieldAfter number.toNat a y event = y := by
        cases event with
        | vertex stream n b o =>
          refine if_neg ?_
          rintro ⟨rfl, hn⟩
          exact hlater n b o (hsub _ List.mem_cons_self) hn
        | counts stream vertices primitives => rfl
      rw [List.foldl_cons, hstep]
      exact ih fun event hevent => hsub event (List.mem_cons_of_mem _ hevent)
  rw [hevents, List.foldl_append, List.foldl_cons, hkeeps later _ fun _ h => h]
  exact if_pos ⟨rfl, rfl⟩

end EmitsLast

namespace LowersGeometry

variable {slot : OutputSlot} {data : Value} {config : Config} {program declared lowered : Program} {survey : Survey}
  {plan : GeometryPlan}

variable (h : LowersGeometry config program survey plan declared lowered)
include h

/-- A slot of an active stream that is stored to has a component. -/
theorem exists_attribute (huse : config.geometry.usesStream slot.stream) (hstores : StoresOutput program slot data) :
    ∃ a ∈ plan.attributes, a.slot = slot ∧ ∃ σ, program.typeOf data = .ok σ ∧ σ.bits ≤ a.type.bits := by
  obtain ⟨hsorted, -, hstored⟩ := Survey.covers_of_ofProgram h.surveyed
  obtain ⟨type, σ, htype, hσ, hbits⟩ := hstored slot data hstores huse
  rw [SlotTable.find?_eq_some_iff hsorted, ← h.attributes_eq, List.mem_map] at htype
  obtain ⟨a, ha, heq⟩ := htype
  cases heq
  exact ⟨a, ha, rfl, σ, hσ, hbits⟩

/-- It has one component only, which is wide enough for all that is stored to it. -/
theorem count_slots (huse : config.geometry.usesStream slot.stream) (hstores : StoresOutput program slot data) :
    (plan.attributes.map (·.slot)).count slot = 1 ∧ ∀ a ∈ plan.attributes, a.slot = slot →
      ∃ σ, program.typeOf data = .ok σ ∧ σ.bits ≤ a.type.bits := by
  have hsound := GeometryPlan.sound_of_makePlan h.accepted h.surveyed h.planned
  obtain ⟨a, ha, rfl, hwide⟩ := h.exists_attribute huse hstores
  refine ⟨List.count_eq_one_of_mem hsound.slots (List.mem_map_of_mem ha), fun b hb heq => ?_⟩
  rwa [List.inj_on_of_nodup_map hsound.slots hb ha heq]

/-- An emitted output is exported as it is. -/
theorem find?_exported {before view : Nat → UInt8}
    {i m : Nat} {inv : Invocation} (hleaves : plan.Leaves before view i inv.events)
    (hm : m < plan.config.geometry.maxVerticesOut) {outputs : SlotTable UInt64} (hlast : EmitsLast inv m outputs)
    (hstream : slot.stream = 0) {value : UInt64} (hvalue : outputs.find? slot = some value)
    (hstores : StoresOutput program slot data) {σ : ScalarType} (hσ : program.typeOf data = .ok σ)
    (hfits : σ.Fits value) : (plan.vertexAt view (plan.placeOf i m) []).find? slot = some value := by
  have hsound := GeometryPlan.sound_of_makePlan h.accepted h.surveyed h.planned
  obtain ⟨a, ha, rfl, -⟩ := h.exists_attribute (hstream ▸ h.accepted.stream) hstores
  have hattribute : a ∈ plan.streamAttributes 0 := List.mem_filter.mpr ⟨ha, decide_eq_true hstream⟩
  obtain ⟨region, hr⟩ := GeometryPlan.exists_vertexAttributes h.accepted h.surveyed h.planned (List.ne_nil_of_mem ha)
  rw [hsound.find?_vertexAt hr hattribute, hleaves.fields region hr m hm a hattribute, hlast.foldl_fieldAfter, hvalue]
  exact congrArg some (GeometryPlan.convert_eq_self (hsound.staged a ha) (h.fits_of_stored ha hstores hσ hfits))

end LowersGeometry

/-- Staged components neither collide nor lose bits. When a geometry program is lowered, each slot of an active stream
that the body stores to has exactly one component, at least as wide as each value that is stored to the slot. The bytes
of two components, or of one component of two vertices, do not overlap and lie inside of their region. Therefore a
component that has been stored is loaded again behind a barrier, whatever has been stored to other components and
vertices, to flags or for the compaction. In a run each output that is stored within its type and emitted last at a
vertex of stream 0 is found again in the exported vertex. -/
theorem lowerGeometry_stages_faithfully {config : Config} {program : Program} {result : Lowered}
    {report : LoweringReport} (hlower : lowerGeometry config program = .ok result)
    (hok : result.outcome = .ok report) :
    ∃ survey plan declared, LowersGeometry config program survey plan declared result.program ∧
      (∀ slot data, config.geometry.usesStream slot.stream → StoresOutput program slot data →
        (plan.attributes.map (·.slot)).count slot = 1 ∧ ∀ a ∈ plan.attributes, a.slot = slot →
          ∃ σ, program.typeOf data = .ok σ ∧ σ.bits ≤ a.type.bits) ∧
      (∀ a ∈ plan.attributes, ∃ region, plan.layout.vertexAttributes = some region ∧
        ∀ vertex < config.geometry.maxInputPrimitives * config.geometry.maxVerticesOut,
          let addr := region.fieldAddress vertex plan.stride a.offset
          (region.offset ≤ addr ∧ addr + a.type.bytes ≤ region.offset + region.size) ∧
          (∀ other < config.geometry.maxInputPrimitives * config.geometry.maxVerticesOut, ∀ b ∈ plan.attributes,
            (vertex, a) ≠ (other, b) → addr + a.type.bytes ≤ region.fieldAddress other plan.stride b.offset ∨
              region.fieldAddress other plan.stride b.offset + b.type.bytes ≤ addr) ∧
          ∀ (value : UInt64) (waveOf : Nat → Nat) (fill : UInt8) (later earlier : List MemoryCall) (lane size : Nat)
            (m : SharedMemory), a.type.Fits value → (∀ lane, waveOf lane < SharedMemory.maxReaders) →
            let history := later ++ .store lane addr a.type.bytes value size :: earlier
            SharedMemory.After waveOf fill history m → plan.layout.size ≤ reserved history → .sync ∈ later →
            (∀ call ∈ later, plan.StoresElsewhere vertex a call) → ∀ reader, ∃ m',
              SharedMemory.load (waveOf reader) reader addr a.type.bytes plan.layout.size m = .done value m') ∧
      ∀ (unit : ComputeUnit) (launch : Launch), Block.All program (·.isPlain) program.body → unit.wave = config.wave →
        launch.validate unit.wave = .ok () → launch.numLanes ≤ config.maxWorkgroupSize →
        launch.primitives.size ≤ config.geometry.maxInputPrimitives →
        ∃ executable, result.program.toExecutable = .ok (.ok executable) ∧
          (ComputeUnit.run executable launch unit).Ensures
            (∃ i < launch.primitives.size, ∃ fault, (unit.workgroup ⟨program, #[]⟩ launch).Invokes i (.faulted fault))
            fun output _ => ∃ (places : List Nat) (vertexOf : Nat → SlotTable UInt64), places.Pairwise (· < ·) ∧
              output.vertices = lanewise launch.numLanes (fun lane => places[lane]?.toList.map vertexOf) ∧
              ∀ i < launch.primitives.size, ∃ inv, (unit.workgroup ⟨program, #[]⟩ launch).Invokes i (.next inv) ∧
                ∀ m < config.geometry.maxVerticesOut, ∀ outputs, EmitsLast inv m outputs →
                  ((∀ vertices primitives, .counts 0 vertices primitives ∈ inv.events → m < vertices.toNat) →
                    i * config.geometry.maxVerticesOut + m < launch.numLanes →
                    ∃ lane < launch.numLanes, places[lane]? = some (i * config.geometry.maxVerticesOut + m)) ∧
                  ∀ slot value data σ, slot.stream = 0 → outputs.find? slot = some value →
                    StoresOutput program slot data → program.typeOf data = .ok σ → σ.Fits value →
                    (vertexOf (i * config.geometry.maxVerticesOut + m)).find? slot = some value := by
  obtain ⟨survey, plan, declared, h, -⟩ := lowerGeometry_eq_ok hlower hok
  have hsound := GeometryPlan.sound_of_makePlan h.accepted h.surveyed h.planned
  refine ⟨survey, plan, declared, h, fun slot data huse hstores => h.count_slots huse hstores, fun a ha => ?_,
    fun unit launch hplain hwave hvalid hlanes hprimitives => ?_⟩
  · obtain rfl := h.config_eq
    obtain ⟨region, hr⟩ :=
      GeometryPlan.exists_vertexAttributes h.accepted h.surveyed h.planned (List.ne_nil_of_mem ha)
    refine ⟨region, hr, fun vertex hvertex => ⟨hsound.field_within hr hvertex ha,
      fun other _ b hb hne => hsound.fields_apart ha hb hne region, ?_⟩⟩
    intro value waveOf fill later earlier lane size m hfits hwave history hafter hreserved hsync hlater
    exact hsound.load_staged hr hvertex ha hfits hwave hafter hreserved hsync hlater
  · refine ⟨_, h.toExecutable, (h.run_finished hplain hwave hvalid hlanes hprimitives
      fun i hi fault hinv => ⟨i, hi, fault, hinv⟩).mono ?_⟩
    rintro output _ - ⟨T, ⟨before, view, hstaged, hT⟩, hgathers⟩
    obtain rfl := h.config_eq
    obtain ⟨flags, hflags⟩ := GeometryPlan.exists_flagsRegion h.accepted h.planned h.accepted.stream
    refine ⟨plan.livePlaces launch (plan.exported (survey.needsCompaction plan.config.geometry) launch view),
      fun place => plan.vertexAt view place [], List.pairwise_lt_range.filter _, ?_, fun i hi => ?_⟩
    · rw [hgathers.vertices]
      exact lanewise_congr fun lane hlane => (hT lane hlane).vertices
    · obtain ⟨inv, hinv, hleaves⟩ := hstaged.leaves hsound hflags h.accepted.stream hprimitives hi
      exact ⟨inv, hinv, fun m hm outputs hlast =>
        ⟨fun hcounts hlane => hleaves.exists_lane hi hm hlast.emits hcounts hlane _,
          fun slot value data σ hstream hvalue hstores hσ hfits =>
            h.find?_exported hleaves hm hlast hstream hvalue hstores hσ hfits⟩⟩

/-- The second vertex is exported at place 1 with the output that was stored for it. -/
theorem lowerGeometry_stages_faithfully_uneven :
    ∃ result report, lowerGeometry {} unevenProgram = .ok result ∧ result.outcome = .ok report ∧
      ∃ executable, result.program.toExecutable = .ok (.ok executable) ∧
        (ComputeUnit.run executable eightLanes reverseUnit).Ensures False fun output _ =>
          ∃ (places : List Nat) (vertexOf : Nat → SlotTable UInt64),
            output.vertices = lanewise 8 (fun lane => places[lane]?.toList.map vertexOf) ∧
            (∃ lane < 8, places[lane]? = some 1) ∧ (vertexOf 1).find? ⟨0, 0, 0⟩ = some 1 := by
  obtain ⟨result, report, hlower, hok⟩ := lowers_unevenProgram
  have hscalar : Block.All unevenProgram (·.isScalar) unevenProgram.body :=
    fun v hv i hi => (all_unevenProgram v hv i hi).1
  obtain ⟨survey, plan, declared, -, -, -, hruns⟩ := lowerGeometry_stages_faithfully hlower hok
  obtain ⟨executable, hexec, hrun⟩ := hruns reverseUnit eightLanes
    (fun v hv i hi => isPlain_of_isScalar (hscalar v hv i hi)) rfl rfl (by decide) (by decide)
  refine ⟨result, report, hlower, hok, executable, hexec, (hrun.mono_faults not_faulted_unevenProgram).mono ?_⟩
  rintro output _ - ⟨places, vertexOf, -, hvertices, hinvocations⟩
  obtain ⟨inv, hinv, hemitted⟩ := hinvocations 0 (by decide)
  obtain ⟨inv', hinv', hevents⟩ := events_unevenProgram
  cases hinv.unique hscalar hinv'
  have hlast : EmitsLast inv 1 [(⟨0, 0, 0⟩, 1)] :=
    ⟨[_], 1, 1, [_, _], hevents, rfl, fun _ _ _ hmem => by simp at hmem; simp [hmem]⟩
  have hcounts : ∀ vertices primitives, .counts 0 vertices primitives ∈ inv.events → 1 < vertices.toNat :=
    fun _ _ hmem => by simp [hevents] at hmem; simp [hmem]
  obtain ⟨hlane, hvalue⟩ := hemitted 1 (by decide) _ hlast
  exact ⟨places, vertexOf, hvertices, hlane hcounts (by decide),
    hvalue ⟨0, 0, 0⟩ 1 ⟨2⟩ .u32 rfl rfl ⟨⟨8⟩, by decide, rfl⟩ rfl (by decide)⟩

end Lowering

end PrimitiveShader
