import Mathlib.Data.List.Induction
import PrimitiveShader.Proofs.Lowering.Geometry.Events
import PrimitiveShader.Proofs.Lowering.Geometry.Outputs
import PrimitiveShader.Proofs.Lowering.InputPrimitive

/-!
# The strips of a workgroup

A geometry program hands over the vertices of its strips. What they are exported as is said without memory,
lanes or barriers, in terms of the vertices that the invocations emit (`allVertices`, `placeWord`). Behind
the body the memory shows just these (`LowersGeometry.showsStrips`).
-/

namespace PrimitiveShader

/-- The stream of an event. -/
def GeometryEvent.stream : GeometryEvent → UInt8
  | .vertex stream _ _ _ => stream
  | .counts stream _ _ => stream

namespace Lowering

/-- A vertex of stream 0, as an invocation emits it. -/
structure StripVertex where
  /-- The number of vertices ahead of it in its strip. -/
  before : UInt64
  /-- The outputs that have been stored for it. -/
  outputs : SlotTable UInt64

/-- The events of some vertices, numbered from 0 on. -/
def stripEvents (vertices : List StripVertex) : List GeometryEvent :=
  vertices.mapIdx fun i (v : StripVertex) => .vertex 0 (.ofNat i) v.before v.outputs

/-- The invocation emits some vertices on stream 0, numbered from 0 on, and then states their number. -/
structure EmitsStrips (limit : Nat) (inv : Invocation) (vertices : List StripVertex) : Prop where
  events : ∃ primitives, inv.events.filter (·.stream = 0) =
    stripEvents vertices ++ [.counts 0 (.ofNat vertices.length) primitives]
  length_le : vertices.length ≤ limit
  before_le : ∀ (i : Nat) (v : StripVertex), vertices[i]? = some v → v.before.toNat ≤ i

/-- A vertex as it is exported: with all outputs of stream 0, zero where none has been stored. -/
def exportedVertex (program : Program) (outputs : SlotTable UInt64) : SlotTable UInt64 :=
  SlotTable.fill [] (fun slot => (outputs.find? slot).getD 0) (outputSlots program)

/-- The vertices of the first invocations, one behind the other. -/
def allVertices (strips : Nat → List StripVertex) (invocations : Nat) : List StripVertex :=
  (List.range invocations).flatMap strips

/-- The word of a place: the primitive that its vertex completes, or a null primitive. -/
def placeWord (config : Config) (strips : Nat → List StripVertex) (place : Nat) :
    Except Fault ExportWord :=
  let invocation := place / config.geometry.maxVerticesOut
  let number := place % config.geometry.maxVerticesOut
  let rank := (allVertices strips invocation).length + number
  match (strips invocation)[number]? with
  | some v =>
    if config.topology.vertexCount - 1 ≤ v.before.toNat then
      ExportWord.pack (Strip.vertexIndices config.topology (.ofNat rank) (v.before &&& 1 != 0)
        config.provokingVertex) none false
    else ExportWord.pack (.replicate config.topology.vertexCount 0) none true
  | none => ExportWord.pack (.replicate config.topology.vertexCount 0) none true

/-- The number of words: one for each place, but none if there are no vertices at all. -/
def wordCount (config : Config) (strips : Nat → List StripVertex) (invocations : Nat) : Nat :=
  if allVertices strips invocations = [] then 0 else invocations * config.geometry.maxVerticesOut

/-! ## What the events of an invocation come to -/

variable {odd : Bool} {plan : GeometryPlan} {place : Nat} {strips : Nat → List StripVertex} {view : Nat → UInt8}
  {program : Program} {provoking : ProvokingVertex} {topology : Topology} {α : Type} {rank x : UInt32}
  {f : α → GeometryEvent → α}

/-- Events of other streams do not matter. -/
theorem foldl_filter_stream (h : ∀ x event, event.stream ≠ 0 → f x event = x) (events : List GeometryEvent) (x : α) :
    events.foldl f x = (events.filter (·.stream = 0)).foldl f x := by
  induction events generalizing x with
  | nil => rfl
  | cons event rest ih =>
    rw [List.foldl_cons, List.filter_cons]
    split
    · rw [List.foldl_cons, ih]
    · rename_i hother
      rw [h x event (by simpa using hother), ih]

/-- Of the vertices only the one with number `m` counts. -/
theorem foldl_stripEvents {m : Nat} {g : StripVertex → α} {limit : Nat} (hf : ∀ x (i : Nat) v, i < limit →
      f x (.vertex 0 (.ofNat i) v.before v.outputs) = if i = m then g v else x)
    {vertices : List StripVertex} (hlength : vertices.length ≤ limit) (x : α) :
    (stripEvents vertices).foldl f x = (vertices[m]?.map g).getD x := by
  -- The induction adds vertices at the end, where the events are added as well.
  induction vertices using List.reverseRecOn with
  | nil => rfl
  | append_singleton vertices v ih =>
    rw [List.length_append, List.length_singleton] at hlength
    have hevents : stripEvents (vertices ++ [v]) =
        stripEvents vertices ++ [.vertex 0 (.ofNat vertices.length) v.before v.outputs] := by
      simp [stripEvents, List.mapIdx_append]
    rw [hevents, List.foldl_append, List.foldl_cons, List.foldl_nil, hf _ _ _ hlength, ih (by omega)]
    rcases Nat.lt_trichotomy m vertices.length with hlt | rfl | hgt
    · rw [if_neg (by omega), List.getElem?_append_left hlt]
    · rw [if_pos rfl, List.getElem?_concat_length]
      rfl
    · rw [if_neg (by omega), List.getElem?_eq_none (by omega), List.getElem?_eq_none (by simp; omega)]

namespace EmitsStrips

variable {limit m : Nat} {inv : Invocation} {vertices : List StripVertex}

variable (h : EmitsStrips limit inv vertices)
include h

theorem flags (hlimit : limit ≤ 2 ^ 32) (topology : Topology) (flags : UInt8) :
    inv.events.foldl (flagsAfter topology m) flags = (vertices[m]?.map fun v => flagsOf topology v.before).getD 0 := by
  obtain ⟨primitives, hevents⟩ := h.events
  have hlength := h.length_le
  have hnumber {i : Nat} (hi : i ≤ limit) : (UInt64.ofNat i).toNat = i := by
    rw [UInt64.toNat_ofNat']
    omega
  rw [foldl_filter_stream (fun x event hne => ?_), hevents, List.foldl_append,
    foldl_stripEvents (g := fun v => flagsOf topology v.before) (fun x i v hi => ?_) hlength]
  · rw [List.foldl_cons, List.foldl_nil, flagsAfter, hnumber hlength]
    by_cases hle : vertices.length ≤ m
    · rw [if_pos ⟨rfl, hle⟩, List.getElem?_eq_none hle]
      rfl
    · rw [if_neg fun hand => hle hand.2, List.getElem?_eq_getElem (Nat.lt_of_not_le hle)]
      rfl
  · simp only [flagsAfter, true_and, hnumber (Nat.le_of_lt hi)]
  · cases event <;> exact if_neg fun hand => hne hand.1

/-- The components that an invocation leaves. -/
theorem fields (hlimit : limit ≤ 2 ^ 32) (a : Attribute) (x : UInt64) : inv.events.foldl (fieldAfter m a) x =
      (vertices[m]?.map fun v => a.type.convert ((v.outputs.find? a.slot).getD 0)).getD x := by
  obtain ⟨primitives, hevents⟩ := h.events
  have hlength := h.length_le
  rw [foldl_filter_stream (fun x event hne => ?_), hevents, List.foldl_append, foldl_stripEvents
    (g := fun v => a.type.convert ((v.outputs.find? a.slot).getD 0)) (fun x i v hi => ?_) hlength]
  · rfl
  · have hnumber : (UInt64.ofNat i).toNat = i := by
      rw [UInt64.toNat_ofNat']
      omega
    simp only [fieldAfter, true_and, hnumber]
  · cases event with
    | vertex => exact if_neg fun hand => hne hand.1
    | counts => rfl

/-- Every vertex of the strips is an event. -/
theorem mem_events {v : StripVertex} (hv : vertices[m]? = some v) :
    .vertex 0 (.ofNat m) v.before v.outputs ∈ inv.events := by
  obtain ⟨primitives, hevents⟩ := h.events
  have hget : (stripEvents vertices)[m]? = some (.vertex 0 (.ofNat m) v.before v.outputs) := by
    simp only [stripEvents, List.getElem?_mapIdx, hv, Option.map_some]
  have hmem := List.mem_append_left [.counts 0 (.ofNat vertices.length) primitives] (List.mem_of_getElem? hget)
  rw [← hevents] at hmem
  exact (List.mem_filter.mp hmem).1

end EmitsStrips

/-! ## What the memory shows -/

theorem completesPrimitive_flagsOf (topology : Topology) (before : UInt64) :
    PrimitiveFlags.completesPrimitive ⟨flagsOf topology before⟩ = decide (topology.vertexCount - 1 ≤ before.toNat) := by
  simp only [flagsOf]
  by_cases hcompletes : topology.vertexCount - 1 ≤ before.toNat
  · rw [if_pos hcompletes, decide_eq_true hcompletes]
    split <;> rfl
  · rw [if_neg hcompletes, decide_eq_false hcompletes]
    split <;> rfl

theorem isOdd_flagsOf (before : UInt64) : PrimitiveFlags.isOdd ⟨flagsOf .triangles before⟩ = (before &&& 1 != 0) := by
  simp only [flagsOf, true_and]
  by_cases hodd : before &&& 1 = 0
  · rw [if_neg (not_not_intro hodd), hodd]
    split <;> rfl
  · rw [if_pos hodd, bne_iff_ne.mpr hodd]
    split <;> rfl

/-- The bytes show the vertices that the invocations have emitted. -/
structure GeometryPlan.ShowsStrips (plan : GeometryPlan) (program : Program)
    (strips : Nat → List StripVertex) (launch : Launch) (view : Nat → UInt8) : Prop where
  flags : ∀ p < launch.primitives.size, ∀ m < plan.config.geometry.maxVerticesOut,
    plan.flagsAt view (plan.placeOf p m) =
      ((strips p)[m]?.map fun v => flagsOf plan.config.topology v.before).getD 0
  vertices : ∀ p < launch.primitives.size, ∀ (m : Nat) (v : StripVertex), (strips p)[m]? = some v →
    plan.vertexAt view (plan.placeOf p m) [] = exportedVertex program v.outputs
  length_le : ∀ p < launch.primitives.size, (strips p).length ≤ plan.config.geometry.maxVerticesOut
  before_le : ∀ p < launch.primitives.size, ∀ (m : Nat) (v : StripVertex), (strips p)[m]? = some v →
    v.before.toNat ≤ m

/-- A vertex is a table of its components. -/
theorem GeometryPlan.vertexAt_eq_fill
    {region : Region} (hr : plan.layout.vertexAttributes = some region) {g : OutputSlot → UInt64}
    (h : ∀ a ∈ plan.streamAttributes 0, plan.fieldAt region view place a = g a.slot) :
    plan.vertexAt view place [] = SlotTable.fill [] g ((plan.streamAttributes 0).map (·.slot)) := by
  unfold vertexAt SlotTable.fill
  rw [hr, List.foldl_map]
  refine List.foldl_ext _ _ _ fun outputs a ha => ?_
  rw [← h a ha]
  rfl

/-- Behind the body the bytes show what the invocations have emitted. -/
theorem LowersGeometry.showsStrips {config : Config} {declared lowered : Program}
    {survey : Survey} {source : Workgroup} {before : Nat → UInt8}
    (h : LowersGeometry config program survey plan declared lowered) (hprogram : source.program = program)
    (hsource : source.TypedSource) (hstaged : plan.Staged source before view)
    (hprimitives : source.launch.primitives.size ≤ plan.config.geometry.maxInputPrimitives)
    (hstrips : ∀ p < source.launch.primitives.size, ∀ inv, source.Invokes p (.next inv) →
      EmitsStrips plan.config.geometry.maxVerticesOut inv (strips p)) :
    plan.ShowsStrips program strips source.launch view := by
  subst hprogram
  have hsound := GeometryPlan.sound_of_makePlan h.accepted h.surveyed h.planned
  obtain ⟨flags, hflags⟩ := GeometryPlan.exists_flagsRegion h.accepted h.planned h.accepted.stream
  have huse : plan.config.geometry.usesStream 0 := h.config_eq ▸ h.accepted.stream
  have hlimit : plan.config.geometry.maxVerticesOut ≤ 2 ^ 32 :=
    Nat.le_of_lt (hsound.maxVertices_lt (h.config_eq ▸ h.accepted.primitives))
  refine ⟨fun p hp m hm => ?_, fun p hp m v hv => ?_, fun p hp => ?_, fun p hp m v hv => ?_⟩
  all_goals
    obtain ⟨inv, hinv, hleaves⟩ := hstaged.leaves hsound hflags huse hprimitives hp
    have hemits := hstrips p hp inv hinv
  · rw [hleaves.flags m hm, hemits.flags hlimit]
  · have hm := Nat.lt_of_lt_of_le (List.getElem?_eq_some_iff.mp hv).1 hemits.length_le
    rw [exportedVertex, ← SlotTable.fill_congr .nil h.mem_slots]
    by_cases hne : plan.attributes = []
    · simp only [GeometryPlan.vertexAt, GeometryPlan.streamAttributes, hne, List.filter_nil, List.foldl_nil]
      split <;> rfl
    obtain ⟨region, hr⟩ :=
      GeometryPlan.exists_vertexAttributes h.accepted h.surveyed h.planned hne
    refine GeometryPlan.vertexAt_eq_fill hr fun a ha => ?_
    have htyped := Invocation.Typed.of_invokes hsource (Nat.lt_of_lt_of_le hp hsource.launch.primitives) hinv
    have hvertex : v.outputs.StoredBy source.program :=
      htyped.events 0 _ v.before v.outputs (hemits.mem_events hv)
    rw [hleaves.fields region hr m hm a ha, hemits.fields hlimit, hv]
    exact h.convert_stored hvertex (List.mem_filter.mp ha).1
  · exact hemits.length_le
  · exact hemits.before_le m v hv

/-! ## From places to vertices -/

namespace GeometryPlan.ShowsStrips

variable {launch : Launch} {p m : Nat}

variable (h : plan.ShowsStrips program strips launch view)
include h

variable (hroom : plan.placesOf launch ≤ launch.numLanes)
include hroom

theorem liveAt_eq (hp : p < launch.primitives.size) (hm : m < plan.config.geometry.maxVerticesOut) :
    plan.liveAt launch view (plan.placeOf p m) = decide (m < (strips p).length) := by
  have hplace : plan.placeOf p m < plan.placesOf launch := by
    have hle := Nat.mul_le_mul_right plan.config.geometry.maxVerticesOut hp
    rw [Nat.succ_mul] at hle
    exact Nat.lt_of_lt_of_le (Nat.add_lt_add_left hm _) hle
  rw [liveAt, decide_eq_true (Nat.lt_of_lt_of_le hplace hroom), decide_eq_true hplace, h.flags p hp m hm]
  by_cases hlt : m < (strips p).length
  · rw [List.getElem?_eq_getElem hlt, decide_eq_true hlt]
    exact isLive_flagsOf _ _
  · rw [List.getElem?_eq_none (Nat.le_of_not_lt hlt), decide_eq_false hlt]
    exact (by decide : (true && true && PrimitiveFlags.isLive ⟨0⟩) = false)

/-- The number of live places below some number of an invocation. -/
theorem countBelow_number (hp : p < launch.primitives.size) (hm : m ≤ plan.config.geometry.maxVerticesOut) :
    countBelow (fun k => plan.liveAt launch view (plan.placeOf p 0 + k)) m = min m (strips p).length := by
  induction m with
  | zero => exact (Nat.zero_min _).symm
  | succ m ih =>
    rw [countBelow_succ, ih (Nat.le_of_lt hm), show plan.placeOf p 0 + m = plan.placeOf p m from rfl,
      h.liveAt_eq hroom hp hm]
    by_cases hlt : m < (strips p).length
    · rw [decide_eq_true hlt, Bool.toNat_true]
      omega
    · rw [decide_eq_false hlt, Bool.toNat_false]
      omega

/-- Below the places of an invocation there are the vertices of those before it. -/
theorem countBelow_invocation (hp : p ≤ launch.primitives.size) :
    countBelow (plan.liveAt launch view) (plan.placeOf p 0) = (allVertices strips p).length := by
  induction p with
  | zero => simp [placeOf, allVertices, countBelow_zero]
  | succ p ih =>
    have hlength := h.length_le p hp
    have hplace : plan.placeOf (p + 1) 0 = plan.placeOf p 0 + plan.config.geometry.maxVerticesOut := by
      simp only [placeOf, Nat.succ_mul, Nat.add_zero]
    rw [hplace, countBelow_add, ih (Nat.le_of_lt hp),
      h.countBelow_number hroom hp (Nat.le_refl _), Nat.min_eq_right hlength, allVertices, allVertices,
      List.range_succ, List.flatMap_append, List.length_append, List.flatMap_singleton]

/-- A vertex comes behind those of the invocations before and those with lower numbers. -/
theorem countBelow_place (hp : p < launch.primitives.size) (hm : m ≤ (strips p).length) :
    countBelow (plan.liveAt launch view) (plan.placeOf p m) = (allVertices strips p).length + m := by
  rw [show plan.placeOf p m = plan.placeOf p 0 + m from rfl, countBelow_add,
    h.countBelow_invocation hroom (Nat.le_of_lt hp), h.countBelow_number hroom hp
    (Nat.le_trans hm (h.length_le p hp)), Nat.min_eq_left hm]

/-- The live places of the first invocations. -/
theorem filter_liveAt (hp : p ≤ launch.primitives.size) :
    (List.range (p * plan.config.geometry.maxVerticesOut)).filter (plan.liveAt launch view) =
      (List.range p).flatMap fun q => (List.range (strips q).length).map (plan.placeOf q) := by
  induction p with
  | zero => simp
  | succ p ih =>
    obtain ⟨k, hk⟩ := Nat.exists_eq_add_of_le (h.length_le p hp)
    have hlive : (List.range plan.config.geometry.maxVerticesOut).filter
        (plan.liveAt launch view ∘ plan.placeOf p) = List.range (strips p).length := by
      rw [hk, List.range_add, List.filter_append, List.filter_eq_self.mpr fun m hm => ?_,
        List.filter_eq_nil_iff.mpr fun m hm => ?_, List.append_nil]
      · obtain ⟨j, hj, rfl⟩ := List.mem_map.mp hm
        have hlt := List.mem_range.mp hj
        rw [Function.comp, h.liveAt_eq hroom hp (by omega), decide_eq_false (by omega)]
        decide
      · have hlt := List.mem_range.mp hm
        rw [Function.comp, h.liveAt_eq hroom hp (by omega), decide_eq_true hlt]
    rw [Nat.succ_mul, List.range_add, List.filter_append, ih (Nat.le_of_lt hp), List.filter_map,
      List.range_succ, List.flatMap_append, List.flatMap_singleton]
    exact congrArg _ (congrArg (List.map (plan.placeOf p)) hlive)

/-- The vertices of the live places are those of the invocations, in their order. -/
theorem map_vertexAt :
    (plan.livePlaces launch (plan.liveAt launch view)).map (fun place => plan.vertexAt view place []) =
      (allVertices strips launch.primitives.size).map fun v => exportedVertex program v.outputs := by
  rw [livePlaces, placesOf, h.filter_liveAt hroom (Nat.le_refl _), allVertices, List.map_flatMap,
    List.map_flatMap, List.flatMap_def, List.flatMap_def]
  refine congrArg _ (List.map_congr_left fun p hp => List.ext_getElem? fun m => ?_)
  rw [List.map_map, List.getElem?_map, List.getElem?_map]
  by_cases hlt : m < (strips p).length
  · rw [List.getElem?_range hlt, List.getElem?_eq_getElem hlt]
    exact congrArg some (h.vertices p (List.mem_range.mp hp) m _ (List.getElem?_eq_getElem hlt))
  · rw [List.getElem?_eq_none (by simpa using hlt), List.getElem?_eq_none (Nat.le_of_not_lt hlt)]
    rfl

end GeometryPlan.ShowsStrips

/-! ## Words -/

theorem length_vertexIndices (topology : Topology) (rank : UInt32) (odd : Bool) (provoking : ProvokingVertex) :
    (Strip.vertexIndices topology rank odd provoking).length = topology.vertexCount := by
  cases topology <;> cases odd <;> cases provoking <;> rfl

/-- A primitive has the vertex that completes it and the ones just before. -/
theorem exists_of_mem_vertexIndices (h : x ∈ Strip.vertexIndices topology rank odd provoking) :
    ∃ k < topology.vertexCount, x = rank - UInt32.ofNat k := by
  have hself : rank = rank - UInt32.ofNat 0 := (UInt32.sub_zero rank).symm
  cases topology with
  | points =>
    obtain rfl := List.mem_singleton.mp h
    exact ⟨0, by decide, hself⟩
  | lines =>
    have hmem : x ∈ [rank - 1, rank] := h
    rcases List.mem_pair.mp hmem with rfl | rfl
    · exact ⟨1, by decide, rfl⟩
    · exact ⟨0, by decide, hself⟩
  | triangles =>
    have hmem : x = rank - 2 ∨ x = rank - 1 ∨ x = rank := by
      cases odd <;> cases provoking <;> simp [Strip.vertexIndices] at h <;> tauto
    rcases hmem with rfl | rfl | rfl
    · exact ⟨2, by decide, rfl⟩
    · exact ⟨1, by decide, rfl⟩
    · exact ⟨0, by decide, hself⟩

/-- The indices of a complete primitive fit their fields. -/
theorem vertexIndices_le {rank : Nat} (hrank : rank ≤ 256) (hcomplete : topology.vertexCount - 1 ≤ rank)
    (hx : x ∈ Strip.vertexIndices topology (.ofNat rank) odd provoking) : x ≤ ExportWord.indexMask := by
  obtain ⟨k, hk, rfl⟩ := exists_of_mem_vertexIndices hx
  have hmask : ExportWord.indexMask.toNat = 1023 := rfl
  rw [UInt32.le_iff_toNat_le, hmask, UInt32.toNat_sub, UInt32.toNat_ofNat', UInt32.toNat_ofNat']
  omega

theorem pack_null (topology : Topology) : ExportWord.pack (.replicate topology.vertexCount 0) none true =
    .ok (.joined (.replicate topology.vertexCount 0) [] true) := by
  refine ExportWord.pack_eq_ok ?_ fun x hx => ?_
  · rw [List.length_replicate]
    exact VertexPlan.vertexCount_bounds topology
  · rw [List.eq_of_mem_replicate hx]
    decide

theorem wordOf_of_not_completes {flags : UInt8} (h : PrimitiveFlags.completesPrimitive ⟨flags⟩ = false) :
    plan.wordOf rank flags = .joined (.replicate plan.config.topology.vertexCount 0) [] true := by
  rw [GeometryPlan.wordOf, h, ← length_vertexIndices plan.config.topology rank
    (PrimitiveFlags.isOdd ⟨flags⟩) plan.config.provokingVertex, ← List.map_const']
  rfl

/-- Whether a vertex is odd in its strip matters for triangles only. -/
theorem vertexIndices_flagsOf (topology : Topology) (rank : UInt32) (before : UInt64) (provoking : ProvokingVertex) :
    Strip.vertexIndices topology rank (PrimitiveFlags.isOdd ⟨flagsOf topology before⟩) provoking =
      Strip.vertexIndices topology rank (before &&& 1 != 0) provoking := by
  cases topology with
  | points => rfl
  | lines => rfl
  | triangles => rw [isOdd_flagsOf]

/-- The word that is exported for a place. -/
theorem GeometryPlan.ShowsStrips.placeWord_eq {launch : Launch}
    (h : plan.ShowsStrips program strips launch view) (hsound : plan.Sound)
    (hprimitives : launch.primitives.size ≤ plan.config.geometry.maxInputPrimitives)
    (hroom : plan.placesOf launch ≤ launch.numLanes) (hplace : place < plan.placesOf launch) :
    placeWord plan.config strips place = .ok (plan.wordOf (.ofNat (countBelow (plan.liveAt launch view) place))
        (plan.flagsAt view place)) := by
  have hmax := hsound.positive
  have hp : place / plan.config.geometry.maxVerticesOut < launch.primitives.size :=
    Nat.div_lt_of_lt_mul (by rwa [Nat.mul_comm])
  have hm := Nat.mod_lt place hmax
  have heq : plan.placeOf (place / plan.config.geometry.maxVerticesOut)
      (place % plan.config.geometry.maxVerticesOut) = place := Nat.div_add_mod' _ _
  have hflags := h.flags _ hp _ hm
  rw [heq] at hflags
  simp only [placeWord, hflags]
  cases hv : (strips (place / plan.config.geometry.maxVerticesOut))[place % plan.config.geometry.maxVerticesOut]? with
  | none =>
    have hnot : PrimitiveFlags.completesPrimitive ⟨0⟩ = false := by decide
    exact (pack_null _).trans (congrArg _ (wordOf_of_not_completes hnot).symm)
  | some v =>
    have hbefore := h.before_le _ hp _ v hv
    have hrank := h.countBelow_place hroom hp (Nat.le_of_lt (List.getElem?_eq_some_iff.mp hv).1)
    rw [heq] at hrank
    have hsmall : countBelow (plan.liveAt launch view) place ≤ 256 :=
      Nat.le_trans (countBelow_le _ _) (Nat.le_trans (Nat.le_of_lt hplace)
        (Nat.le_trans (placesOf_le hprimitives) hsound.places_le))
    simp only [Option.map_some, Option.getD_some]
    by_cases hcompletes : plan.config.topology.vertexCount - 1 ≤ v.before.toNat
    · rw [if_pos hcompletes, ← hrank, ExportWord.pack_eq_ok, GeometryPlan.wordOf,
        completesPrimitive_flagsOf, decide_eq_true hcompletes, vertexIndices_flagsOf]
      · rfl
      · rw [length_vertexIndices]
        exact VertexPlan.vertexCount_bounds _
      · exact fun x hx => vertexIndices_le hsmall (by omega) hx
    · rw [if_neg hcompletes, pack_null, wordOf_of_not_completes]
      rw [completesPrimitive_flagsOf, decide_eq_false hcompletes]

end Lowering

end PrimitiveShader
