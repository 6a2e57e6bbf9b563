import PrimitiveShader.Lowering.Geometry
import PrimitiveShader.Proofs.Emission.Executable
import PrimitiveShader.Proofs.Emission.Instruction
import PrimitiveShader.Proofs.Layout
import PrimitiveShader.Proofs.Validity

/-!
# Plans of geometry programs

What is fixed before any code is emitted. The survey finds the outputs of the active streams
(`Survey.covers_of_ofProgram`), the components of a vertex are laid out without an overlap and get a
variable each (`declareAttributes_eq_ok`), and the regions have room for all places
(`GeometryPlan.sound_of_makePlan`).
-/

namespace PrimitiveShader

namespace SlotTable

variable {α : Type} {table : SlotTable α}

/-- In a table in order, the entries are what is found. -/
theorem find?_eq_some_iff (hs : table.Sorted) {slot : OutputSlot} {a : α} :
    table.find? slot = some a ↔ (slot, a) ∈ table := by
  induction table with
  | nil => simp [find?]
  | cons entry rest ih =>
    obtain ⟨hlt, hrest⟩ := List.pairwise_cons.mp hs
    rw [find?_cons, List.mem_cons]
    by_cases h : slot = entry.1
    · subst h
      simp only [↓reduceIte, Option.some.injEq]
      constructor
      · rintro rfl
        exact .inl rfl
      · rintro (heq | hmem)
        · rw [← heq]
        · exact absurd (hlt _ hmem) (Nat.lt_irrefl _)
    · simp only [h, ↓reduceIte, ih hrest]
      exact ⟨.inr, fun hor => hor.resolve_left fun heq => h (congrArg Prod.fst heq)⟩

theorem nodup_slots (hs : table.Sorted) : (table.map (·.1)).Nodup :=
  List.pairwise_map.mpr (hs.imp fun {a b} hlt heq => by
    rw [heq] at hlt
    exact Nat.lt_irrefl _ hlt)

theorem find?_filter (table : SlotTable α) (keep : OutputSlot → Bool) (slot : OutputSlot) :
    find? (table.filter fun entry => keep entry.1) slot =
      if keep slot then table.find? slot else none := by
  induction table with
  | nil => simp [find?]
  | cons entry rest ih =>
    by_cases hk : keep entry.1 = true
    · rw [List.filter_cons, if_pos hk, find?_cons, find?_cons, ih]
      by_cases h : slot = entry.1
      · simp [h, hk]
      · simp [h]
    · rw [List.filter_cons, if_neg hk, find?_cons, ih]
      by_cases h : slot = entry.1
      · simp [h, hk]
      · simp [h]

theorem Sorted.filter (hs : table.Sorted) (keep : OutputSlot × α → Bool) : Sorted (table.filter keep) :=
  List.Pairwise.filter keep hs

end SlotTable

namespace Lowering

/-! ## The survey -/

/-- The types that outputs are staged at. -/
def isStaged : ScalarType → Bool
  | .u16 | .u32 | .u64 => true
  | _ => false

theorem isStaged_stagedType (type : ScalarType) : isStaged (stagedType type) := by
  cases type <;> decide

theorem bits_le_stagedType (type : ScalarType) : type.bits ≤ (stagedType type).bits := by
  cases type <;> decide

variable {config : Config} {lowered : Lowered} {report : LoweringReport} {program : Program} {type : ScalarType}
  {survey : Survey}

theorem isInt_of_isStaged (h : isStaged type) : type.isInt := by
  cases type <;> first | rfl | cases h

theorem bytes_pos_of_isStaged (h : isStaged type) : 0 < type.bytes := by
  cases type <;> first | decide | cases h

/-- What is known of a survey that has seen some instructions. -/
structure Survey.Covers (program : Program) (limits : GeometryLimits) (seen : List Instr)
    (survey : Survey) : Prop where
  sorted : survey.types.Sorted
  used : ∀ slot type, survey.types.find? slot = some type →
    limits.usesStream slot.stream ∧ isStaged type
  stored : ∀ slot value, .intrinsic (.storeOutput slot value) ∈ seen →
    limits.usesStream slot.stream → ∃ type σ, survey.types.find? slot = some type ∧
      program.typeOf value = .ok σ ∧ σ.bits ≤ type.bits
  only : ∀ slot type, survey.types.find? slot = some type →
    ∃ value, .intrinsic (.storeOutput slot value) ∈ seen

namespace Survey.Covers

variable {limits : GeometryLimits} {seen : List Instr}

theorem empty (program : Program) (limits : GeometryLimits) : Covers program limits [] {} where
  sorted := .nil
  used := nofun
  stored := nofun
  only := nofun

variable {instr : Instr} {survey' : Survey}

variable (h : Covers program limits seen survey)
include h

theorem ignore (htypes : survey'.types = survey.types)
    (hi : ∀ slot value, instr = .intrinsic (.storeOutput slot value) → limits.usesStream slot.stream = false) :
    Covers program limits (seen ++ [instr]) survey' where
  sorted := htypes ▸ h.sorted
  used slot type hfind := h.used slot type (htypes ▸ hfind)
  stored slot value hmem huse := by
    rw [htypes]
    rcases List.mem_append.mp hmem with hmem | hmem
    · exact h.stored slot value hmem huse
    · rw [hi slot value (List.mem_singleton.mp hmem).symm] at huse
      cases huse
  only slot type hfind := by
    obtain ⟨value, hmem⟩ := h.only slot type (htypes ▸ hfind)
    exact ⟨value, List.mem_append_left _ hmem⟩

/-- The survey takes note of a stored output. -/
theorem note {slot : OutputSlot} {value : Value}
    {σ : ScalarType} (hσ : program.typeOf value = .ok σ) (huse : limits.usesStream slot.stream) :
    Covers program limits (seen ++ [.intrinsic (.storeOutput slot value)])
      { survey with types := survey.types.update slot (widen (stagedType σ)) } := by
  have hself := SlotTable.find?_update_self h.sorted slot (widen (stagedType σ))
  have hother {s : OutputSlot} (hne : s ≠ slot) :=
    SlotTable.find?_update_of_ne survey.types (widen (stagedType σ)) hne
  -- Widening keeps both what is noted already and what is new.
  have hwiden : ∀ present, survey.types.find? slot = present →
      isStaged (widen (stagedType σ) present) ∧ σ.bits ≤ (widen (stagedType σ) present).bits ∧
        ∀ type, present = some type → type.bits ≤ (widen (stagedType σ) present).bits := by
    intro present hpresent
    have hstaged := isStaged_stagedType σ
    have hbits := bits_le_stagedType σ
    cases present with
    | none => exact ⟨hstaged, hbits, nofun⟩
    | some type =>
      by_cases hlt : type.bits < (stagedType σ).bits
      · simp only [widen, hlt, ↓reduceIte, Option.some.injEq]
        exact ⟨hstaged, hbits, fun _ heq => heq ▸ Nat.le_of_lt hlt⟩
      · simp only [widen, hlt, ↓reduceIte, Option.some.injEq]
        exact ⟨(h.used slot type hpresent).2, by omega, fun _ heq => Nat.le_of_eq (heq ▸ rfl)⟩
  obtain ⟨hstaged, hbits, hkeeps⟩ := hwiden _ rfl
  refine ⟨SlotTable.sorted_update h.sorted _ _, fun s type hfind => ?_, fun s v hmem hs => ?_, fun s type hfind => ?_⟩
  · by_cases heq : s = slot
    · subst heq
      rw [hself] at hfind
      cases hfind
      exact ⟨huse, hstaged⟩
    · rw [hother heq] at hfind
      exact h.used s type hfind
  · rcases List.mem_append.mp hmem with hmem | hmem
    · obtain ⟨type, τ, hfind, hτ, hle⟩ := h.stored s v hmem hs
      by_cases heq : s = slot
      · subst heq
        exact ⟨_, τ, hself, hτ, Nat.le_trans hle (hkeeps type hfind)⟩
      · exact ⟨type, τ, (hother heq).trans hfind, hτ, hle⟩
    · cases List.mem_singleton.mp hmem
      exact ⟨_, σ, hself, hσ, hbits⟩
  · by_cases heq : s = slot
    · subst heq
      exact ⟨value, List.mem_append_right _ List.mem_cons_self⟩
    · rw [hother heq] at hfind
      obtain ⟨v, hmem⟩ := h.only s type hfind
      exact ⟨v, List.mem_append_left _ hmem⟩

theorem add (hadd : survey.add program limits instr = .ok survey') :
    Covers program limits (seen ++ [instr]) survey' := by
  unfold Survey.add at hadd
  split at hadd
  · rename_i slot value
    split at hadd
    · rename_i huse
      obtain ⟨σ, hσ, hadd⟩ := except_bind_eq_ok.mp hadd
      cases hadd
      exact h.note hσ huse
    · rename_i huse
      cases hadd
      refine h.ignore rfl fun s v heq => ?_
      cases heq
      simpa using huse
  · split at hadd <;> cases hadd <;> exact h.ignore rfl nofun
  · split at hadd
    · obtain ⟨i, -, hadd⟩ := except_bind_eq_ok.mp hadd
      cases hadd
      exact h.ignore rfl nofun
    · cases hadd
      exact h.ignore rfl nofun
  · rename_i hother _ _
    cases hadd
    exact h.ignore rfl fun slot value heq => absurd heq (hother slot value)

theorem foldlM {pairs : List (Value × Instr)}
    (hfold : pairs.foldlM (fun survey (_, instr) => survey.add program limits instr) survey = .ok survey') :
    Covers program limits (seen ++ pairs.map (·.2)) survey' := by
  induction pairs generalizing seen survey with
  | nil =>
    cases hfold
    simpa using h
  | cons pair rest ih =>
    rw [List.foldlM_cons] at hfold
    obtain ⟨survey₁, hadd, hfold⟩ := except_bind_eq_ok.mp hfold
    simpa using ih (h.add hadd) hfold

end Survey.Covers

/-- Whether the body stores an output. -/
def StoresOutput (program : Program) (slot : OutputSlot) (value : Value) : Prop :=
  ∃ v ∈ Block.values program.body, program.instr v = .ok (.intrinsic (.storeOutput slot value))

/-- The survey finds all outputs of the active streams, and nothing else. -/
theorem Survey.covers_of_ofProgram {limits : GeometryLimits} (h : ofProgram program limits = .ok survey) :
    survey.types.Sorted ∧ (∀ slot type, survey.types.find? slot = some type →
        limits.usesStream slot.stream ∧ isStaged type ∧ ∃ value, StoresOutput program slot value) ∧
      ∀ slot value, StoresOutput program slot value → limits.usesStream slot.stream →
        ∃ type σ, survey.types.find? slot = some type ∧ program.typeOf value = .ok σ ∧ σ.bits ≤ type.bits := by
  obtain ⟨pairs, hpairs, hfold⟩ := except_bind_eq_ok.mp h
  have hcovers := (Covers.empty program limits).foldlM hfold
  have hmem : ∀ instr, instr ∈ [] ++ pairs.map (·.2) ↔
      ∃ v ∈ Block.values program.body, program.instr v = .ok instr := by
    intro instr
    rw [List.nil_append, List.mem_map]
    constructor
    · rintro ⟨⟨v, i⟩, hmem, rfl⟩
      obtain ⟨hv, hi⟩ := (Program.mem_mapM_instr hpairs).mp hmem
      exact ⟨v, hv, hi⟩
    · rintro ⟨v, hv, hi⟩
      exact ⟨(v, instr), (Program.mem_mapM_instr hpairs).mpr ⟨hv, hi⟩, rfl⟩
  refine ⟨hcovers.sorted, fun slot type hfind => ?_, fun slot value hstores =>
    hcovers.stored slot value ((hmem _).mpr hstores)⟩
  obtain ⟨value, hvalue⟩ := hcovers.only slot type hfind
  obtain ⟨huse, hstaged⟩ := hcovers.used slot type hfind
  exact ⟨huse, hstaged, value, (hmem _).mp hvalue⟩

/-! ## The components of a vertex -/

/-- Components with variables of their own, one behind the other from byte `size` on. -/
structure Declares (p : Program) (types : SlotTable ScalarType) (size : Nat)
    (attributes : List Attribute) (stop : Nat) (p' : Program) : Prop where
  body : p'.body = p.body
  slots : attributes.map (fun a => (a.slot, a.type)) = types
  vars : ∀ a ∈ attributes, p.vars.size ≤ a.var.index ∧ p'.varType? a.var = some a.type
  distinct : attributes.Pairwise fun a b => a.var.index ≠ b.var.index
  fields : ∀ a ∈ attributes, size ≤ a.offset ∧ a.offset + a.type.bytes ≤ stop
  apart : attributes.Pairwise fun a b => a.offset + a.type.bytes ≤ b.offset
  size_le : size ≤ stop

theorem declareAttributes_eq_ok {types : SlotTable ScalarType} (hpos : ∀ entry ∈ types, 0 < entry.2.bytes) :
    ∀ {p p' : Program} {size stop : Nat} {attributes : List Attribute},
      declareAttributes types size p = .ok ((attributes, stop), p') → Declares p types size attributes stop p' := by
  induction types with
  | nil =>
    intro p p' size stop attributes h
    cases h
    exact ⟨rfl, rfl, nofun, .nil, nofun, .nil, Nat.le_refl _⟩
  | cons entry rest ih =>
    intro p p' size stop attributes h
    obtain ⟨slot, type⟩ := entry
    obtain ⟨offset, hoffset, h⟩ := Emit.lift_bind_eq_ok_iff.mp h
    obtain ⟨-, rfl⟩ := fits32_eq_ok_iff.mp hoffset
    obtain ⟨size₁, hsize, h⟩ := Emit.lift_bind_eq_ok_iff.mp h
    obtain ⟨-, rfl⟩ := fits32_eq_ok_iff.mp hsize
    obtain ⟨var, p₁, hvar, h⟩ := Emit.bind_eq_ok_iff.mp h
    obtain ⟨⟨others, stop'⟩, p₂, hothers, h⟩ := Emit.bind_eq_ok_iff.mp h
    cases h
    have hrest := ih (fun e he => hpos e (List.mem_cons_of_mem _ he)) hothers
    have hnew : var.index = p.vars.size ∧ p₁.vars.size = p.vars.size + 1 ∧
        p₁.varType? var = some type ∧ p₁.body = p.body := by
      cases hvar
      exact ⟨rfl, by simp, by simp [Program.varType?, Program.var?], rfl⟩
    obtain ⟨hindex, hcount, htype, hbody⟩ := hnew
    have hle := @le_alignUp size type.bytes (hpos _ List.mem_cons_self)
    have hstop := hrest.size_le
    refine ⟨hrest.body.trans hbody, ?_, fun a ha => ?_, ?_, fun a ha => ?_, ?_, ?_⟩
    · rw [List.map_cons, hrest.slots]
    · rcases List.mem_cons.mp ha with rfl | ha
      · exact ⟨Nat.le_of_eq hindex.symm, (Emit.grows _ hothers).varType?_eq htype⟩
      · obtain ⟨hlt, hdeclared⟩ := hrest.vars a ha
        exact ⟨by omega, hdeclared⟩
    · refine List.pairwise_cons.mpr ⟨fun a ha => ?_, hrest.distinct⟩
      have := (hrest.vars a ha).1
      change var.index ≠ a.var.index
      omega
    · rcases List.mem_cons.mp ha with rfl | ha
      · exact ⟨hle, hstop⟩
      · obtain ⟨hfirst, hlast⟩ := hrest.fields a ha
        exact ⟨by omega, hlast⟩
    · exact List.pairwise_cons.mpr ⟨fun a ha => (hrest.fields a ha).1, hrest.apart⟩
    · omega

/-! ## The regions -/

/-- What a configuration of geometry programs has been checked for. -/
structure GeometryConfig (config : Config) : Prop where
  accepted : config.validate = .ok ()
  vertices : 1 ≤ config.geometry.maxVerticesOut
  primitives : 1 ≤ config.geometry.maxInputPrimitives
  stream : config.geometry.usesStream 0
  streams : config.geometry.activeStreams >>> 4 = 0
  limit : config.geometry.maxInputPrimitives * config.geometry.maxVerticesOut ≤
    min Hardware.maxOutputVertices config.maxWorkgroupSize

theorem validateGeometry_eq_ok_iff : config.validateGeometry = .ok () ↔ GeometryConfig config := by
  have hfirst : config.geometry.usesStream 0 ↔ config.geometry.activeStreams &&& 1 ≠ 0 := by
    simp [GeometryLimits.usesStream]
  simp only [Config.validateGeometry, except_seq_eq_ok, guard_eq_ok, guard_end_eq_ok]
  constructor
  · rintro ⟨haccepted, hvertices, ⟨hstream, hstreams⟩, hprimitives, hlimit⟩
    exact ⟨haccepted, hvertices, hprimitives, hfirst.mpr hstream, hstreams, hlimit⟩
  · intro h
    exact ⟨h.accepted, h.vertices, ⟨hfirst.mp h.stream, h.streams⟩, h.primitives, h.limit⟩

/-- No configuration asks for more than eight waves. -/
theorem GeometryConfig.maxWaves_le (h : GeometryConfig config) : config.maxWaves ≤ 8 :=
  (Config.validate_eq_ok_iff.mp h.accepted).2.1

theorem nodup_geometryRequests (config : Config) (compacts : Bool) (candidates stride : Nat) :
    ((geometryRequests config compacts candidates stride).map (·.role)).Nodup := by
  have hstreams : ((config.geometry.streams.map (.primitiveFlags · candidates)).map
      LayoutRequest.role).Sublist [4, 5, 6, 7] := by
    rw [List.map_map]
    exact List.filter_sublist.map (fun stream : UInt8 => 4 + stream.toNat)
  have hscratch (c : Prop) [Decidable c] (request : LayoutRequest) :
      ((if c then [request] else []).map LayoutRequest.role).Sublist [request.role] := by
    split
    · exact List.Sublist.refl _
    · exact List.nil_sublist _
  have hall : ((geometryRequests config compacts candidates stride).map (·.role)).Sublist [0, 1, 4, 5, 6, 7, 2] := by
    unfold geometryRequests
    rw [List.map_append, List.map_append, List.map_append]
    exact (((hscratch _ _).append (List.Sublist.refl [1])).append hstreams).append (hscratch _ _)
  exact hall.nodup (by decide)

theorem mem_geometryRequests {compacts : Bool} {candidates stride : Nat} {request : LayoutRequest} :
    request ∈ geometryRequests config compacts candidates stride ↔
      (request = .waveCounts config.maxWaves ∧ compacts = true ∧ 1 < config.maxWaves) ∨
      request = .vertexAttributes candidates stride ∨
      (∃ stream ∈ config.geometry.streams, request = .primitiveFlags stream candidates) ∨
      (request = .compactionIndex candidates ∧ compacts = true) := by
  have hite (c : Prop) [Decidable c] (r : LayoutRequest) : request ∈ (if c then [r] else []) ↔ request = r ∧ c := by
    split <;> simp [*]
  have hflags : request ∈ config.geometry.streams.map (.primitiveFlags · candidates) ↔
      ∃ stream ∈ config.geometry.streams, request = .primitiveFlags stream candidates := by
    simp only [List.mem_map, eq_comm]
  simp only [geometryRequests, List.mem_append, hite, List.mem_singleton, hflags, Bool.and_eq_true,
    decide_eq_true_eq, or_assoc]

namespace GeometryPlan

/-- The number of places for staged vertices. -/
def places (plan : GeometryPlan) : Nat :=
  plan.config.geometry.maxInputPrimitives * plan.config.geometry.maxVerticesOut

/-- The plan has room for every place, and nothing overlaps. -/
structure Sound (plan : GeometryPlan) : Prop where
  positive : 1 ≤ plan.config.geometry.maxVerticesOut
  places_le : plan.places ≤ 256
  regions : plan.layout.Sound
  small : plan.layout.size < 2 ^ 32
  room : ∀ region, plan.layout.vertexAttributes = some region →
    region.size = plan.places * plan.stride
  flags : ∀ stream region, plan.flagsRegion stream = .ok region → region.size = plan.places
  used : ∀ a ∈ plan.attributes, plan.config.geometry.usesStream a.slot.stream
  staged : ∀ a ∈ plan.attributes, isStaged a.type
  slots : (plan.attributes.map (·.slot)).Nodup
  fields : ∀ a ∈ plan.attributes, a.offset + a.type.bytes ≤ plan.stride
  apart : plan.attributes.Pairwise fun a b => a.offset + a.type.bytes ≤ b.offset

/-- The regions that a compaction uses. -/
structure Compacts (plan : GeometryPlan) : Prop where
  index : ∃ region, plan.layout.compactionIndex = some region ∧ region.size = plan.places
  scratch : ∀ region, plan.layout.waveCounts = some region →
    (region.size = 4 ∨ region.size = 8) ∧ plan.config.maxWaves ≤ region.size
  single : plan.layout.waveCounts = none → plan.config.maxWaves ≤ 1

/-- The variables of the components come behind those of the source. -/
structure Keeps (plan : GeometryPlan) (source declared : Program) : Prop where
  grows : source.Grows declared
  body : declared.body = source.body
  vars : ∀ a ∈ plan.attributes,
    source.vars.size ≤ a.var.index ∧ declared.varType? a.var = some a.type
  distinct : plan.attributes.Pairwise fun a b => a.var.index ≠ b.var.index

theorem makePlan_eq_ok {program : Program} (h : makePlan config survey program = .ok (plan, declared)) :
    plan.config = config ∧ ∃ size, declareAttributes survey.types 0 program =
        .ok ((plan.attributes, size), declared) ∧ plan.stride = alignUp size 4 ∧
      SharedLayout.ofRequests (geometryRequests config (survey.needsCompaction config.geometry)
        (config.geometry.maxInputPrimitives * config.geometry.maxVerticesOut) plan.stride) = .ok plan.layout := by
  obtain ⟨⟨attributes, size⟩, p₁, hattributes, h⟩ := Emit.bind_eq_ok_iff.mp h
  obtain ⟨stride, hstride, h⟩ := Emit.lift_bind_eq_ok_iff.mp h
  obtain ⟨-, rfl⟩ := fits32_eq_ok_iff.mp hstride
  obtain ⟨candidates, hcandidates, h⟩ := Emit.lift_bind_eq_ok_iff.mp h
  obtain ⟨-, rfl⟩ := fits32_eq_ok_iff.mp hcandidates
  obtain ⟨layout, hlayout, h⟩ := Emit.lift_bind_eq_ok_iff.mp h
  cases h
  exact ⟨rfl, size, hattributes, rfl, hlayout⟩

variable {declared : Program} {plan : GeometryPlan} {limits : GeometryLimits} {stream : UInt8}

/-- The flags of a stream have a region in the role of that stream. -/
theorem flagsRegion_eq_ok {region : Region} (h : plan.flagsRegion stream = .ok region) :
    plan.layout.slot (4 + stream.toNat) = some region := by
  unfold flagsRegion at h
  rw [Nat.add_comm]
  change plan.layout.primitiveFlags[stream.toNat]?.join = some region
  split at h
  · rename_i r hr
    cases h
    rw [hr]
    rfl
  · cases h

theorem keeps_of_makePlan (hsurvey : Survey.ofProgram program config.geometry = .ok survey)
    (h : makePlan config survey program = .ok (plan, declared)) : plan.Keeps program declared := by
  obtain ⟨hsorted, hused, -⟩ := Survey.covers_of_ofProgram hsurvey
  obtain ⟨-, size, hattributes, -, -⟩ := makePlan_eq_ok h
  have hdeclares := declareAttributes_eq_ok (fun entry hentry => bytes_pos_of_isStaged
    (hused _ _ ((SlotTable.find?_eq_some_iff hsorted).mpr hentry)).2.1) hattributes
  exact ⟨Emit.grows _ hattributes, hdeclares.body, hdeclares.vars, hdeclares.distinct⟩

/-- The regions have room for all places. -/
theorem sound_of_makePlan (hconfig : GeometryConfig config)
    (hsurvey : Survey.ofProgram program config.geometry = .ok survey)
    (h : makePlan config survey program = .ok (plan, declared)) : plan.Sound := by
  obtain ⟨hsorted, hused, -⟩ := Survey.covers_of_ofProgram hsurvey
  obtain ⟨rfl, size, hattributes, hstride, hlayout⟩ := makePlan_eq_ok h
  have hentry : ∀ a ∈ plan.attributes, (a.slot, a.type) ∈ survey.types →
      plan.config.geometry.usesStream a.slot.stream ∧ isStaged a.type := fun a _ ha =>
    ⟨(hused _ _ ((SlotTable.find?_eq_some_iff hsorted).mpr ha)).1,
      (hused _ _ ((SlotTable.find?_eq_some_iff hsorted).mpr ha)).2.1⟩
  have hdeclares := declareAttributes_eq_ok (fun entry hentry => bytes_pos_of_isStaged
    (hused _ _ ((SlotTable.find?_eq_some_iff hsorted).mpr hentry)).2.1) hattributes
  have hmem : ∀ a ∈ plan.attributes, (a.slot, a.type) ∈ survey.types := fun a ha => by
    rw [← hdeclares.slots]
    exact List.mem_map.mpr ⟨a, ha, rfl⟩
  have hnodup := nodup_geometryRequests plan.config (survey.needsCompaction plan.config.geometry)
    plan.places plan.stride
  obtain ⟨hsound, hsmall⟩ := SharedLayout.sound_of_ofRequests hlayout
  have hlimit := hconfig.limit
  refine ⟨hconfig.vertices, ?_, hsound, hsmall, fun region hr => ?_, fun stream region hr => ?_,
    fun a ha => (hentry a ha (hmem a ha)).1, fun a ha => (hentry a ha (hmem a ha)).2, ?_,
    fun a ha => ?_, hdeclares.apart⟩
  · exact Nat.le_trans hlimit (Nat.min_le_left _ _)
  · exact SharedLayout.size_of_ofRequests hlayout hnodup
      (.vertexAttributes plan.places plan.stride) (mem_geometryRequests.mpr (.inr (.inl rfl))) hr
  · have hslot := flagsRegion_eq_ok hr
    by_cases hstream : stream ∈ plan.config.geometry.streams
    · exact SharedLayout.size_of_ofRequests hlayout hnodup (.primitiveFlags stream plan.places)
        (mem_geometryRequests.mpr (.inr (.inr (.inl ⟨stream, hstream, rfl⟩)))) hslot
    · have hnone : plan.layout.slot (4 + stream.toNat) = none := by
        refine SharedLayout.slot_of_ofRequests_of_ne hlayout fun r hmem hrole => hstream ?_
        rcases mem_geometryRequests.mp hmem with ⟨rfl, -⟩ | rfl | ⟨s, hs, rfl⟩ | ⟨rfl, -⟩ <;>
          simp only [LayoutRequest.role] at hrole
        · omega
        · omega
        · obtain rfl : s = stream := UInt8.toNat_inj.mp (by omega)
          exact hs
        · omega
      cases hslot.symm.trans hnone
  · have := SlotTable.nodup_slots hsorted
    rw [← hdeclares.slots, List.map_map] at this
    exact this
  · have := (hdeclares.fields a ha).2
    have := @le_alignUp size 4 (by decide)
    omega

theorem compacts_of_makePlan (hconfig : GeometryConfig config)
    (h : makePlan config survey program = .ok (plan, declared))
    (hcompacts : survey.needsCompaction config.geometry = true) : plan.Compacts := by
  obtain ⟨rfl, size, -, -, hlayout⟩ := makePlan_eq_ok h
  rw [hcompacts] at hlayout
  have hnodup := nodup_geometryRequests plan.config true plan.places plan.stride
  have hplaces : plan.places ≠ 0 :=
    Nat.ne_of_gt (Nat.mul_pos hconfig.primitives hconfig.vertices)
  have hwaves := hconfig.maxWaves_le
  refine ⟨?_, fun region hr => ?_, fun hnone => ?_⟩
  · have hmem : .compactionIndex plan.places ∈ geometryRequests plan.config true plan.places plan.stride :=
      mem_geometryRequests.mpr (.inr (.inr (.inr ⟨rfl, rfl⟩)))
    exact (SharedLayout.slot_of_ofRequests hlayout hnodup hmem).2 hplaces
  · by_cases hmany : 1 < plan.config.maxWaves
    · have hsize := SharedLayout.size_of_ofRequests hlayout hnodup (.waveCounts plan.config.maxWaves)
        (mem_geometryRequests.mpr (.inl ⟨rfl, rfl, hmany⟩)) hr
      simp only [LayoutRequest.size] at hsize
      split at hsize <;> omega
    · have hempty : plan.layout.slot 0 = none := by
        refine SharedLayout.slot_of_ofRequests_of_ne hlayout fun r hmem hrole => ?_
        rcases mem_geometryRequests.mp hmem with ⟨rfl, -, hlt⟩ | rfl | ⟨s, hs, rfl⟩ | ⟨rfl, -⟩ <;>
          simp only [LayoutRequest.role] at hrole
        · exact hmany hlt
        all_goals omega
      cases hr.symm.trans hempty
  · refine Nat.le_of_not_lt fun hmany => ?_
    have hmem : .waveCounts plan.config.maxWaves ∈ geometryRequests plan.config true plan.places plan.stride :=
      mem_geometryRequests.mpr (.inl ⟨rfl, rfl, hmany⟩)
    have hsize : (LayoutRequest.waveCounts plan.config.maxWaves).size ≠ 0 := by
      simp only [LayoutRequest.size]
      split <;> decide
    obtain ⟨region, hregion, -⟩ := (SharedLayout.slot_of_ofRequests hlayout hnodup hmem).2 hsize
    cases hnone.symm.trans hregion

theorem lt_of_usesStream (h : limits.usesStream stream) : stream.toNat < 4 := by
  unfold GeometryLimits.usesStream at h
  exact UInt8.lt_iff_toNat_lt.mp (by simpa using (Bool.and_eq_true_iff.mp h).1)

theorem mem_streams (h : limits.usesStream stream) : stream ∈ limits.streams := by
  refine List.mem_filter.mpr ⟨?_, h⟩
  have hlt := lt_of_usesStream h
  have hcases : stream.toNat = 0 ∨ stream.toNat = 1 ∨ stream.toNat = 2 ∨ stream.toNat = 3 := by omega
  simpa [← UInt8.toNat_inj] using hcases

/-- The flags of a stream in use have their region. -/
theorem exists_flagsRegion
    (hconfig : GeometryConfig config) (h : makePlan config survey program = .ok (plan, declared))
    (huse : config.geometry.usesStream stream) :
    ∃ region, plan.flagsRegion stream = .ok region := by
  obtain ⟨rfl, size, -, -, hlayout⟩ := makePlan_eq_ok h
  have hnodup := nodup_geometryRequests plan.config (survey.needsCompaction plan.config.geometry)
    plan.places plan.stride
  have hplaces : plan.places ≠ 0 :=
    Nat.ne_of_gt (Nat.mul_pos hconfig.primitives hconfig.vertices)
  have hmem : .primitiveFlags stream plan.places ∈ geometryRequests plan.config
      (survey.needsCompaction plan.config.geometry) plan.places plan.stride :=
    mem_geometryRequests.mpr (.inr (.inr (.inl ⟨stream, mem_streams huse, rfl⟩)))
  obtain ⟨region, hregion, -⟩ := (SharedLayout.slot_of_ofRequests hlayout hnodup hmem).2 hplaces
  refine ⟨region, ?_⟩
  unfold flagsRegion
  rw [LayoutRequest.role, Nat.add_comm] at hregion
  change plan.layout.primitiveFlags[stream.toNat]?.join = some region at hregion
  rw [Option.join_eq_some_iff.mp hregion]

/-- Vertices with components have their region. -/
theorem exists_vertexAttributes (hconfig : GeometryConfig config)
    (hsurvey : Survey.ofProgram program config.geometry = .ok survey)
    (h : makePlan config survey program = .ok (plan, declared)) (hne : plan.attributes ≠ []) :
    ∃ region, plan.layout.vertexAttributes = some region := by
  have hsound := sound_of_makePlan hconfig hsurvey h
  obtain ⟨rfl, size, -, -, hlayout⟩ := makePlan_eq_ok h
  obtain ⟨a, ha⟩ := List.exists_mem_of_ne_nil _ hne
  have hstride : 0 < plan.stride := by
    have hfield := hsound.fields a ha
    have hpos := bytes_pos_of_isStaged (hsound.staged a ha)
    omega
  have hnodup := nodup_geometryRequests plan.config (survey.needsCompaction plan.config.geometry)
    plan.places plan.stride
  have hplaces : 0 < plan.places := Nat.mul_pos hconfig.primitives hconfig.vertices
  have hmem : .vertexAttributes plan.places plan.stride ∈ geometryRequests plan.config
      (survey.needsCompaction plan.config.geometry) plan.places plan.stride :=
    mem_geometryRequests.mpr (.inr (.inl rfl))
  obtain ⟨region, hregion, -⟩ := (SharedLayout.slot_of_ofRequests hlayout hnodup hmem).2
    (Nat.ne_of_gt (Nat.mul_pos hplaces hstride))
  exact ⟨region, hregion⟩

end GeometryPlan

/-! ## The lowering -/

/-- A geometry program is accepted and rewritten. -/
structure LowersGeometry (config : Config) (program : Program) (survey : Survey)
    (plan : GeometryPlan) (declared lowered : Program) : Prop where
  accepted : GeometryConfig config
  stage : program.stage = .geometry
  valid : program.validate = .ok ()
  surveyed : Survey.ofProgram program config.geometry = .ok survey
  counted : survey.isCounted 0
  planned : makePlan config survey program = .ok (plan, declared)
  emits : ∃ emitted, plan.wholeProgram (survey.needsCompaction config.geometry) program.body
      { declared with body := [] } = .ok ((), emitted) ∧
    lowered = { emitted with sharedSize := plan.layout.size }

theorem LowersGeometry.config_eq {declared lowered : Program}
    {plan : GeometryPlan} (h : LowersGeometry config program survey plan declared lowered) : plan.config = config :=
  (GeometryPlan.makePlan_eq_ok h.planned).1

theorem checkGeometry_eq_ok_iff : checkGeometry config program = .ok () ↔
      GeometryConfig config ∧ program.stage = .geometry ∧ program.validate = .ok () := by
  simp only [checkGeometry, except_seq_eq_ok, guard_eq_ok, mapError_eq_ok, validateGeometry_eq_ok_iff]

variable (h : lowerGeometry config program = .ok lowered)
include h

/-- A lowering that comes to an end leaves the program alone or rewrites and checks it. -/
theorem lowerGeometry_cases :
    (∃ error, lowered = .rejected program error) ∨ ∃ survey plan declared rewritten report log,
        LowersGeometry config program survey plan declared rewritten ∧
          report.compaction = survey.needsCompaction config.geometry ∧ lowered = .checked rewritten report log := by
  unfold lowerGeometry at h
  cases hc : checkGeometry config program with
  | error e =>
    simp only [hc, Except.ok.injEq] at h
    exact .inl ⟨e, h.symm⟩
  | ok u =>
    obtain ⟨hconfig, hstage, hvalid⟩ := checkGeometry_eq_ok_iff.mp hc
    simp only [hc] at h
    obtain ⟨survey, hsurvey, h⟩ := except_bind_eq_ok.mp h
    split at h
    · rename_i hcounted
      obtain ⟨⟨plan, declared⟩, hplan, h⟩ := except_bind_eq_ok.mp h
      obtain ⟨log, -, h⟩ := except_bind_eq_ok.mp h
      obtain ⟨emitted, hemits, h⟩ := except_bind_eq_ok.mp h
      cases h
      exact .inr ⟨survey, plan, declared, _, _, log, ⟨hconfig, hstage, hvalid, hsurvey, hcounted, hplan, emitted,
        Emit.finish_eq_ok_iff.mp hemits, rfl⟩, rfl, rfl⟩
    · cases h
      exact .inl ⟨_, rfl⟩

theorem lowerGeometry_eq_ok (hok : lowered.outcome = .ok report) :
    ∃ survey plan declared, LowersGeometry config program survey plan declared lowered.program ∧
      report.compaction = survey.needsCompaction config.geometry := by
  rcases lowerGeometry_cases h with ⟨error, rfl⟩ | ⟨survey, plan, declared, _, _, _, hlowers, hreport, rfl⟩
  · cases hok
  · obtain ⟨-, rfl⟩ := Lowered.checked_outcome_eq_ok_iff.mp hok
    exact ⟨survey, plan, declared, hlowers, hreport⟩

/-- A lowering that reports success leaves a valid program. -/
theorem validate_of_lowerGeometry (hok : lowered.outcome = .ok report) : lowered.program.validate = .ok () := by
  rcases lowerGeometry_cases h with ⟨error, rfl⟩ | ⟨_, _, _, rewritten, _, _, -, -, rfl⟩
  · cases hok
  · exact (Lowered.checked_outcome_eq_ok_iff.mp hok).1

end Lowering

end PrimitiveShader
