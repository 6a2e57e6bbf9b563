import PrimitiveShader.Proofs.Lowering.Geometry.Body
import PrimitiveShader.Proofs.Typing.Lanes
import PrimitiveShader.Proofs.Validity.Sites

/-!
# Outputs of invocations

An invocation of a program whose constants fit their types stores outputs that fit the types of the stored
values (`Invocation.Typed.of_invokes`). No bit of them is lost when they are staged at the types that the survey
has found.
-/

namespace PrimitiveShader

variable {value : Value} {instr : Instr}

open ScalarType Lowering

namespace SlotTable
variable {α : Type} {table : SlotTable α}

/-- Tables in order are the same if the same is found in them. -/
theorem eq_of_find?_eq {table' : SlotTable α} (hs : table.Sorted) (hs' : table'.Sorted)
    (h : ∀ slot, table.find? slot = table'.find? slot) : table = table' := by
  have hnodup {t : SlotTable α} (ht : t.Sorted) : t.Nodup := (nodup_slots ht).of_map _
  have hperm : table.Perm table' := by
    refine (List.perm_ext_iff_of_nodup (hnodup hs) (hnodup hs')).mpr fun ⟨slot, a⟩ => ?_
    rw [← find?_eq_some_iff hs, ← find?_eq_some_iff hs', h]
  exact hperm.eq_of_pairwise (fun a b _ _ hab hba => absurd hab (Nat.lt_asymm hba)) hs hs'

/-- Sets the entries of some slots. -/
def fill (table : SlotTable α) (g : OutputSlot → α) (slots : List OutputSlot) : SlotTable α :=
  slots.foldl (fun table slot => table.insert slot (g slot)) table

theorem sorted_fill (hs : table.Sorted) (g : OutputSlot → α)
    (slots : List OutputSlot) : (table.fill g slots).Sorted := by
  induction slots generalizing table with
  | nil => exact hs
  | cons slot rest ih => exact ih (sorted_update hs slot _)

theorem find?_fill (hs : table.Sorted) (g : OutputSlot → α) (slots : List OutputSlot) (s : OutputSlot) :
    (table.fill g slots).find? s = if s ∈ slots then some (g s) else table.find? s := by
  induction slots generalizing table with
  | nil => exact (if_neg List.not_mem_nil).symm
  | cons slot rest ih =>
    have hinsert : (table.insert slot (g slot)).Sorted := sorted_update hs slot _
    change ((table.insert slot (g slot)).fill g rest).find? s = _
    rw [ih hinsert, find?_insert hs]
    by_cases hmem : s ∈ rest
    · rw [if_pos hmem, if_pos (List.mem_cons_of_mem _ hmem)]
    · rw [if_neg hmem]
      by_cases heq : s = slot
      · rw [if_pos heq, if_pos (heq ▸ List.mem_cons_self), heq]
      · rw [if_neg heq, if_neg fun h => (List.mem_cons.mp h).elim heq hmem]

theorem fill_congr (hs : table.Sorted) {g : OutputSlot → α}
    {slots slots' : List OutputSlot} (h : ∀ s, s ∈ slots ↔ s ∈ slots') : table.fill g slots = table.fill g slots' := by
  refine eq_of_find?_eq (sorted_fill hs g slots) (sorted_fill hs g slots') fun s => ?_
  rw [find?_fill hs, find?_fill hs, if_congr (h s) rfl rfl]

end SlotTable

/-- The outputs have been stored by the program and fit the types of what was stored. -/
def SlotTable.StoredBy (program : Program) (outputs : SlotTable UInt64) : Prop :=
  ∀ slot a, outputs.find? slot = some a →
    ∃ data σ, StoresOutput program slot data ∧ program.typeOf data = .ok σ ∧ σ.Fits a

namespace SlotTable.StoredBy

variable {program : Program} {outputs : SlotTable UInt64}

theorem filter (h : outputs.StoredBy program) (keep : OutputSlot → Bool) :
    StoredBy program (List.filter (fun entry => keep entry.1) outputs) := by
  intro slot a ha
  rw [SlotTable.find?_filter] at ha
  split at ha
  · exact h slot a ha
  · cases ha

theorem insert (h : outputs.StoredBy program) (hs : outputs.Sorted) {slot : OutputSlot} {data : Value}
    {σ : ScalarType} {a : UInt64} (hstores : StoresOutput program slot data)
    (hσ : program.typeOf data = .ok σ) (ha : σ.Fits a) : StoredBy program (outputs.insert slot a) := by
  intro s b hb
  rw [SlotTable.find?_insert hs] at hb
  split at hb
  · rename_i heq
    cases hb
    exact ⟨data, σ, heq ▸ hstores, hσ, ha⟩
  · exact h s b hb

end SlotTable.StoredBy

/-- What an instruction does to the outputs. -/
theorem Lane.outputs_of_execute {group : Workgroup} {id : LaneId}
    {lane lane' : Lane} (h : lane.execute group id value instr = .ok lane') :
    lane'.outputs = lane.outputs ∨ ∃ slot data a, instr = .intrinsic (.storeOutput slot data) ∧
      lane.read data = .ok a ∧ lane'.outputs = lane.outputs.insert slot a := by
  unfold Lane.execute at h
  split at h
  · rename_i var a
    obtain ⟨x, -, h⟩ := except_bind_eq_ok.mp h
    unfold Lane.writeVar at h
    split at h <;> cases h
    exact .inl rfl
  · rename_i slot data
    obtain ⟨a, ha, h⟩ := except_bind_eq_ok.mp h
    cases h
    exact .inr ⟨slot, data, a, rfl, ha, rfl⟩
  · obtain ⟨a, -, h⟩ := except_bind_eq_ok.mp h
    cases h
    exact .inl rfl

/-- Registers, outputs and vertices of the invocation fit their types. -/
structure Invocation.Typed (program : Program) (inv : Invocation) : Prop where
  lane : inv.lane.Sound program True
  sorted : inv.lane.outputs.Sorted
  outputs : inv.lane.outputs.StoredBy program
  events : ∀ stream number before outputs, .vertex stream number before outputs ∈ inv.events →
    outputs.StoredBy program

/-- A valid program of one lane on its own, whose constants fit their types. -/
structure Workgroup.TypedSource (source : Workgroup) : Prop where
  launch : source.launch.Valid source.wave
  valid : source.program.validate = .ok ()
  scalar : Block.All source.program (·.isScalar) source.program.body
  constants : Block.All source.program (fun instr => ∀ type a, instr = .const type a → type.Fits a)
    source.program.body

theorem Workgroup.TypedSource.typed {source : Workgroup} (hsource : source.TypedSource)
    (hv : value ∈ Block.values source.program.body) (hi : source.program.instr value = .ok instr) :
    instr.Typed source.wave := by
  have hscalar := hsource.scalar value hv instr hi
  cases instr with
  | const type a => exact hsource.constants value hv _ hi type a rfl
  | intrinsic op => cases op <;> first | exact trivial | cases hscalar
  | _ => exact trivial

namespace Invocation.Typed

variable {source : Workgroup} {id : LaneId} {inv inv' : Invocation}

theorem start (program : Program) : Typed program (.start program) :=
  ⟨.start program True, .nil, nofun, nofun⟩

variable (hsource : source.TypedSource)
include hsource

/-- An instruction on registers, variables and outputs. -/
theorem of_execute (hid : id.InRange) (h : inv.Typed source.program)
    (hv : value ∈ Block.values source.program.body) (hi : source.program.instr value = .ok instr)
    (hlocal : instr.isLaneLocal) {lane' : Lane} (hr : inv.lane.execute source id value instr = .ok lane') :
    Typed source.program { inv with lane := lane' } := by
  obtain ⟨d, hd⟩ :=
    (Program.validate_eq_ok_iff.mp hsource.valid).1.supports value hv
  cases hi.symm.trans (Program.instr_of_definition? hd.definition)
  have hlane : lane'.Sound source.program True := by
    have hyields := h.lane.execute hsource.launch hid (fun _ => hsource.typed hv hi) (.inl trivial : True ∨ _) hd hlocal
    rwa [hr] at hyields
  rcases Lane.outputs_of_execute hr with houtputs | ⟨slot, data, a, heq, ha, houtputs⟩
  · exact ⟨hlane, houtputs ▸ h.sorted, houtputs ▸ h.outputs, h.events⟩
  · rw [heq] at hi
    obtain ⟨σ, hσ, -⟩ := GeometryPlan.typeOf_storeOutput (heq ▸ hd.type)
    refine ⟨hlane, houtputs ▸ SlotTable.sorted_update h.sorted slot _, ?_, h.events⟩
    rw [houtputs]
    exact h.outputs.insert h.sorted ⟨value, hv, hi⟩ hσ (h.lane.fits trivial data σ a hσ ha)

theorem step (hid : id.InRange) (h : inv.Typed source.program)
    (hv : value ∈ Block.values source.program.body) (hi : source.program.instr value = .ok instr)
    (hr : instr.Runs source id value inv (.ok inv')) : inv'.Typed source.program := by
  have hscalar := hsource.scalar value hv instr hi
  have hlane (hlocal : instr.isLaneLocal)
      (hr : (inv.lane.execute source id value instr >>= fun lane => pure { inv with lane }) = .ok inv') :
      inv'.Typed source.program := by
    obtain ⟨lane', hexecute, heq⟩ := except_bind_eq_ok.mp hr
    cases heq
    exact h.of_execute hsource hid hv hi hlocal hexecute
  generalize hresult : Except.ok inv' = result at hr
  cases hr with
  | crossLane op a => cases hscalar
  | scalar _ =>
    cases instr with
    | intrinsic op =>
      cases op with
      | geometry op =>
        cases op with
        | emitVertex stream number before =>
          obtain ⟨n, -, hr⟩ := except_bind_eq_ok.mp hresult.symm
          obtain ⟨b, -, hr⟩ := except_bind_eq_ok.mp hr
          cases hr
          refine ⟨⟨⟨h.lane.registers, h.lane.vars⟩, h.lane.fits, h.lane.fitsVar⟩, h.sorted.filter _,
            h.outputs.filter fun slot => slot.stream ≠ stream, fun s x y outputs hmem => ?_⟩
          rcases List.mem_append.mp hmem with hmem | hmem
          · exact h.events s x y outputs hmem
          · cases List.mem_singleton.mp hmem
            exact h.outputs.filter fun slot => slot.stream = stream
        | endPrimitive stream =>
          cases hresult
          exact h
        | setCounts stream vertices primitives =>
          obtain ⟨n, -, hr⟩ := except_bind_eq_ok.mp hresult.symm
          obtain ⟨x, -, hr⟩ := except_bind_eq_ok.mp hr
          cases hr
          refine ⟨h.lane, h.sorted, h.outputs, fun s x y outputs hmem => ?_⟩
          rcases List.mem_append.mp hmem with hmem | hmem
          · exact h.events s x y outputs hmem
          · cases List.mem_singleton.mp hmem
      | queryAdd stream count =>
        simp only [execute] at hresult
        split at hresult
        · obtain ⟨x, -, hr⟩ := except_bind_eq_ok.mp hresult.symm
          cases hr
          exact h
        · cases hresult
      | input _ | storeOutput _ _ => exact hlane rfl hresult.symm
      | _ => cases hscalar
    | _ => exact hlane rfl hresult.symm

theorem runs (hid : id.InRange) {block : Block} {ending : Ending} (hr : Block.Runs source id block inv ending)
    (hmem : ∀ v ∈ Block.values block, v ∈ Block.values source.program.body) (h : inv.Typed source.program) :
    ending.Meets (Typed source.program) (Typed source.program) fun _ => True := by
  have hside {a : UInt64} {cond : Value} {thenBlock elseBlock rest : Block}
      (hmem : ∀ v ∈ Block.values (.branch cond thenBlock elseBlock :: rest), v ∈ Block.values source.program.body) :
      ∀ v ∈ Block.values (if a = 0 then elseBlock else thenBlock), v ∈ Block.values source.program.body := by
    intro v hv
    refine hmem v ?_
    split at hv <;> simp [Block.values, Node.values, hv]
  induction hr with
  | nil inv => exact h
  | instr hi hrun _ ih =>
    exact ih (fun v hv => hmem v (by simp [Block.values, hv]))
      (h.step hsource hid (hmem _ (by simp [Block.values, Node.values])) hi hrun)
  | instr_faulted => trivial
  | branch _ _ _ ih ihrest =>
    exact ihrest (fun v hv => hmem v (by simp [Block.values, hv])) (ih (hside hmem) h)
  | branch_left _ _ ih => exact ih (hside hmem) h
  | branch_faulted => trivial
  | again _ _ ih ihrest =>
    exact ihrest hmem (ih (fun v hv => hmem v (by simp [Block.values, Node.values, hv])) h)
  | loop_left _ _ ih ihrest =>
    exact ihrest (fun v hv => hmem v (by simp [Block.values, hv]))
      (ih (fun v hv => hmem v (by simp [Block.values, Node.values, hv])) h)
  | loop_faulted => trivial
  | leave inv => exact h

theorem of_invokes {i : Nat} (hi : i < source.launch.numLanes)
    (h : source.Invokes i (.next inv)) : inv.Typed source.program := by
  refine runs hsource ?_ h (fun _ hv => hv) (start source.program)
  have hlanes := hsource.launch.numLanes_le
  have hwave := Workgroup.wave_lt hi
  have hwaves := hsource.launch.waves
  have hmod := Nat.mod_lt i source.wave_size_pos
  have hsize : source.wave.size ≤ 64 := by cases source.wave <;> decide
  exact ⟨Nat.lt_of_lt_of_le hwave hwaves, by simp only [Workgroup.laneId]; omega,
    by simp only [Workgroup.laneId]; omega⟩

end Invocation.Typed

namespace Lowering

/-- The outputs of stream 0 that a program stores. -/
def outputSlots (program : Program) : List OutputSlot :=
  (Block.values program.body).filterMap fun v =>
    match program.instr v with
    | .ok (.intrinsic (.storeOutput slot _)) => if slot.stream = 0 then some slot else none
    | _ => none

theorem mem_outputSlots {program : Program} {slot : OutputSlot} :
    slot ∈ outputSlots program ↔ slot.stream = 0 ∧ ∃ data, StoresOutput program slot data := by
  rw [outputSlots, List.mem_filterMap]
  constructor
  · rintro ⟨v, hv, hslot⟩
    split at hslot
    · rename_i s data hinstr
      split at hslot <;> cases hslot
      exact ⟨‹_›, data, v, hv, hinstr⟩
    · cases hslot
  · rintro ⟨hstream, data, v, hv, hinstr⟩
    exact ⟨v, hv, by simp only [hinstr, hstream, ↓reduceIte]⟩

/-- A value that fits the type of a component is stored as it is. -/
theorem GeometryPlan.convert_eq_self {type : ScalarType} (hstaged : isStaged type) {x : UInt64} (hx : type.Fits x) :
    type.convert x = x := by
  have hmask : type.convert x = x &&& type.mask := by
    cases type <;> first | rfl | cases hstaged
  rw [hmask]
  exact and_mask_eq hx

namespace LowersGeometry

variable {a : Attribute} {config : Config} {program declared lowered : Program} {survey : Survey} {plan : GeometryPlan}

variable (h : LowersGeometry config program survey plan declared lowered)
include h

/-- The components are the outputs of the survey. -/
theorem attributes_eq : plan.attributes.map (fun a => (a.slot, a.type)) = survey.types := by
  obtain ⟨hsorted, hused, -⟩ := Survey.covers_of_ofProgram h.surveyed
  obtain ⟨-, size, hattributes, -, -⟩ := GeometryPlan.makePlan_eq_ok h.planned
  exact (declareAttributes_eq_ok (fun entry hentry => bytes_pos_of_isStaged
    (hused _ _ ((SlotTable.find?_eq_some_iff hsorted).mpr hentry)).2.1) hattributes).slots

theorem find?_types (ha : a ∈ plan.attributes) : survey.types.find? a.slot = some a.type := by
  obtain ⟨hsorted, -, -⟩ := Survey.covers_of_ofProgram h.surveyed
  rw [SlotTable.find?_eq_some_iff hsorted, ← h.attributes_eq]
  exact List.mem_map.mpr ⟨a, ha, rfl⟩

/-- The components of stream 0 are the outputs of stream 0. -/
theorem mem_slots (slot : OutputSlot) : slot ∈ (plan.streamAttributes 0).map (·.slot) ↔ slot ∈ outputSlots program := by
  obtain ⟨hsorted, hused, hstored⟩ := Survey.covers_of_ofProgram h.surveyed
  rw [mem_outputSlots, List.mem_map]
  constructor
  · rintro ⟨a, ha, rfl⟩
    obtain ⟨ha, hstream⟩ := List.mem_filter.mp ha
    exact ⟨of_decide_eq_true hstream, (hused _ _ (h.find?_types ha)).2.2⟩
  · rintro ⟨hstream, data, hstores⟩
    obtain ⟨type, σ, htype, -⟩ := hstored slot data hstores (hstream ▸ h.accepted.stream)
    rw [SlotTable.find?_eq_some_iff hsorted, ← h.attributes_eq, List.mem_map] at htype
    obtain ⟨a, ha, heq⟩ := htype
    cases heq
    exact ⟨a, List.mem_filter.mpr ⟨ha, decide_eq_true hstream⟩, rfl⟩

/-- What is stored to the slot of a component fits it. -/
theorem fits_of_stored
    (ha : a ∈ plan.attributes) {data : Value} (hstores : StoresOutput program a.slot data) {σ : ScalarType}
    (hσ : program.typeOf data = .ok σ) {x : UInt64} (hx : σ.Fits x) : a.type.Fits x := by
  obtain ⟨-, hused, hstored⟩ := Survey.covers_of_ofProgram h.surveyed
  obtain ⟨type, σ', htype, hσ', hbits⟩ := hstored a.slot data hstores (hused _ _ (h.find?_types ha)).1
  cases (h.find?_types ha).symm.trans htype
  cases hσ.symm.trans hσ'
  exact Nat.lt_of_lt_of_le hx (Nat.pow_le_pow_right (by decide) hbits)

/-- No bit of an output is lost at the type of its component. -/
theorem convert_stored {outputs : SlotTable UInt64} (houtputs : outputs.StoredBy program) (ha : a ∈ plan.attributes) :
    a.type.convert ((outputs.find? a.slot).getD 0) = (outputs.find? a.slot).getD 0 := by
  refine GeometryPlan.convert_eq_self ((GeometryPlan.sound_of_makePlan h.accepted h.surveyed h.planned).staged a ha) ?_
  cases hfind : outputs.find? a.slot with
  | none => exact fits_zero _
  | some x =>
    obtain ⟨data, σ, hstores, hσ, hx⟩ := houtputs a.slot x hfind
    exact h.fits_of_stored ha hstores hσ hx

end LowersGeometry

end Lowering

end PrimitiveShader
