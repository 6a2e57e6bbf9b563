import PrimitiveShader.Proofs.Lowering.Geometry.Staging
import PrimitiveShader.Proofs.Lowering.Pack

/-!
# Exports of staged vertices

What a lane exports for the flags and the components that it finds in memory. The code for the indices
of a primitive computes what `Strip.vertexIndices` says (`Lowering.wp_stripIndices`). A vertex is
exported with the components of stream 0 as they stand in memory (`GeometryPlan.vertexAt`).
-/

namespace PrimitiveShader

/-! ## Arithmetic on words of 32 bits -/

theorem BinaryOp.eval_add_toUInt64 (x y : UInt32) : add.eval .u32 x.toUInt64 y.toUInt64 = (x + y).toUInt64 := by
  rw [eval, ← UInt64.toNat_inj, ScalarType.toNat_and_mask, UInt64.toNat_add, UInt32.toNat_toUInt64,
    UInt32.toNat_toUInt64, UInt32.toNat_toUInt64, UInt32.toNat_add]
  exact Nat.mod_mod_of_dvd _ ⟨2 ^ 32, rfl⟩

theorem BinaryOp.eval_sub_toUInt64 (x y : UInt32) : sub.eval .u32 x.toUInt64 y.toUInt64 = (x - y).toUInt64 := by
  rw [eval, ← UInt64.toNat_inj, ScalarType.toNat_and_mask, UInt64.toNat_sub, UInt32.toNat_toUInt64,
    UInt32.toNat_toUInt64, UInt32.toNat_toUInt64, UInt32.toNat_sub]
  have := x.toNat_lt
  have := y.toNat_lt
  simp only [ScalarType.bits]
  omega

namespace Lowering

open Emit

variable {c : Setting} {id : LaneId} {p : Program} {t : Thread} {L : Thread → Prop}

/-! ## Strips -/

instance {K : Instr → Prop} [Instr.Computing K] (topology : Topology) (rank flags : Value)
    (provoking : ProvokingVertex) : Straight K (stripIndices topology rank flags provoking) := by
  unfold stripIndices
  cases topology <;> cases provoking <;> infer_instance

theorem odd_eval (flags : UInt8) :
    (ScalarType.u32.convert flags.toUInt64 >>> (1 : UInt8).toUInt64) &&& Bits.lowOnes (1 : UInt8).toNat =
      (PrimitiveFlags.isOdd ⟨flags⟩).toUInt32.toUInt64 := by
  have hall : ∀ n < 256, (ScalarType.u32.convert (UInt8.ofNat n).toUInt64 >>>
      (1 : UInt8).toUInt64) &&& Bits.lowOnes (1 : UInt8).toNat =
        (PrimitiveFlags.isOdd ⟨UInt8.ofNat n⟩).toUInt32.toUInt64 := by
    decide +kernel
  have hflags := hall flags.toNat flags.toNat_lt
  rwa [UInt8.ofNat_toNat] at hflags

/-- In an odd triangle one index goes up by one, and the one behind it goes down. -/
theorem vertexIndices_first (r : UInt32) (odd : Bool) : Strip.vertexIndices .triangles r odd .first =
      [r - 2, r - 1 + odd.toUInt32, r - odd.toUInt32] := by
  cases odd with
  | false => simp [Strip.vertexIndices, Bool.toUInt32]
  | true => simp [Strip.vertexIndices, Bool.toUInt32]

theorem vertexIndices_last (r : UInt32) (odd : Bool) : Strip.vertexIndices .triangles r odd .last =
      [r - 2 + odd.toUInt32, r - 1 - odd.toUInt32, r] := by
  have hplus : r - 2 + 1 = r - 1 := by
    rw [← UInt32.toNat_inj, UInt32.toNat_add, UInt32.toNat_sub, UInt32.toNat_sub]
    simp only [UInt32.reduceToNat]
    omega
  have hminus : r - 1 - 1 = r - 2 := by
    rw [← UInt32.toNat_inj, UInt32.toNat_sub, UInt32.toNat_sub, UInt32.toNat_sub]
    simp only [UInt32.reduceToNat]
    omega
  cases odd with
  | false => simp [Strip.vertexIndices, Bool.toUInt32]
  | true => simp [Strip.vertexIndices, Bool.toUInt32, hplus, hminus]

variable {Q : List Value → Program → Thread → Prop}

/-- The code computes the vertex indices of the primitive that the vertex at `rank` completes. -/
theorem wp_stripIndices {topology : Topology} {provoking : ProvokingVertex} {rank flags : Value}
    {r : UInt32} {f : UInt8} (hr : Knows p t rank .u32 r.toUInt64) (hf : Knows p t flags .u8 f.toUInt64)
    (hQ : ∀ vs p' t', Computed p t p' t' → KnowsAll p' t' .u32 vs
      ((Strip.vertexIndices topology r (PrimitiveFlags.isOdd ⟨f⟩) provoking).map (·.toUInt64)) → Q vs p' t') :
    Emit.wp c id (stripIndices topology rank flags provoking) p Q L t := by
  have hone : (1 : UInt64) &&& ScalarType.u32.mask = (1 : UInt32).toUInt64 := by decide
  have htwo : (2 : UInt64) &&& ScalarType.u32.mask = (2 : UInt32).toUInt64 := by decide
  cases topology with
  | points => exact wp_pure (hQ _ p t (.refl p t) ⟨hr, trivial⟩)
  | lines =>
    refine wp_bind (wp_binaryImm hr rfl fun back p₁ t₁ h₁ hback => wp_pure (hQ _ p₁ t₁ h₁ ?_))
    rw [hone, BinaryOp.eval_sub_toUInt64] at hback
    exact ⟨hback, hr.computed h₁, trivial⟩
  | triangles =>
    unfold stripIndices
    refine wp_bind
      (wp_binaryImm hr rfl fun back₂ p₁ t₁ h₁ hback₂ => ?_)
    rw [htwo, BinaryOp.eval_sub_toUInt64] at hback₂
    refine wp_bind
      (wp_binaryImm (hr.computed h₁) rfl fun back₁ p₂ t₂ h₂ hback₁ => ?_)
    rw [hone, BinaryOp.eval_sub_toUInt64] at hback₁
    have h₁₂ := h₁.trans h₂
    refine wp_bind
      (wp_convert (hf.computed h₁₂) nofun nofun fun wide p₃ t₃ h₃ hwide => ?_)
    rw [if_neg nofun] at hwide
    refine wp_bind
      (wp_extract hwide rfl (by decide) (by decide) fun odd p₄ t₄ h₄ hodd => ?_)
    rw [odd_eval] at hodd
    have h₁₄ := (h₁₂.trans h₃).trans h₄
    have hr₄ := hr.computed h₁₄
    have hback₁ := (hback₁.computed h₃).computed h₄
    have hback₂ := ((hback₂.computed h₂).computed h₃).computed h₄
    cases provoking with
    | first =>
      refine wp_bind (wp_binary hback₁ hodd rfl fun up p₅ t₅ h₅ hup => ?_)
      refine wp_bind (wp_binary (hr₄.computed h₅) (hodd.computed h₅) rfl fun down p₆ t₆ h₆ hdown =>
        wp_pure (hQ _ p₆ t₆ ((h₁₄.trans h₅).trans h₆) ?_))
      rw [BinaryOp.eval_add_toUInt64] at hup
      rw [BinaryOp.eval_sub_toUInt64] at hdown
      rw [vertexIndices_first]
      exact ⟨(hback₂.computed h₅).computed h₆, hup.computed h₆, hdown, trivial⟩
    | last =>
      refine wp_bind (wp_binary hback₂ hodd rfl fun up p₅ t₅ h₅ hup => ?_)
      refine wp_bind (wp_binary (hback₁.computed h₅) (hodd.computed h₅) rfl fun down p₆ t₆ h₆ hdown =>
        wp_pure (hQ _ p₆ t₆ ((h₁₄.trans h₅).trans h₆) ?_))
      rw [BinaryOp.eval_add_toUInt64] at hup
      rw [BinaryOp.eval_sub_toUInt64] at hdown
      rw [vertexIndices_last]
      exact ⟨hup.computed h₆, hdown, (hr₄.computed h₅).computed h₆, trivial⟩

/-! ## Primitives -/

/-- The indices of a null primitive are replaced by zero. -/
theorem wp_selectAll {isNull zero : Value} {z : UInt64} {vs : List Value} {as : List UInt64}
    (hnull : Knows p t isNull .bool z)
    (hzero : Knows p t zero .u32 0) (hvs : KnowsAll p t .u32 vs as) (hQ : ∀ ws p' t', Computed p t p' t' →
      KnowsAll p' t' .u32 ws (as.map fun a => if z = 0 then a else 0) → Q ws p' t') :
    Emit.wp c id (vs.mapM fun index => Emit.select isNull zero index) p Q L t := by
  induction vs generalizing p t as Q with
  | nil =>
    cases as with
    | cons => cases hvs
    | nil =>
      rw [List.mapM_nil]
      exact wp_pure (hQ [] p t (.refl p t) trivial)
  | cons v vs ih =>
    cases as with
    | nil => cases hvs
    | cons a as =>
      rw [List.mapM_cons]
      refine wp_bind (wp_select hnull hzero hvs.1 nofun fun w p₁ t₁ h₁ hw => ?_)
      refine wp_bind (ih (hnull.computed h₁) (hzero.computed h₁) (hvs.2.later h₁.toLater)
        fun ws p₂ t₂ h₂ hws => wp_pure (hQ _ p₂ t₂ (h₁.trans h₂) ?_))
      exact ⟨hw.computed h₂, hws⟩

/-- Whether a primitive is null, as the code finds it out. -/
theorem null_eval (flags : UInt8) :
    BinaryOp.eq.eval .u32 (BinaryOp.and.eval .u32 (ScalarType.u32.convert flags.toUInt64)
      (PrimitiveFlags.completesBit.toUInt64 &&& ScalarType.u32.mask)) (0 &&& ScalarType.u32.mask) =
    (!PrimitiveFlags.completesPrimitive ⟨flags⟩).toUInt64 := by
  have hall : ∀ n < 256, BinaryOp.eq.eval .u32 (BinaryOp.and.eval .u32 (ScalarType.u32.convert (UInt8.ofNat n).toUInt64)
      (PrimitiveFlags.completesBit.toUInt64 &&& ScalarType.u32.mask)) (0 &&& ScalarType.u32.mask) =
      (!PrimitiveFlags.completesPrimitive ⟨UInt8.ofNat n⟩).toUInt64 := by
    decide +kernel
  have hflags := hall flags.toNat flags.toNat_lt
  rwa [UInt8.ofNat_toNat] at hflags

namespace GeometryPlan

/-- The word of the primitive that the vertex at `rank` completes, or of a null primitive. -/
def wordOf (plan : GeometryPlan) (rank : UInt32) (flags : UInt8) : ExportWord :=
  let indices := Strip.vertexIndices plan.config.topology rank (PrimitiveFlags.isOdd ⟨flags⟩)
    plan.config.provokingVertex
  if PrimitiveFlags.completesPrimitive ⟨flags⟩ then .joined indices [] false
  else .joined (indices.map fun _ => 0) [] true

variable {plan : GeometryPlan}

set_option synthInstance.maxSize 256

section

variable {K : Instr → Prop} [Instr.Common K] (a b : Value)

instance : Straight K (plan.exportPrimitive a b) := by
  unfold exportPrimitive
  infer_instance

instance : Straight K (plan.exportVertex a) := by
  unfold exportVertex
  split <;> infer_instance

instance : Straight K (plan.loadFlags a) := by
  unfold loadFlags
  infer_instance

instance : Novel K (plan.placeFlags a b) := by
  unfold placeFlags
  infer_instance

instance : Straight K plan.placeCount := by
  unfold placeCount
  infer_instance

end

variable {place n : Nat} {region : Region} {Q : Unit → Program → Thread → Prop} {lane : Value}

theorem wp_exportPrimitive {rank flags : Value} {r : UInt32} {f : UInt8} (hr : Knows p t rank .u32 r.toUInt64)
    (hf : Knows p t flags .u8 f.toUInt64)
    (hQ : ∀ p' t', Computed p { t with primitives := t.primitives ++ [plan.wordOf r f] } p' t' → Q () p' t') :
    Emit.wp c id (plan.exportPrimitive rank flags) p Q L t := by
  refine wp_bind (wp_convert hf nofun nofun fun wide p₁ t₁ h₁ hwide => ?_)
  rw [if_neg nofun] at hwide
  refine wp_bind (wp_binaryImm hwide rfl fun completes p₂ t₂ h₂ hcompletes => ?_)
  refine wp_bind (wp_binaryImm hcompletes rfl fun isNull p₃ t₃ h₃ hnull => ?_)
  rw [null_eval] at hnull
  refine wp_bind (wp_imm32 (by decide) fun zero p₄ t₄ h₄ hzero => ?_)
  have h₀₄ := ((h₁.trans h₂).trans h₃).trans h₄
  refine wp_bind (wp_stripIndices (hr.computed h₀₄) (hf.computed h₀₄) fun vs p₅ t₅ h₅ hvs => ?_)
  have hnull₅ := (hnull.computed h₄).computed h₅
  refine wp_bind (wp_selectAll hnull₅ (hzero.computed h₅) hvs fun ws p₆ t₆ h₆ hws => ?_)
  have hword : ∃ indices : List UInt32, KnowsAll p₆ t₆ .u32 ws (indices.map (·.toUInt64)) ∧
      ExportWord.joined indices [] (!PrimitiveFlags.completesPrimitive ⟨f⟩) = plan.wordOf r f := by
    unfold wordOf
    cases hc : PrimitiveFlags.completesPrimitive ⟨f⟩ with
    | true =>
      rw [hc] at hws
      have hkeep : (fun a : UInt64 => if (!true).toUInt64 = 0 then a else 0) = fun a => a :=
        funext fun a => if_pos rfl
      rw [hkeep, List.map_id'] at hws
      exact ⟨_, hws, rfl⟩
    | false =>
      rw [hc] at hws
      have hclear : (fun a : UInt64 => if (!false).toUInt64 = 0 then a else 0) = fun _ => 0 :=
        funext fun a => if_neg (by decide)
      rw [hclear, List.map_map] at hws
      refine ⟨_, ?_, rfl⟩
      rwa [List.map_map]
  obtain ⟨indices, hindices, hjoined⟩ := hword
  have hmark : ∀ flag, some isNull = some flag →
      Knows p₆ t₆ flag .bool (!PrimitiveFlags.completesPrimitive ⟨f⟩).toUInt64 := by
    rintro _ ⟨⟩
    exact hnull₅.computed h₆
  refine wp_bind (wp_packWord hindices (.nil p₆ t₆) hmark nofun fun word p₇ t₇ h₇ hword => ?_)
  rw [hjoined] at hword
  have h₀₇ := ((h₀₄.trans h₅).trans h₆).trans h₇
  refine Emit.wp_exportPrimitive hword fun p₈ h₈ => hQ p₈ _ ?_
  have hcut : (plan.wordOf r f).bits.toUInt64.toUInt32 = (plan.wordOf r f).bits :=
    UInt32.toUInt32_toUInt64 _
  rw [hcut]
  exact (h₀₇.withPrimitives [plan.wordOf r f]).trans (.of_within h₈)

/-! ## Vertices -/

/-- The outputs after the components of stream 0 of the vertex at `place` have been stored. -/
def vertexAt (plan : GeometryPlan) (view : Nat → UInt8) (place : Nat) (outputs : SlotTable UInt64) :
    SlotTable UInt64 :=
  match plan.layout.vertexAttributes with
  | some region => (plan.streamAttributes 0).foldl (fun outputs a => outputs.insert a.slot
      (littleEndian view (region.fieldAddress place plan.stride a.offset) a.type.bytes 0)) outputs
  | none => outputs

/-- A vertex consists of the bytes of its components. -/
theorem vertexAt_congr {view view' : Nat → UInt8}
    (h : ∀ region, plan.layout.vertexAttributes = some region → ∀ a ∈ plan.streamAttributes 0,
      ∀ j < a.type.bytes, view (region.fieldAddress place plan.stride a.offset + j) =
        view' (region.fieldAddress place plan.stride a.offset + j)) (outputs : SlotTable UInt64) :
    plan.vertexAt view place outputs = plan.vertexAt view' place outputs := by
  unfold vertexAt
  cases hr : plan.layout.vertexAttributes with
  | none => rfl
  | some region =>
    have hbytes := h region hr
    dsimp only
    generalize plan.streamAttributes 0 = attributes at hbytes
    induction attributes generalizing outputs with
    | nil => rfl
    | cons a rest ih =>
      rw [List.foldl_cons, List.foldl_cons, littleEndian_congr fun j _ hj =>
        hbytes a List.mem_cons_self j (by omega)]
      exact ih _ fun b hb => hbytes b (List.mem_cons_of_mem _ hb)

/-- The components of a place lie within the region for vertices. -/
theorem Sound.component_lt (h : plan.Sound) (hr : plan.layout.vertexAttributes = some region) (hp : place < plan.places)
    {a : Attribute} (ha : a ∈ plan.attributes) {j : Nat} (hj : j < a.type.bytes) :
    place * plan.stride + a.offset + j < region.size := by
  have hfield := h.fields a ha
  have hmul := Nat.mul_le_mul_right plan.stride (Nat.succ_le_of_lt hp)
  rw [Nat.succ_mul] at hmul
  rw [h.room region hr]
  omega

/-- The components of the staged vertices have no owner, and they can be accessed. -/
structure Shows (plan : GeometryPlan) (c : Setting) : Prop extends plan.Sound where
  share : c.program.sharedSize = plan.layout.size
  freeFields : ∀ region, plan.layout.vertexAttributes = some region → ∀ j < region.size,
    c.own (region.offset + j) = none
  freeFlags : ∀ region, plan.flagsRegion 0 = .ok region → ∀ j < region.size,
    c.own (region.offset + j) = none

/-- Some components are loaded from memory and stored as outputs. -/
theorem wp_loadFields (h : plan.Shows c)
    (hr : plan.layout.vertexAttributes = some region) {place : Value} (hn : n < plan.places)
    {attributes : List Attribute} (hsub : ∀ a ∈ attributes, a ∈ plan.attributes)
    (hplace : Knows p t place .u32 (UInt64.ofNat n))
    (hQ : ∀ p' t', p.Within p' → t'.lane.outputs = attributes.foldl (fun outputs a =>
        outputs.insert a.slot (littleEndian t.view (region.fieldAddress n plan.stride a.offset)
          a.type.bytes 0)) t.lane.outputs →
      t'.primitives = t.primitives → t'.vertices = t.vertices → t'.space = t.space → Q () p' t') :
    Emit.wp c id (attributes.forM fun component => do
      let value ← region.load place plan.stride component.offset component.type
      Emit.effect (.storeOutput component.slot value)) p Q L t := by
  induction attributes generalizing p t with
  | nil => exact wp_pure (hQ p t (.refl p) rfl rfl rfl rfl)
  | cons a rest ih =>
    have ha := hsub a List.mem_cons_self
    have hholds := h.holds_fields h.share hn hr
    change Emit.wp c id (_ >>= fun _ => rest.forM _) p Q L t
    refine wp_bind (wp_bind (Region.wp_load hplace hholds (isInt_of_isStaged (h.staged a ha))
      (fun hfield j hj => ?_) fun value p₁ t₁ h₁ hvalue => ?_))
    · have helement := hholds.element
      have hfree := h.freeFields region hr (n * plan.stride + a.offset + j) (by omega)
      rwa [← Nat.add_assoc, ← Nat.add_assoc] at hfree
    · refine wp_storeOutput hvalue fun p₂ h₂ => ?_
      refine ih (fun b hb => hsub b (List.mem_cons_of_mem _ hb)) ((hplace.computed h₁).later h₂)
        fun p₃ t₃ h₃ houtputs hprimitives hvertices hspace => ?_
      refine hQ p₃ t₃ ((h₁.within.trans h₂.within).trans h₃) ?_ (hprimitives.trans h₁.primitives)
        (hvertices.trans h₁.vertices) (hspace.trans h₁.space)
      rw [houtputs, List.foldl_cons]
      change rest.foldl (fun outputs a => outputs.insert a.slot (littleEndian t₁.view
        (region.fieldAddress n plan.stride a.offset) a.type.bytes 0)) (t₁.lane.outputs.insert _ _) = _
      rw [h₁.view, h₁.outputs]

theorem wp_exportVertex (h : plan.Shows c) {place : Value} (hn : n < plan.places)
    (hplace : Knows p t place .u32 (UInt64.ofNat n))
    (hQ : ∀ p' t', p.Within p' → t'.primitives = t.primitives → t'.space = t.space →
      t'.vertices = t.vertices ++ [plan.vertexAt t.view n t.lane.outputs] → Q () p' t') :
    Emit.wp c id (plan.exportVertex place) p Q L t := by
  unfold vertexAt at hQ
  unfold exportVertex
  split
  · rename_i region hr
    rw [hr] at hQ
    refine wp_bind (wp_loadFields h hr hn (fun a ha => (List.mem_filter.mp ha).1) hplace
      fun p₁ t₁ h₁ houtputs hprimitives hvertices hspace => ?_)
    refine Emit.wp_exportVertex fun p₂ h₂ => hQ p₂ _ (h₁.trans h₂) hprimitives hspace ?_
    change t₁.vertices ++ [t₁.lane.outputs] = _
    rw [houtputs, hvertices]
  · rename_i hr
    rw [hr] at hQ
    exact Emit.wp_exportVertex fun p₂ h₂ => hQ p₂ _ h₂ rfl rfl rfl

/-! ## Places -/

/-- The flags of a place of stream 0. -/
def flagsAt (plan : GeometryPlan) (view : Nat → UInt8) (place : Nat) : UInt8 :=
  match plan.flagsRegion 0 with
  | .ok region => view (region.offset + place)
  | .error _ => 0

/-- The places of all invocations of a launch. -/
def placesOf (plan : GeometryPlan) (launch : Launch) : Nat :=
  launch.primitives.size * plan.config.geometry.maxVerticesOut

theorem placesOf_le {launch : Launch} (h : launch.primitives.size ≤ plan.config.geometry.maxInputPrimitives) :
    plan.placesOf launch ≤ plan.places := Nat.mul_le_mul_right _ h

/-- The number of places of all invocations. -/
theorem wp_placeCount (h : plan.Sound)
    (hlaunch : c.group.launch.primitives.size ≤ plan.config.geometry.maxInputPrimitives)
    (hpos : 0 < plan.config.geometry.maxInputPrimitives) {Q : Value → Program → Thread → Prop}
    (hQ : ∀ v p' t', Computed p t p' t' →
      Knows p' t' v .u32 (UInt64.ofNat (plan.placesOf c.group.launch)) → Q v p' t') :
    Emit.wp c id plan.placeCount p Q L t := by
  have hplaces := Nat.le_trans (placesOf_le hlaunch) h.places_le
  refine wp_bind (wp_input fun invocations p₁ t₁ h₁ hinvocations => ?_)
  change Knows p₁ t₁ invocations .u32 (UInt64.ofNat c.group.launch.primitives.size) at hinvocations
  refine wp_binaryImm hinvocations rfl fun v p₂ t₂ h₂ hv => hQ v p₂ t₂ (h₁.trans h₂) ?_
  unfold placesOf at hplaces
  rwa [maxVertices, ofNat_and_mask (h.maxVertices_lt hpos), BinaryOp.eval_mul_ofNat (by omega)] at hv

theorem littleEndian_one (view : Nat → UInt8) (addr : Nat) : littleEndian view addr 1 0 = (view addr).toUInt64 := by
  simp [littleEndian]

theorem wp_loadFlags (h : plan.Shows c) (hn : n < plan.places)
    {Q : Value → Program → Thread → Prop} (hlane : Knows p t lane .u32 (UInt64.ofNat n))
    (hQ : Learns p t .u8 (plan.flagsAt t.view n).toUInt64 Q) :
    Emit.wp c id (plan.loadFlags lane) p Q L t := by
  refine wp_bind (wp_lift fun region hr => ?_)
  have hholds := h.holds_flags h.share hn hr
  have haddr : region.fieldAddress n 1 0 = region.offset + n := by
    simp only [Region.fieldAddress, Nat.mul_one, Nat.add_zero]
  refine Region.wp_load hlane hholds rfl (fun _ j hj => ?_) fun v p₁ t₁ h₁ hv => hQ v p₁ t₁ h₁ ?_
  · obtain rfl : j = 0 := by simp only [ScalarType.bytes] at hj; omega
    have helement := hholds.element
    rw [haddr]
    exact h.freeFlags region hr n (by omega)
  · rw [haddr, show ScalarType.u8.bytes = 1 from rfl, littleEndian_one] at hv
    unfold flagsAt
    rwa [hr]

/-- The flags of this lane's place, which are zero on lanes without one. -/
theorem wp_placeFlags (h : plan.Shows c) {places : Value} {i : Nat} (hi : i < 2 ^ 32)
    (hn : n ≤ plan.places) {Q : Value → Program → Thread → Prop}
    (hlane : Knows p t lane .u32 (UInt64.ofNat i)) (hplaces : Knows p t places .u32 (UInt64.ofNat n))
    (hQ : ∀ v p' t', Adjusted (fun x => p.vars.size ≤ x.index) p t p' t' →
      Knows p' t' v .u8 (if i < n then plan.flagsAt t.view i else 0).toUInt64 → Q v p' t') :
    Emit.wp c id (plan.placeFlags lane places) p Q L t := by
  have hsmall := h.places_le
  refine wp_bind (wp_createVar fun var p₁ h₁ hindex htype => ?_)
  have hvar : p.vars.size ≤ var.index := Nat.le_of_eq hindex.symm
  have hnew : Adjusted (fun x => p.vars.size ≤ x.index) p t p₁ t := .of_within h₁
  refine wp_bind (wp_imm fun zero p₂ t₂ h₂ hzero => ?_)
  refine wp_bind (wp_storeVar (h₂.within.varType?_eq htype) hzero.read fun p₃ h₃ hread => ?_)
  have h₀₃ := (hnew.trans h₂.adjusted).trans (.setVar hvar h₃)
  refine wp_bind (wp_binary (hlane.later h₀₃.toLater) (hplaces.later h₀₃.toLater) rfl fun hasPlace p₄ t₄ h₄ hhas => ?_)
  rw [BinaryOp.eval_lt_ofNat hi (by omega)] at hhas
  have h₀₄ := h₀₃.trans h₄.adjusted
  have htype₄ := (h₂.within.trans (h₃.within.trans h₄.within)).varType?_eq htype
  refine wp_bind (wp_ifThen hhas (fun hne p₅ h₅ => ?_) fun hz p₅ h₅ => ?_)
  · have hlt : i < n := by simpa [toUInt64_eq_zero_iff] using hne
    rw [if_pos hlt] at hQ
    have hlane₅ := (hlane.later h₀₄.toLater).later h₅
    refine wp_bind (wp_loadFlags h (Nat.lt_of_lt_of_le hlt hn) hlane₅ fun flags p₆ t₆ h₆ hflags => ?_)
    refine wp_storeVar ((h₅.within.trans h₆.within).varType?_eq htype₄) hflags.read fun p₇ h₇ hread₇ p₈ h₈ => ?_
    have htype₈ := (((h₅.within.trans h₆.within).trans h₇.within).trans h₈.within).varType?_eq htype₄
    refine wp_loadVar htype₈ hread₇ fun v p₉ t₉ h₉ hv => hQ v p₉ t₉ ?_ ?_
    · exact ((((h₀₄.trans (.of_within h₅.within)).trans h₆.adjusted).trans (.setVar hvar h₇)).trans
        (.of_within h₈.within)).trans h₉.adjusted
    · rwa [h₀₄.view] at hv
  · have hge : ¬ i < n := by simpa [toUInt64_eq_zero_iff] using hz
    rw [if_neg hge] at hQ
    refine wp_loadVar (h₅.within.varType?_eq htype₄) ?_ fun v p₆ t₆ h₆ hv =>
      hQ v p₆ t₆ ((h₀₄.trans (.of_within h₅.within)).trans h₆.adjusted) hv
    rw [Lane.readVar, h₄.vars, ← Lane.readVar]
    exact hread

end GeometryPlan

end Lowering

end PrimitiveShader
