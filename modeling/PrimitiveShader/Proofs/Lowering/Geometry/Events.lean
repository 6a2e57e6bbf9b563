import PrimitiveShader.Proofs.Lowering.Geometry.Program

/-!
# What the events of an invocation leave behind

The bytes that an invocation leaves for stream 0 are read place by place. The flags of a place and each
component of its vertex are what a fold over the events gives (`GeometryPlan.Leaves`), so that no later
argument has to deal with addresses.
-/

namespace PrimitiveShader.Lowering

/-- The flags of vertex `m` of stream 0 after an event. -/
def flagsAfter (topology : Topology) (m : Nat) (flags : UInt8) : GeometryEvent → UInt8
  | .vertex stream number before _ =>
    if stream = 0 ∧ number.toNat = m then flagsOf topology before else flags
  | .counts stream vertices _ => if stream = 0 ∧ vertices.toNat ≤ m then 0 else flags

theorem isLive_flagsOf (topology : Topology) (before : UInt64) :
    PrimitiveFlags.isLive ⟨flagsOf topology before⟩ = true := by
  simp only [flagsOf]
  split <;> split <;> rfl

/-- A component of vertex `m` of stream 0 after an event. -/
def fieldAfter (m : Nat) (a : Attribute) (value : UInt64) : GeometryEvent → UInt64
  | .vertex stream number _ outputs =>
    if stream = 0 ∧ number.toNat = m then a.type.convert ((outputs.find? a.slot).getD 0) else value
  | .counts _ _ _ => value

namespace GeometryPlan

variable {b : Attribute} {plan : GeometryPlan} {region : Region} {view : Nat → UInt8} {i m : Nat}

/-! ## Components -/

/-- A component of the vertex at `place`. -/
def fieldAt (plan : GeometryPlan) (region : Region) (view : Nat → UInt8) (place : Nat) (a : Attribute) :
    UInt64 :=
  littleEndian view (region.fieldAddress place plan.stride a.offset) a.type.bytes 0

variable {a : Attribute} {value : Attribute → UInt64} {attributes : List Attribute} {place : Nat}
  {view' before : Nat → UInt8} {flags : Region}

/-- A byte outside of the components that are stored. -/
theorem withFields_of_outside {addr : Nat}
    (h : ∀ a ∈ attributes, addr < region.fieldAddress place plan.stride a.offset ∨
      region.fieldAddress place plan.stride a.offset + a.type.bytes ≤ addr) :
    plan.withFields region place value attributes view addr = view addr := by
  induction attributes generalizing view with
  | nil => rfl
  | cons a rest ih =>
    unfold withFields at ih ⊢
    rw [List.foldl_cons, ih fun b hb => h b (List.mem_cons_of_mem _ hb)]
    have ha := h a List.mem_cons_self
    exact if_neg (by omega)

/-- Where none of the bytes of a component changes, it stays the same. -/
theorem fieldAt_congr (h : ∀ j < a.type.bytes, view' (region.fieldAddress place plan.stride a.offset + j) =
      view (region.fieldAddress place plan.stride a.offset + j)) :
    plan.fieldAt region view' place a = plan.fieldAt region view place a :=
  littleEndian_congr fun j _ hj => h j (by omega)

theorem fieldAt_withFields (hstaged : ∀ a ∈ attributes, isStaged a.type)
    (hapart : attributes.Pairwise fun a b => a.offset + a.type.bytes ≤ b.offset) (ha : a ∈ attributes) :
    plan.fieldAt region (plan.withFields region place value attributes view) place a = a.type.convert (value a) := by
  induction attributes generalizing view with
  | nil => cases ha
  | cons b rest ih =>
    obtain ⟨hfirst, hrest⟩ := List.pairwise_cons.mp hapart
    rcases List.mem_cons.mp ha with rfl | hmem
    · obtain ⟨hbytes, hconvert⟩ := convert_eq_and_lowOnes (hstaged a List.mem_cons_self) (value a)
      rw [hconvert, ← littleEndian_overwrite view _ hbytes]
      change plan.fieldAt region (plan.withFields region place value rest _) place a = _
      refine fieldAt_congr fun j hj => withFields_of_outside fun b hb => .inl ?_
      have := hfirst b hb
      simp only [Region.fieldAddress]
      omega
    · exact ih (fun b hb => hstaged b (List.mem_cons_of_mem _ hb)) hrest hmem

theorem Sound.apart_of_ne (h : plan.Sound) (ha : a ∈ plan.attributes) (hb : b ∈ plan.attributes) (hne : a ≠ b) :
    a.offset + a.type.bytes ≤ b.offset ∨ b.offset + b.type.bytes ≤ a.offset := by
  obtain ⟨i, hi, rfl⟩ := List.getElem_of_mem ha
  obtain ⟨j, hj, rfl⟩ := List.getElem_of_mem hb
  have hpairs := List.pairwise_iff_getElem.mp h.apart
  rcases Nat.lt_trichotomy i j with hlt | rfl | hgt
  · exact .inl (hpairs i j hi hj hlt)
  · exact absurd rfl hne
  · exact .inr (hpairs j i hj hi hgt)

/-- Neither do components of two vertices. -/
theorem Sound.fields_apart (h : plan.Sound) (ha : a ∈ plan.attributes) (hb : b ∈ plan.attributes)
    {other : Nat} (hne : (place, a) ≠ (other, b)) (region : Region) :
    region.fieldAddress place plan.stride a.offset + a.type.bytes ≤ region.fieldAddress other plan.stride b.offset ∨
      region.fieldAddress other plan.stride b.offset + b.type.bytes ≤
        region.fieldAddress place plan.stride a.offset := by
  have hfield := h.fields a ha
  have hother := h.fields b hb
  simp only [Region.fieldAddress]
  rcases Nat.lt_trichotomy place other with hlt | rfl | hgt
  · have hle : (place + 1) * plan.stride ≤ other * plan.stride := Nat.mul_le_mul_right _ hlt
    rw [Nat.add_mul, Nat.one_mul] at hle
    omega
  · have := h.apart_of_ne ha hb fun heq => hne (heq ▸ rfl)
    omega
  · have hle : (other + 1) * plan.stride ≤ place * plan.stride := Nat.mul_le_mul_right _ hgt
    rw [Nat.add_mul, Nat.one_mul] at hle
    omega

/-- The components of one stream are stored for one place, and all others stay. -/
theorem Sound.fieldAt_withComponents (h : plan.Sound) (hr : plan.layout.vertexAttributes = some region)
    (ha : a ∈ plan.attributes) (stream : UInt8) (place other : Nat) (value : Attribute → UInt64) :
    plan.fieldAt region (plan.withComponents stream other value view) place a =
      if place = other ∧ a.slot.stream = stream then a.type.convert (value a)
      else plan.fieldAt region view place a := by
  unfold withComponents
  rw [hr]
  dsimp only
  split
  · rename_i hsame
    obtain ⟨rfl, rfl⟩ := hsame
    exact fieldAt_withFields (fun b hb => h.staged b (List.mem_filter.mp hb).1) (h.apart.filter _)
      (List.mem_filter.mpr ⟨ha, by simp⟩)
  · rename_i hother
    refine fieldAt_congr fun j hj => withFields_of_outside fun b hb => ?_
    obtain ⟨hb, hstream⟩ := List.mem_filter.mp hb
    have hne : (place, a) ≠ (other, b) := by
      rintro ⟨⟩
      exact hother ⟨rfl, by simpa using hstream⟩
    have := h.fields_apart ha hb hne region
    omega

/-! ## Flags -/

theorem byte_toUInt64 (x : UInt8) : Bits.byte x.toUInt64 0 = x := by
  have hzero : x.toUInt64 >>> UInt64.ofNat (8 * 0) = x.toUInt64 := UInt64.shiftRight_zero
  rw [Bits.byte, hzero]
  simp

/-- The places of an invocation come before those of the next. -/
theorem placeOf_end (hi : i < plan.config.geometry.maxInputPrimitives) :
    plan.placeOf i plan.config.geometry.maxVerticesOut ≤ plan.places := by
  have hle := Nat.mul_le_mul_right plan.config.geometry.maxVerticesOut hi
  rwa [Nat.succ_mul] at hle

section

variable (h : plan.Sound) (hr : plan.flagsRegion 0 = .ok region)
include h hr

variable {other : Nat} {stream : UInt8}

/-- A byte of the flags of another stream is no byte of the flags of stream 0. -/
theorem Sound.flags_apart {other : Region} (hne : stream ≠ 0)
    (ho : plan.flagsRegion stream = .ok other) {x : Nat} (hplace : place < plan.places)
    (hx : other.offset ≤ x) (hlt : x < other.offset + plan.places) : region.offset + place ≠ x := by
  have hrole : 4 + (0 : UInt8).toNat ≠ 4 + stream.toNat := by
    have hpos : stream.toNat ≠ 0 := fun hzero => hne (UInt8.toNat_inj.mp hzero)
    simp only [UInt8.toNat_zero]
    omega
  have hapart := h.regions.disjoint _ _ region other hrole (flagsRegion_eq_ok hr) (flagsRegion_eq_ok ho)
  have hsize := h.flags 0 region hr
  have hsize' := h.flags stream other ho
  omega

/-- The flags of one place are stored, and all others stay. -/
theorem Sound.flagsAt_withFlags (hplace : place < plan.places) (hother : other < plan.places) (flags : UInt8) :
    plan.flagsAt (plan.withFlags stream other flags view) place =
      if stream = 0 ∧ other = place then flags else plan.flagsAt view place := by
  simp only [flagsAt, hr]
  cases ho : plan.flagsRegion stream with
  | error fault =>
    have hstream : stream ≠ 0 := by
      rintro rfl
      cases hr.symm.trans ho
    rw [if_neg fun hand => hstream hand.1]
    simp only [withFlags, ho]
  | ok region' =>
    simp only [withFlags, ho]
    by_cases hstream : stream = 0
    · subst hstream
      cases hr.symm.trans ho
      by_cases heq : other = place
      · subst heq
        rw [if_pos ⟨rfl, rfl⟩, overwrite, if_pos ⟨Nat.le_refl _, Nat.lt_succ_self _⟩, Nat.sub_self, byte_toUInt64]
      · rw [if_neg fun hand => heq hand.2]
        exact if_neg (by omega)
    · have hne := h.flags_apart hr hstream ho hplace (Nat.le_add_right _ other) (by omega)
      rw [if_neg fun hand => hstream hand.1]
      exact if_neg (by omega)

/-- The flags from one number on are cleared, and all others stay. -/
theorem Sound.flagsAt_withCleared (hi : i < plan.config.geometry.maxInputPrimitives)
    (hm : m < plan.config.geometry.maxVerticesOut) (first : Nat) :
    plan.flagsAt (plan.withCleared stream i first plan.config.geometry.maxVerticesOut view) (plan.placeOf i m) =
      if stream = 0 ∧ first ≤ m then 0 else plan.flagsAt view (plan.placeOf i m) := by
  have hplace := placeOf_lt hi hm
  simp only [flagsAt, hr]
  cases ho : plan.flagsRegion stream with
  | error fault =>
    have hstream : stream ≠ 0 := by
      rintro rfl
      cases hr.symm.trans ho
    rw [if_neg fun hand => hstream hand.1]
    simp only [withCleared, ho]
  | ok region' =>
    simp only [withCleared, ho]
    by_cases hstream : stream = 0
    · subst hstream
      cases hr.symm.trans ho
      refine if_congr ?_ rfl rfl
      simp only [placeOf, true_and]
      omega
    · have hend := placeOf_end hi
      rw [if_neg (fun hand => hstream hand.1 : ¬ (stream = 0 ∧ first ≤ m))]
      refine if_neg fun hin => ?_
      exact h.flags_apart hr hstream ho hplace (by omega) (by omega) rfl

/-- The components of a vertex are no flags. -/
theorem Sound.flagsAt_withComponents (hplace : place < plan.places)
    (hother : other < plan.places) (value : Attribute → UInt64) :
    plan.flagsAt (plan.withComponents stream other value view) place = plan.flagsAt view place := by
  simp only [flagsAt, hr]
  cases hattributes : plan.layout.vertexAttributes with
  | none => simp only [withComponents, hattributes]
  | some attributes =>
    simp only [withComponents, hattributes]
    refine withFields_of_outside fun a ha => ?_
    have hapart := h.regions.disjoint 4 1 region attributes (by decide) (flagsRegion_eq_ok hr) hattributes
    have hsize := h.flags 0 region hr
    have hsize' := h.room attributes hattributes
    have hfield := h.fields a (List.mem_filter.mp ha).1
    have hle : (other + 1) * plan.stride ≤ plan.places * plan.stride := Nat.mul_le_mul_right _ hother
    rw [Nat.add_mul, Nat.one_mul] at hle
    simp only [Region.fieldAddress]
    omega

/-- The flags of a place after an event of its invocation. -/
theorem Sound.flagsAt_afterEvent (huse : plan.config.geometry.usesStream 0)
    (hi : i < plan.config.geometry.maxInputPrimitives) (hm : m < plan.config.geometry.maxVerticesOut)
    (event : GeometryEvent) : plan.flagsAt (plan.afterEvent i view event) (plan.placeOf i m) =
      flagsAfter plan.config.topology m (plan.flagsAt view (plan.placeOf i m)) event := by
  have hplace := placeOf_lt hi hm
  cases event with
  | vertex stream number before outputs =>
    simp only [afterEvent, flagsAfter]
    split
    · rename_i hstaged
      have hother := placeOf_lt hi hstaged.2
      rw [h.flagsAt_withFlags hr hplace hother, h.flagsAt_withComponents hr hplace hother]
      simp only [placeOf, Nat.add_left_cancel_iff]
    · rename_i hskip
      rw [if_neg]
      rintro ⟨rfl, rfl⟩
      exact hskip ⟨huse, hm⟩
  | counts stream vertices primitives =>
    simp only [afterEvent, flagsAfter]
    split
    · exact h.flagsAt_withCleared hr hi hm _
    · rename_i hskip
      rw [if_neg]
      rintro ⟨rfl, -⟩
      exact hskip huse

end

/-! ## Components again -/

section

variable (h : plan.Sound) (hr : plan.layout.vertexAttributes = some region)
include h hr

theorem Sound.fieldAt_of_flags {stream : UInt8} (hflags : plan.flagsRegion stream = .ok flags)
    (hplace : place < plan.places) (ha : a ∈ plan.attributes)
    (hsame : ∀ x, x < flags.offset ∨ flags.offset + plan.places ≤ x → view' x = view x) :
    plan.fieldAt region view' place a = plan.fieldAt region view place a := by
  refine fieldAt_congr fun j hj => hsame _ ?_
  have hin := h.component_lt hr hplace ha hj
  have hapart := h.regions.disjoint 1 (4 + stream.toNat) region flags (by omega) hr (flagsRegion_eq_ok hflags)
  have hsize := h.flags stream flags hflags
  simp only [Region.fieldAddress]
  omega

/-- A component of a place after an event of its invocation. -/
theorem Sound.fieldAt_afterEvent (huse : plan.config.geometry.usesStream 0)
    (hi : i < plan.config.geometry.maxInputPrimitives) (hm : m < plan.config.geometry.maxVerticesOut)
    (ha : a ∈ plan.streamAttributes 0) (event : GeometryEvent) :
    plan.fieldAt region (plan.afterEvent i view event) (plan.placeOf i m) a =
      fieldAfter m a (plan.fieldAt region view (plan.placeOf i m) a) event := by
  have hplace := placeOf_lt hi hm
  obtain ⟨hmem, hstream⟩ := List.mem_filter.mp ha
  cases event with
  | vertex stream number before outputs =>
    simp only [afterEvent, fieldAfter]
    split
    · rename_i hstaged
      have hother := placeOf_lt hi hstaged.2
      have hflags : plan.fieldAt region (plan.withFlags stream (plan.placeOf i number.toNat)
          (flagsOf plan.config.topology before) (plan.withComponents stream (plan.placeOf i number.toNat)
            (fun a => (outputs.find? a.slot).getD 0) view)) (plan.placeOf i m) a =
          plan.fieldAt region (plan.withComponents stream (plan.placeOf i number.toNat)
            (fun a => (outputs.find? a.slot).getD 0) view) (plan.placeOf i m) a := by
        unfold withFlags
        split
        · rename_i flags hflags
          exact h.fieldAt_of_flags hr hflags hplace hmem fun x hx => if_neg (by omega)
        · rfl
      rw [hflags, h.fieldAt_withComponents hr hmem]
      simp only [placeOf, Nat.add_left_cancel_iff, of_decide_eq_true hstream, and_comm, eq_comm]
    · rename_i hskip
      rw [if_neg]
      rintro ⟨rfl, rfl⟩
      exact hskip ⟨huse, hm⟩
  | counts stream vertices primitives =>
    simp only [afterEvent, fieldAfter]
    split
    · unfold withCleared
      split
      · rename_i flags hflags
        refine h.fieldAt_of_flags hr hflags hplace hmem fun x hx => if_neg fun hin => ?_
        have hend := placeOf_end hi
        omega
      · rfl
    · rfl

end

/-! ## All events -/

/-- The bytes `view` show what the events of invocation `i` leave of the bytes `before`. -/
structure Leaves (plan : GeometryPlan) (before view : Nat → UInt8) (i : Nat) (events : List GeometryEvent) :
    Prop where
  flags : ∀ m < plan.config.geometry.maxVerticesOut, plan.flagsAt view (plan.placeOf i m) =
    events.foldl (flagsAfter plan.config.topology m) (plan.flagsAt before (plan.placeOf i m))
  fields : ∀ region, plan.layout.vertexAttributes = some region →
    ∀ m < plan.config.geometry.maxVerticesOut, ∀ a ∈ plan.streamAttributes 0,
      plan.fieldAt region view (plan.placeOf i m) a =
        events.foldl (fieldAfter m a) (plan.fieldAt region before (plan.placeOf i m) a)

/-- The events leave what they leave one after the other. -/
theorem Sound.leaves_afterEvents (h : plan.Sound) (hr : plan.flagsRegion 0 = .ok flags)
    (huse : plan.config.geometry.usesStream 0) (hi : i < plan.config.geometry.maxInputPrimitives)
    (events : List GeometryEvent) : plan.Leaves view (plan.afterEvents i events view) i events := by
  induction events generalizing view with
  | nil => exact ⟨fun _ _ => rfl, fun _ _ _ _ _ _ => rfl⟩
  | cons event rest ih =>
    have hrest : plan.Leaves (plan.afterEvent i view event) _ i rest := ih
    refine ⟨fun m hm => ?_, fun region hregion m hm a ha => ?_⟩
    · rw [List.foldl_cons, ← h.flagsAt_afterEvent hr huse hi hm]
      exact hrest.flags m hm
    · rw [List.foldl_cons, ← h.fieldAt_afterEvent hregion huse hi hm ha]
      exact hrest.fields region hregion m hm a ha

/-- Only the bytes of its places matter to an invocation. -/
theorem Leaves.congr {events : List GeometryEvent} (h : plan.Leaves before view' i events) (hsound : plan.Sound)
    (hi : i < plan.config.geometry.maxInputPrimitives)
    (hsame : ∀ a, plan.PlaceStake i a → view a = view' a) : plan.Leaves before view i events where
  flags m hm := by
    rw [← h.flags m hm]
    unfold flagsAt
    split
    · rename_i region hr
      exact hsame _ ⟨hi, .inr ⟨0, region, hr, m, hm, 0, Nat.one_pos, by rw [Nat.mul_one]; rfl⟩⟩
    · rfl
  fields region hr m hm a ha := by
    rw [← h.fields region hr m hm a ha]
    have hfield := hsound.fields a (List.mem_filter.mp ha).1
    exact fieldAt_congr fun j hj => hsame _ ⟨hi, .inl ⟨region, hr, m, hm, a.offset + j, by omega,
      by simp only [Region.fieldAddress]; omega⟩⟩

/-- What is staged behind the body, invocation by invocation. -/
theorem Staged.leaves {source : Workgroup} (h : plan.Staged source before view)
    (hsound : plan.Sound) (hr : plan.flagsRegion 0 = .ok flags) (huse : plan.config.geometry.usesStream 0)
    (hprimitives : source.launch.primitives.size ≤ plan.config.geometry.maxInputPrimitives)
    (hi : i < source.launch.primitives.size) :
    ∃ inv, source.Invokes i (.next inv) ∧ plan.Leaves before view i inv.events := by
  obtain ⟨inv, hinv, hview⟩ := h i hi
  have hlt := Nat.lt_of_lt_of_le hi hprimitives
  exact ⟨inv, hinv, (hsound.leaves_afterEvents hr huse hlt inv.events).congr hsound hlt hview⟩

end GeometryPlan

end PrimitiveShader.Lowering
