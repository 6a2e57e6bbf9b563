import PrimitiveShader.Proofs.Lowering.Compaction
import PrimitiveShader.Proofs.Lowering.Geometry.Finale

/-!
# Exports of live places

With a compaction those places are exported whose flags say that they are live
(`GeometryPlan.Ends.exportLive_scripts`). Every lane finds out whether its place is live and counts the live
places before it; that many is the number of the lane that exports it, and there its number is written down
(`GeometryPlan.Names`). Behind a barrier each lane exports the place that has been named for it.
-/

namespace PrimitiveShader

/-- The lane of a rank is the element of that number among those with the property. -/
theorem getElem?_filter_range {live : Nat → Bool} {i n : Nat} (hi : i < n) (hlive : live i = true) :
    ((List.range n).filter live)[countBelow live i]? = some i := by
  have hcount : ((List.range i).filter live).length = countBelow live i := by
    rw [countBelow, List.countP_eq_length_filter]
  obtain ⟨k, rfl⟩ := Nat.exists_eq_add_of_lt hi
  rw [Nat.add_assoc, List.range_add, List.filter_append, List.getElem?_append_right (by omega), hcount,
    Nat.sub_self, Nat.add_comm k 1, List.range_add]
  simp [hlive]

namespace Lowering.GeometryPlan

open Emit

variable {plan : GeometryPlan} {c : Setting} {group : Workgroup} {faults : Prop} {own : Ownership}
  {id : LaneId} {p source : Program} {t : Thread} {L : Thread → Prop} {view : Nat → UInt8} {live : Nat → Bool}

/-- Whether a lane has a live place, as the flags say. -/
def liveAt (plan : GeometryPlan) (launch : Launch) (view : Nat → UInt8) (i : Nat) : Bool :=
  decide (i < launch.numLanes) && decide (i < plan.placesOf launch) &&
    PrimitiveFlags.isLive ⟨plan.flagsAt view i⟩

section

variable {K : Instr → Prop} [Instr.Common K] (found : Found) (packed : Compaction) (a b : Value) (region : Region)

instance : Novel K plan.findLive := by
  unfold findLive
  infer_instance

instance : Novel K (plan.nameLive found a) := by
  unfold nameLive
  infer_instance

instance : Novel K (plan.exportNamed found a region) := by
  unfold exportNamed
  infer_instance

instance : Novel K (plan.exportBoth found packed a region) := by
  unfold exportBoth
  infer_instance

instance : Straight K (primitiveCount found a) := by
  unfold primitiveCount
  infer_instance

end

section

variable {known : Value → Prop}

theorem clears_placeCount (plan : GeometryPlan) {Q : Value → (Value → Prop) → Prop}
    (hQ : ∀ v known', (∀ u, known u → known' u) → known' v → Q v known') : Clears known plan.placeCount Q :=
  .bind (.input fun _ _ h₁ hinvocations => .binaryImm hinvocations fun v known₂ h₂ hv =>
    hQ v known₂ (fun u hu => h₂ u (h₁ u hu)) hv)

/-- Which lanes look at flags is settled by the number of places. -/
theorem clears_findLive (plan : GeometryPlan) : Clears known plan.findLive fun _ _ => True := by
  refine .bind (plan.clears_placeCount fun places known₁ _ hplaces => ?_)
  refine .bind (.input fun lane known₂ h₂ hlane => .bind (.bind ?_))
  refine .straight fun var => .bind (.straight fun none_ => .bind (.straight fun _ => .bind ?_))
  refine .binary hlane (h₂ places hplaces) fun hasPlace known₃ _ hhas => .bind (.ifThen hhas ?_ ?_)
  · exact .straight fun _ => trivial
  · exact fun _ _ => .straight fun _ => .straight fun _ => trivial

variable {found : Found} {region : Region}

/-- Places are named in the region for that. -/
theorem eq_of_nameLive {rank : Value} {region' : Region}
    {p' : Program} (hregion : plan.layout.compactionIndex = some region)
    (h : plan.nameLive found rank p = .ok (region', p')) : region' = region := by
  obtain ⟨r, p₁, hr, h⟩ := bind_eq_ok_iff.mp h
  obtain ⟨-, p₂, -, h⟩ := bind_eq_ok_iff.mp h
  obtain ⟨rfl, -⟩ := pure_eq_ok_iff.mp h
  obtain ⟨hr, -⟩ := lift_eq_ok_iff.mp hr
  unfold compactionRegion at hr
  rw [hregion] at hr
  cases hr
  rfl

/-- Who names a place is settled by what is live. -/
theorem clears_nameLive (plan : GeometryPlan) (found : Found) (rank : Value) (hlive : known found.live) :
    Clears known (plan.nameLive found rank) fun _ _ => True :=
  .bind (.straight fun _ => .bind (.ifThen hlive (.straight fun _ => trivial) fun _ _ => .pure trivial))

/-- Which lanes export is settled by the numbers of primitives and vertices. -/
theorem clears_exportBoth (plan : GeometryPlan) {packed : Compaction}
    {primitives : Value} (hlane : known found.lane) (htotal : known packed.total) (hcount : known primitives) :
    Clears known (plan.exportBoth found packed primitives region) fun _ _ => True := by
  refine .bind (.binary hlane hcount fun exports known₁ h₁ hexports => .bind (.ifThen hexports ?_ ?_))
  · exact .straight fun _ => trivial
  · intro known₂ h₂
    refine .bind (.binary (h₂ _ (h₁ _ hlane)) (h₂ _ (h₁ _ htotal)) fun exports known₃ _ hexports => ?_)
    exact .ifThen hexports (.straight fun _ => trivial) fun _ _ => trivial

end

/-- The lane knows what it was to find out. -/
structure Knowing (plan : GeometryPlan) (launch : Launch) (view : Nat → UInt8) (found : Found)
    (p : Program) (i : Nat) (t : Thread) : Prop where
  places : Knows p t found.places .u32 (UInt64.ofNat (plan.placesOf launch))
  lane : Knows p t found.lane .u32 (UInt64.ofNat i)
  flags : Knows p t found.flags .u8
    (if i < plan.placesOf launch then plan.flagsAt view i else 0).toUInt64
  live : Knows p t found.live .bool (plan.liveAt launch view i).toUInt64

variable {packed : Compaction} {found : Found} {launch : Launch} {i : Nat} {view' view'' : Nat → UInt8}
  {space : Option Allocation} {p' : Program} {region : Region} {t' : Thread} {primitives : Value}

theorem Knowing.later (h : plan.Knowing launch view found p i t) (hl : Later p t p' t') :
    plan.Knowing launch view found p' i t' :=
  ⟨h.places.later hl, h.lane.later hl, h.flags.later hl, h.live.later hl⟩

/-- Which places are live depends on the flags only. -/
theorem liveAt_congr (h : ∀ i < plan.placesOf launch, plan.flagsAt view' i = plan.flagsAt view i) :
    plan.liveAt launch view' = plan.liveAt launch view := by
  funext i
  unfold liveAt
  by_cases hi : i < plan.placesOf launch
  · rw [h i hi]
  · simp [hi]

theorem Knowing.congr (h : plan.Knowing launch view' found p i t)
    (hflags : ∀ i < plan.placesOf launch, plan.flagsAt view' i = plan.flagsAt view i) :
    plan.Knowing launch view found p i t where
  places := h.places
  lane := h.lane
  flags := by
    have hold := h.flags
    by_cases hi : i < plan.placesOf launch
    · rw [if_pos hi] at hold ⊢
      rwa [hflags i hi] at hold
    · rwa [if_neg hi] at hold ⊢
  live := liveAt_congr hflags ▸ h.live

/-- Whether a vertex is live, as the code finds it out. -/
theorem live_eval (flags : UInt8) : BinaryOp.ne.eval .u8 (BinaryOp.and.eval .u8 flags.toUInt64
      (PrimitiveFlags.liveBit.toUInt64 &&& ScalarType.u8.mask)) (0 &&& ScalarType.u8.mask) =
    (PrimitiveFlags.isLive ⟨flags⟩).toUInt64 := by
  have hall : ∀ n < 256, BinaryOp.ne.eval .u8 (BinaryOp.and.eval .u8 (UInt8.ofNat n).toUInt64
      (PrimitiveFlags.liveBit.toUInt64 &&& ScalarType.u8.mask)) (0 &&& ScalarType.u8.mask) =
      (PrimitiveFlags.isLive ⟨UInt8.ofNat n⟩).toUInt64 := by
    decide +kernel
  have hflags := hall flags.toNat flags.toNat_lt
  rwa [UInt8.ofNat_toNat] at hflags

/-- Every lane finds out whether its place is live. -/
theorem Ends.wp_findLive (h : plan.Ends group) (hshows : plan.Shows ⟨group, own, faults⟩)
    (hi : i < group.launch.numLanes) (ht : Poised view t) {Q : Found → Program → Thread → Prop}
    (hQ : ∀ found p' t', Poised view t' → t'.space = t.space →
      plan.Knowing group.launch view found p' i t' → Q found p' t') :
    Emit.wp ⟨group, own, faults⟩ (group.laneId i) plan.findLive p Q L t := by
  have hlanes := h.launched.numLanes_le
  refine wp_bind (wp_placeCount h.toSound h.invocations h.capacity fun places p₁ t₁ h₁ hplaces => ?_)
  refine wp_bind (wp_input fun lane p₂ t₂ h₂ hlane => ?_)
  change Knows p₂ t₂ lane .u32 (UInt64.ofNat i) at hlane
  have hplaces₂ := hplaces.computed h₂
  have ht₂ := (ht.computed h₁).computed h₂
  refine wp_bind (wp_placeFlags hshows (by omega) (placesOf_le h.invocations) hlane hplaces₂
    fun flags p₃ t₃ h₃ hflags => ?_)
  rw [ht₂.view] at hflags
  refine wp_bind (wp_binaryImm hflags rfl fun bit p₄ t₄ h₄ hbit => ?_)
  refine wp_bind (wp_binaryImm hbit rfl fun live p₅ t₅ h₅ hlive => ?_)
  rw [live_eval] at hlive
  have h₃₅ := h₄.trans h₅
  refine wp_pure (hQ _ p₅ t₅ ((ht₂.adjusted h₃).computed h₃₅) ?_ ⟨?_, ?_, ?_, ?_⟩)
  · rw [h₃₅.space, h₃.space, h₂.space, h₁.space]
  · exact (hplaces₂.later h₃.toLater).computed h₃₅
  · exact (hlane.later h₃.toLater).computed h₃₅
  · exact hflags.computed h₃₅
  · have hsame : PrimitiveFlags.isLive ⟨if i < plan.placesOf group.launch then plan.flagsAt view i else 0⟩ =
          plan.liveAt group.launch view i := by
      unfold liveAt
      by_cases hlt : i < plan.placesOf group.launch
      · simp [hi, hlt]
      · simp only [hlt, ↓reduceIte, decide_false, Bool.and_false, Bool.false_and]
        rfl
    rwa [hsame] at hlive

section

theorem liveAt_beyond (h : launch.numLanes ≤ i) : plan.liveAt launch view i = false := by
  simp [liveAt, Nat.not_lt.mpr h]

theorem lt_of_liveAt (h : plan.liveAt launch view i = true) : i < launch.numLanes ∧ i < plan.placesOf launch := by
  unfold liveAt at h
  simp only [Bool.and_eq_true, decide_eq_true_eq] at h
  exact h.1

/-- The live places are counted by the lanes that have them. -/
theorem length_livePlaces : (plan.livePlaces launch (plan.liveAt launch view)).length =
      countBelow (plan.liveAt launch view) launch.numLanes := by
  have hbeyond : ∀ i, plan.placesOf launch ≤ i → plan.liveAt launch view i = false := fun i hi => by
    simp [liveAt, Nat.not_lt.mpr hi]
  have hlength : (plan.livePlaces launch (plan.liveAt launch view)).length =
      countBelow (plan.liveAt launch view) (plan.placesOf launch) := by
    rw [livePlaces, countBelow, List.countP_eq_length_filter]
  rw [hlength]
  rcases Nat.le_total launch.numLanes (plan.placesOf launch) with hle | hle
  · exact countBelow_eq_of_le hle fun i hi => liveAt_beyond hi
  · exact (countBelow_eq_of_le hle hbeyond).symm

/-- The rank of a live place is below the number of live places. -/
theorem countBelow_liveAt_lt (h : plan.liveAt launch view i = true) :
    countBelow (plan.liveAt launch view) i < (plan.livePlaces launch (plan.liveAt launch view)).length := by
  rw [length_livePlaces]
  exact countBelow_lt (lt_of_liveAt h).1 h

theorem length_livePlaces_le (plan : GeometryPlan) (launch : Launch) (live : Nat → Bool) :
    (plan.livePlaces launch live).length ≤ plan.placesOf launch := by
  have := List.length_filter_le live (List.range (plan.placesOf launch))
  rwa [List.length_range] at this

/-- The number of primitives, as the code finds it out. -/
theorem wp_primitiveCount (hknowing : plan.Knowing launch view found p i t)
    (hsmall : plan.placesOf launch ≤ 256) {total : Value} (htotal : Knows p t total .u32
      (UInt64.ofNat (plan.livePlaces launch live).length)) {Q : Value → Program → Thread → Prop}
    (hQ : ∀ v p' t', Computed p t p' t' →
      Knows p' t' v .u32 (UInt64.ofNat (plan.spaceFor launch live).primitives) → Q v p' t') :
    Emit.wp c id (primitiveCount found total) p Q L t := by
  have hle := plan.length_livePlaces_le launch live
  refine wp_bind (wp_binaryImm htotal rfl fun any p₁ t₁ h₁ hany => ?_)
  refine wp_bind (wp_imm32 (by decide) fun zero p₂ t₂ h₂ hzero => ?_)
  have h₁₂ := h₁.trans h₂
  refine wp_select (hany.computed h₂) (hknowing.places.computed h₁₂) hzero nofun
    fun v p₃ t₃ h₃ hv => hQ v p₃ t₃ (h₁₂.trans h₃) ?_
  have heval : (if BinaryOp.ne.eval .u32 (UInt64.ofNat (plan.livePlaces launch live).length)
      (0 &&& ScalarType.u32.mask) = 0 then UInt64.ofNat 0 else UInt64.ofNat (plan.placesOf launch)) =
      UInt64.ofNat (plan.spaceFor launch live).primitives := by
    unfold spaceFor
    by_cases hnil : plan.livePlaces launch live = []
    · rw [hnil]
      rfl
    · have hne : UInt64.ofNat (plan.livePlaces launch live).length ≠ 0 := by
        rw [Ne, ofNat_eq_zero_iff (by omega), List.length_eq_zero_iff]
        exact hnil
      have htrue : BinaryOp.ne.eval .u32 (UInt64.ofNat (plan.livePlaces launch live).length)
          (0 &&& ScalarType.u32.mask) ≠ 0 := by
        rw [UInt64.zero_and, BinaryOp.eval, bne_iff_ne.mpr hne]
        decide
      rw [if_neg htrue, if_neg hnil]
  rwa [heval] at hv

/-- The bytes once lane `i` has named its place. -/
def named (region : Region) (live : Nat → Bool) (i : Nat) (view : Nat → UInt8) : Nat → UInt8 :=
  if live i then overwrite view (region.offset + countBelow live i) 1 (UInt64.ofNat i) else view

/-- A lane with a live place owns the byte of its rank. -/
def NameStake (region : Region) (live : Nat → Bool) (i a : Nat) : Prop :=
  live i = true ∧ a = region.offset + countBelow live i

theorem nameStake_unique (i j a : Nat) (hi : NameStake region live i a) (hj : NameStake region live j a) : i = j := by
  obtain ⟨hi, rfl⟩ := hi
  obtain ⟨hj, heq⟩ := hj
  exact eq_of_countBelow_eq hi hj (by omega)

end

/-- The lanes with live places name them. -/
theorem Ends.wp_nameLive (h : plan.Ends group)
    (hregion : plan.layout.compactionIndex = some region) (hsize : region.size = plan.places)
    (hknowing : plan.Knowing group.launch view found p i t) {rank : Value}
    (hrank : Knows p t rank .u32 (UInt64.ofNat (countBelow (plan.liveAt group.launch view) i)))
    {Q : Region → Program → Thread → Prop}
    (hQ : ∀ p' t', Computed p (t.see (named region (plan.liveAt group.launch view) i t.view)) p' t' → Q region p' t') :
    Emit.wp ⟨group, .ofStakes (NameStake region (plan.liveAt group.launch view)), faults⟩
      (group.laneId i) (plan.nameLive found rank) p Q L t := by
  have hsmall := h.placesOf_small
  unfold nameLive compactionRegion
  rw [hregion]
  refine wp_bind (wp_lift fun r hr => ?_)
  cases hr
  refine wp_bind (wp_ifThen hknowing.live (fun hne p₁ h₁ => ?_) fun hz p₁ h₁ => ?_)
  · have hlive : plan.liveAt group.launch view i = true := by
      simpa [toUInt64_eq_zero_iff] using hne
    have hplace := (lt_of_liveAt hlive).2
    have hlt := Nat.lt_of_lt_of_le (countBelow_liveAt_lt hlive) (plan.length_livePlaces_le _ _)
    have hplaces := placesOf_le h.invocations
    have hcut : ScalarType.u8.convert (UInt64.ofNat i) = UInt64.ofNat i := by
      refine ScalarType.and_mask_eq ?_
      rw [toNat_ofNat_of_lt (by omega)]
      exact Nat.lt_of_lt_of_le hplace hsmall
    have haddr : region.fieldAddress (countBelow (plan.liveAt group.launch view) i) 1 0 =
        region.offset + countBelow (plan.liveAt group.launch view) i := by
      simp only [Region.fieldAddress, Nat.mul_one, Nat.add_zero]
    refine wp_bind (wp_convert (hknowing.lane.later h₁) (by decide) (by decide) fun place p₂ t₂ h₂ hplace => ?_)
    rw [if_neg (by decide), hcut] at hplace
    refine Region.wp_store hplace rfl ((hrank.later h₁).computed h₂) ⟨by omega, ?_, ?_⟩
      (fun _ j hj => ?_) fun p₃ t₃ h₃ p₄ h₄ => wp_pure (hQ p₄ t₃ ?_)
    · change region.offset + region.size ≤ group.program.sharedSize
      rw [h.share]
      exact h.regions.bounded 2 region hregion
    · change group.program.sharedSize < 2 ^ 32
      rw [h.share]
      exact h.small
    · obtain rfl : j = 0 := by simp only [ScalarType.bytes] at hj; omega
      rw [haddr]
      exact Ownership.ofStakes_eq nameStake_unique ⟨hlive, rfl⟩
    · rw [haddr, h₂.view] at h₃
      rw [named, if_pos hlive]
      have hmoved := (Computed.of_within h₁.within).trans h₂
      exact ((hmoved.withView _).trans h₃).trans (.of_within h₄.within)
  · have hdead : plan.liveAt group.launch view i = false := by
      simpa [toUInt64_eq_zero_iff] using hz
    refine wp_pure (hQ p₁ t ?_)
    rw [named, hdead, if_neg Bool.false_ne_true]
    exact .of_within h₁.within

/-- All that lane `i` knows when it comes to exports. -/
structure Armed (plan : GeometryPlan) (launch : Launch) (view view' : Nat → UInt8) (found : Found)
    (packed : Compaction) (primitives : Value) (space : Option Allocation) (p : Program) (i : Nat)
    (t : Thread) : Prop where
  knowing : plan.Knowing launch view found p i t
  poised : Poised view' t
  space : i = 0 → t.space = space
  total : Knows p t packed.total .u32
    (UInt64.ofNat (plan.livePlaces launch (plan.liveAt launch view)).length)
  rank : Knows p t packed.rank .u32 (UInt64.ofNat (countBelow (plan.liveAt launch view) i))
  count : Knows p t primitives .u32
    (UInt64.ofNat (plan.spaceFor launch (plan.liveAt launch view)).primitives)

section

variable (h : plan.Armed launch view view' found packed primitives space p i t)
include h

/-- The same lane later, with other bytes to see. -/
theorem Armed.moved
    (hc : Computed p (t.see view'') p' t') : plan.Armed launch view view'' found packed primitives space p' i t' := by
  have hl : Later p t p' t' := ⟨hc.within, hc.read⟩
  exact ⟨h.knowing.later hl, (h.poised.see view'').computed hc, fun hz => hc.space.trans (h.space hz),
    h.total.later hl, h.rank.later hl, h.count.later hl⟩

/-- The same lane after a request for space. -/
theorem Armed.asked {granted : Allocation} (hc : Computed p (t.asked i granted) p' t') :
    plan.Armed launch view view' found packed primitives (some granted) p' i t' := by
  have hl : Later p t p' t' := (Thread.later_asked p t i granted).trans ⟨hc.within, hc.read⟩
  refine ⟨h.knowing.later hl, (h.poised.asked i granted).computed hc, fun hz => ?_, h.total.later hl,
    h.rank.later hl, h.count.later hl⟩
  rw [hc.space, hz]
  rfl

end

/-- The bytes name the live places, and the vertices there are those of `view`. -/
structure Names (plan : GeometryPlan) (launch : Launch) (view view' : Nat → UInt8) (region : Region) :
    Prop where
  index : plan.layout.compactionIndex = some region
  size : region.size = plan.places
  named : ∀ j, plan.liveAt launch view j = true →
    (view' (region.offset + countBelow (plan.liveAt launch view) j)).toNat = j
  fields : ∀ place, plan.liveAt launch view place = true →
    plan.vertexAt view' place [] = plan.vertexAt view place []

/-- A lane exports the place that has been named for it. -/
theorem Ends.wp_exportNamed (h : plan.Ends group) (hnames : plan.Names group.launch view view' region) {total : Value}
    (hi : i < group.launch.numLanes) (hknowing : plan.Knowing group.launch view found p i t)
    (htotal : Knows p t total .u32 (UInt64.ofNat (plan.livePlaces group.launch (plan.liveAt group.launch view)).length))
    (hview : t.view = view') (houtputs : t.lane.outputs = []) (hvertices : t.vertices = [])
    {Q : Unit → Program → Thread → Prop} (hQ : ∀ p' t', t'.primitives = t.primitives → t'.space = t.space →
      t'.vertices = (plan.livePlaces group.launch (plan.liveAt group.launch view))[i]?.toList.map
        (fun place => plan.vertexAt view place []) → Q () p' t') :
    Emit.wp ⟨group, fun _ => none, faults⟩ (group.laneId i) (plan.exportNamed found total region) p Q L t := by
  have hshows : plan.Shows ⟨group, fun _ => none, faults⟩ := h.shows fun _ _ _ _ _ _ => rfl
  have hsmall := h.placesOf_small
  have hlanes := h.launched.numLanes_le
  have hle := plan.length_livePlaces_le group.launch (plan.liveAt group.launch view)
  have hplaces := placesOf_le h.invocations
  refine wp_bind (wp_binary hknowing.lane htotal rfl fun exports p₁ t₁ h₁ hexports => ?_)
  rw [BinaryOp.eval_lt_ofNat (by omega) (by omega)] at hexports
  refine wp_ifThen hexports (fun hne p₂ h₂ => ?_) fun hz p₂ h₂ => ?_
  · have hlt : i < (plan.livePlaces group.launch (plan.liveAt group.launch view)).length := by
      simpa [toUInt64_eq_zero_iff] using hne
    obtain ⟨j, hj, hlive, hrank⟩ := exists_countBelow_eq (length_livePlaces ▸ hlt)
    have hplace := (lt_of_liveAt hlive).2
    have hholds : region.Holds (Setting.program ⟨group, fun _ => none, faults⟩) i 1 := by
      refine ⟨by have := hnames.size; omega, ?_, ?_⟩
      · change region.offset + region.size ≤ group.program.sharedSize
        rw [h.share]
        exact h.regions.bounded 2 region hnames.index
      · change group.program.sharedSize < 2 ^ 32
        rw [h.share]
        exact h.small
    have haddr : region.fieldAddress i 1 0 = region.offset + i := by
      simp only [Region.fieldAddress, Nat.mul_one, Nat.add_zero]
    refine wp_bind (Region.wp_load ((hknowing.lane.computed h₁).later h₂) hholds rfl (fun _ _ _ => rfl)
      fun place p₃ t₃ h₃ hplace₃ => ?_)
    have hname := hnames.named j hlive
    rw [hrank] at hname
    have hbyte : (view' (region.offset + i)).toUInt64 = UInt64.ofNat j := by
      rw [← UInt64.toNat_inj, UInt8.toNat_toUInt64, toNat_ofNat_of_lt (by omega), hname]
    rw [haddr, show ScalarType.u8.bytes = 1 from rfl, littleEndian_one, h₁.view, hview, hbyte] at hplace₃
    have hwide : ScalarType.u32.convert (UInt64.ofNat j) = UInt64.ofNat j := ofNat_and_mask (by omega)
    refine wp_bind (wp_convert hplace₃ (by decide) (by decide) fun wide p₄ t₄ h₄ hwide₄ => ?_)
    rw [if_neg (by decide), hwide] at hwide₄
    have h₂₄ := h₃.trans h₄
    refine wp_exportVertex hshows (Nat.lt_of_lt_of_le hplace hplaces) hwide₄
      fun p₅ t₅ h₅ hprimitives hspace hexported p₆ h₆ => hQ p₆ t₅ ?_ ?_ ?_
    · rw [hprimitives, h₂₄.primitives, h₁.primitives]
    · rw [hspace, h₂₄.space, h₁.space]
    · have hget := getElem?_filter_range hplace hlive
      rw [hrank] at hget
      rw [hexported, livePlaces, hget, h₂₄.vertices, h₁.vertices, hvertices, h₂₄.view, h₁.view, hview,
        h₂₄.outputs, h₁.outputs, houtputs, hnames.fields j hlive]
      rfl
  · have hge : ¬ i < (plan.livePlaces group.launch (plan.liveAt group.launch view)).length := by
      simpa [toUInt64_eq_zero_iff] using hz
    refine hQ p₂ t₁ h₁.primitives h₁.space ?_
    rw [List.getElem?_eq_none (Nat.not_lt.mp hge), h₁.vertices, hvertices]
    rfl

/-- A lane exports its primitive and the place that has been named for it. -/
theorem Ends.wp_exportBoth (h : plan.Ends group)
    (hnames : plan.Names group.launch view view' region) (hi : i < group.launch.numLanes)
    (ht : plan.Armed group.launch view view' found packed primitives
      (some (plan.spaceFor group.launch (plan.liveAt group.launch view))) p i t) :
    Emit.wp ⟨group, fun _ => none, faults⟩ (group.laneId i) (plan.exportBoth found packed primitives region) p
      (fun _ _ => plan.Delivers group.launch view (plan.liveAt group.launch view) i) L t := by
  have hsmall := h.placesOf_small
  have hlanes := h.launched.numLanes_le
  have hlimit := plan.primitives_spaceFor_le group.launch (plan.liveAt group.launch view)
  refine wp_bind (wp_binary ht.knowing.lane ht.count rfl fun exports p₁ t₁ h₁ hexports => ?_)
  rw [BinaryOp.eval_lt_ofNat (by omega) (by omega)] at hexports
  have hposed := ht.poised.computed h₁
  refine wp_bind (wp_ifThen hexports (fun hne p₂ h₂ => ?_) fun hz p₂ h₂ => ?_)
  · have hlt : i < (plan.spaceFor group.launch (plan.liveAt group.launch view)).primitives := by
      simpa [toUInt64_eq_zero_iff] using hne
    have hle := countBelow_le (plan.liveAt group.launch view) i
    have hrank := (ht.rank.computed h₁).later h₂
    rw [ofNat_toUInt64 (by omega)] at hrank
    have hflags := (ht.knowing.flags.computed h₁).later h₂
    rw [if_pos (by omega)] at hflags
    refine wp_exportPrimitive hrank hflags fun p₃ t₃ h₃ p₄ h₄ => ?_
    have hlater : Later p t p₄ t₃ := (h₁.toLater.trans h₂).trans ⟨h₃.within.trans h₄.within, h₃.read⟩
    refine h.wp_exportNamed hnames hi (ht.knowing.later hlater) (ht.total.later hlater)
      (h₃.view.trans hposed.view) (h₃.outputs.trans hposed.outputs) (h₃.vertices.trans hposed.vertices)
      fun p₅ t₅ hprimitives hspace hvertices => ⟨fun hz => ?_, ?_, hvertices⟩
    · rw [hspace, h₃.space]
      exact h₁.space.trans (ht.space hz)
    · rw [if_pos hlt, hprimitives, h₃.primitives]
      change t₁.primitives ++ _ = _
      rw [hposed.primitives, List.nil_append]
  · have hge : ¬ i < (plan.spaceFor group.launch (plan.liveAt group.launch view)).primitives := by
      simpa [toUInt64_eq_zero_iff] using hz
    have hlater : Later p t p₂ t₁ := h₁.toLater.trans h₂
    refine h.wp_exportNamed hnames hi (ht.knowing.later hlater) (ht.total.later hlater) hposed.view
      hposed.outputs hposed.vertices fun p₅ t₅ hprimitives hspace hvertices =>
        ⟨fun hz => ?_, ?_, hvertices⟩
    · rw [hspace, h₁.space, ht.space hz]
    · rw [if_neg hge, hprimitives, hposed.primitives]

/-- The same bytes of flags and vertices show the same. -/
theorem Ends.agrees_of_same (h : plan.Ends group) (live : Nat → Bool)
    (hsame : ∀ role region, (role = 1 ∨ role = 4) → plan.layout.slot role = some region →
      ∀ j < region.size, view' (region.offset + j) = view (region.offset + j)) :
    plan.Agrees group.launch live view' view where
  flags i hi := by
    have hplace := Nat.lt_of_lt_of_le hi (placesOf_le h.invocations)
    unfold flagsAt
    split
    · rename_i region hr
      exact hsame 4 region (.inr rfl) (flagsRegion_eq_ok hr) i (h.flags 0 region hr ▸ hplace)
    · rfl
  vertices i hi _ := by
    have hplace := Nat.lt_of_lt_of_le hi (placesOf_le h.invocations)
    refine vertexAt_congr (fun region hr a ha j hj => ?_) _
    have hbyte := hsame 1 region (.inl rfl) hr _ (h.component_lt hr hplace (List.mem_filter.mp ha).1 hj)
    rwa [← Nat.add_assoc, ← Nat.add_assoc] at hbyte

theorem Agrees.trans (h : plan.Agrees launch live view view') (h' : plan.Agrees launch live view' view'') :
    plan.Agrees launch live view view'' :=
  ⟨fun i hi => (h.flags i hi).trans (h'.flags i hi),
    fun i hi hlive => (h.vertices i hi hlive).trans (h'.vertices i hi hlive)⟩

/-- Behind a compaction a lane sees the same flags and vertices as before. -/
theorem Ends.agrees_of_outside (h : plan.Ends group) (live : Nat → Bool)
    (houtside : ∀ a, Outside plan.layout.waveCounts a → view' a = view a) :
    plan.Agrees group.launch live view' view := by
  refine h.agrees_of_same live fun role other hrole hother j hj => houtside _ fun counts hscratch => ?_
  have hapart := h.regions.disjoint role 0 other counts (by omega) hother hscratch
  omega

section

variable (hregion : plan.layout.compactionIndex = some region) (hsize : region.size = plan.places)
include hregion hsize

variable (h : plan.Ends group)
include h

/-- Names are written to the region for them only. -/
theorem Ends.ofStakes_nameStake (view : Nat → UInt8) {role : Nat}
    (hrole : role ≠ 2) {other : Region} (hother : plan.layout.slot role = some other) {j : Nat} (hj : j < other.size) :
    Ownership.ofStakes (NameStake region (plan.liveAt group.launch view)) (other.offset + j) = none := by
  refine Ownership.ofStakes_eq_none fun i ⟨hlive, haddr⟩ => ?_
  have hlt := Nat.lt_of_lt_of_le (countBelow_liveAt_lt hlive) (plan.length_livePlaces_le _ _)
  have hplaces : plan.placesOf group.launch ≤ plan.places := placesOf_le h.invocations
  have hapart := h.regions.disjoint role 2 other region hrole hother hregion
  omega

/-- While the live places are counted, nobody owns a byte of a flag or of a vertex. -/
theorem Ends.shows_counting (hcounts : CountsFit group plan.layout.waveCounts) :
    plan.Shows ⟨group, countingOwner group plan.layout.waveCounts
      (.ofStakes (NameStake region (plan.liveAt group.launch view))), faults⟩ := by
  refine h.shows fun role other hrole hother j hj => ?_
  cases hscratch : plan.layout.waveCounts with
  | none => exact h.ofStakes_nameStake hregion hsize view (by omega) hother hj
  | some counts =>
    rw [hscratch] at hcounts
    have hwaves := HoldsCounts.waves hcounts
    have hapart := h.regions.disjoint role 0 other counts (by omega) hother hscratch
    exact if_neg (by omega)

/-- What the lanes know of the names once they have met. -/
theorem Ends.names_of_meet {T : Nat → Thread}
    (hT : ∀ i < group.launch.numLanes, ∃ seen, plan.Agrees group.launch (plan.liveAt group.launch view) seen view ∧
      (T i).view = named region (plan.liveAt group.launch view) i seen) (hagree : ∀ i < group.launch.numLanes, ∀ a,
      Ownership.ofStakes (NameStake region (plan.liveAt group.launch view)) a = none ∨
      Ownership.ofStakes (NameStake region (plan.liveAt group.launch view)) a = some i → (T i).view a = view' a) :
    plan.Names group.launch view view' region where
  index := hregion
  size := hsize
  named j hlive := by
    obtain ⟨hj, hplace⟩ := lt_of_liveAt hlive
    obtain ⟨seen, -, hseen⟩ := hT j hj
    rw [← hagree j hj _ (.inr (Ownership.ofStakes_eq nameStake_unique ⟨hlive, rfl⟩)), hseen, named, if_pos hlive]
    simp only [overwrite, Nat.le_refl, Nat.lt_succ_self, and_self, ↓reduceIte, Nat.sub_self]
    exact Bits.toNat_byte_ofNat (Nat.lt_of_lt_of_le hplace h.placesOf_small)
  fields place hlive := by
    obtain ⟨hj, hplace⟩ := lt_of_liveAt hlive
    obtain ⟨seen, hshown, hseen⟩ := hT place hj
    have hlt := Nat.lt_of_lt_of_le (countBelow_liveAt_lt hlive) (plan.length_livePlaces_le _ _)
    have hplaces : plan.placesOf group.launch ≤ plan.places := placesOf_le h.invocations
    rw [← hshown.vertices place hplace hlive]
    refine vertexAt_congr (fun attributes hr a ha j hj' => ?_) _
    -- The lane of the place sees its components as before; it has written a name only.
    have hin := h.component_lt hr (Nat.lt_of_lt_of_le hplace hplaces) (List.mem_filter.mp ha).1 hj'
    have hfree := h.ofStakes_nameStake hregion hsize view (by decide : 1 ≠ 2) hr hin
    have hapart := h.regions.disjoint 1 2 attributes region (by decide) hr hregion
    rw [← Nat.add_assoc, ← Nat.add_assoc] at hfree
    unfold Region.fieldAddress
    rw [← hagree place hj _ (.inl hfree), hseen, named, if_pos hlive]
    exact if_neg (by omega)

theorem Ends.exportLive_scripts (hcounts : CountsFit group plan.layout.waveCounts)
    (hsource : source.Within p) {goal : (Nat → Thread) → Prop} (hgoal : ∀ T : Nat → Thread,
      (∀ i < group.launch.numLanes, plan.Delivers group.launch view (plan.liveAt group.launch view) i (T i)) → goal T) :
    Scripts group goal (countingOwner group plan.layout.waveCounts
        (.ofStakes (NameStake region (plan.liveAt group.launch view))))
      (fun _ t => plan.Primed group.launch (plan.liveAt group.launch view) view t ∧ t.space = none)
      plan.exportLive p := by
  have hsmall := h.placesOf_small
  unfold exportLive exportPacked
  refine .each hsource h.fits (.none group _ p) plan.clears_findLive (M := fun found p₁ i t₁ =>
    plan.Knowing group.launch view found p₁ i t₁ ∧
      plan.Primed group.launch (plan.liveAt group.launch view) view t₁ ∧ t₁.space = none)
    (fun i hi t ht => ?_) fun found p₁ _ hsource₁ => ?_
  · obtain ⟨⟨view', hagree, hposed⟩, hspace⟩ := ht
    exact h.wp_findLive (h.shows_counting hregion hsize hcounts) hi hposed fun found p₁ t₁ hposed₁ hspace₁ hknowing =>
        ⟨hknowing.congr hagree.flags, ⟨view', hagree, hposed₁⟩, hspace₁.trans hspace⟩
  refine compactLanes_scripts hsource₁ h.fits hcounts (fun i => liveAt_beyond)
    (fun i _ t ht => ht.1.live) (fun counts hscratch j hj => ?_) fun packed p₂ _ hsource₂ => ?_
  · exact h.ofStakes_nameStake hregion hsize view (by decide : 0 ≠ 2) hscratch hj
  refine .each hsource₂ h.fits (.none group _ p₂) (.straight fun _ => trivial) (M := fun primitives p₃ i t₃ => ∃ view',
      plan.Agrees group.launch (plan.liveAt group.launch view) view' view ∧
      plan.Armed group.launch view view' found packed primitives none p₃ i t₃)
    (fun i hi u hu => ?_) fun primitives p₃ _ hsource₃ => ?_
  · obtain ⟨t, view', ⟨hknowing, ⟨seen, hagree, hposed⟩, hspace⟩, houtside, hcomputed, htotal, hrank⟩ := hu
    rw [← length_livePlaces] at htotal
    have hknowing₂ : plan.Knowing group.launch view found p₂ i u := hknowing.later ⟨hcomputed.within, hcomputed.read⟩
    refine wp_primitiveCount hknowing₂ hsmall htotal fun primitives p₃ t₃ h₃ hcount =>
      ⟨view', (h.agrees_of_outside _ fun a ha => ?_).trans hagree, hknowing₂.later h₃.toLater,
        ((hposed.see view').computed hcomputed).computed h₃, fun _ => ?_, htotal.computed h₃, hrank.computed h₃, hcount⟩
    · rw [houtside a ha, hposed.view]
    · rw [h₃.space, hcomputed.space]
      exact hspace
  refine .bind hsource₃ (.none group _ p₃) (clears_requestSpace _ _ _ _) (M := fun _ p₄ i t₄ => ∃ view',
    plan.Agrees group.launch (plan.liveAt group.launch view) view' view ∧
    plan.Armed group.launch view view' found packed primitives
      (some (plan.spaceFor group.launch (plan.liveAt group.launch view))) p₄ i t₄)
    (fun id hid T hT => ?_) fun _ p₄ _ hsource₄ => ?_
  · have hfirst : id = 0 → 0 ∈ (Setting.launched ⟨group, .ofStakes (NameStake region
        (plan.liveAt group.launch view)), False⟩ id).lanes := by
      rintro rfl
      exact Setting.zero_mem_launched h.launched.lanes
    have hleast := plan.length_livePlaces_le group.launch (plan.liveAt group.launch view)
    have hmost := plan.primitives_spaceFor_le group.launch (plan.liveAt group.launch view)
    refine (requestSpace_brings h.fits hid (fun hz => (hT 0 (hfirst hz)).elim fun _ ht => ht.2.total)
      (fun hz => (hT 0 (hfirst hz)).elim fun _ ht => ht.2.count)
      fun hz => (hT 0 (hfirst hz)).elim fun _ ht => ht.2.space (by simp [hz, Setting.index, Wave.laneId])
      ).mono fun _ p₄ T₄ h₄ l hl => ?_
    have hc := h₄ l hl
    rw [toNat_toUInt32_ofNat (by omega), toNat_toUInt32_ofNat (by omega)] at hc
    obtain ⟨view', hagree, ht⟩ := hT l hl
    exact ⟨view', hagree, ht.asked hc⟩
  refine .each hsource₄ h.fits ?_ (show Clears (· = found.live) _ _ from plan.clears_nameLive found packed.rank rfl)
    (M := fun _ p₅ i t₅ => ∃ view', plan.Agrees group.launch (plan.liveAt group.launch view) view' view ∧
      plan.Armed group.launch view (named region (plan.liveAt group.launch view) i view') found packed
        primitives (some (plan.spaceFor group.launch (plan.liveAt group.launch view))) p₅ i t₅)
    (fun i hi t ht => ?_) fun region' p₅ hp₅ hsource₅ => ?_
  · rintro v rfl
    exact ⟨_, _, fun i _ t ht => ht.elim fun _ ht => ht.2.knowing.live⟩
  · obtain ⟨view', hagree, ht⟩ := ht
    exact h.wp_nameLive hregion hsize ht.knowing ht.rank fun p₅ t₅ hc =>
      ⟨view', hagree, ht.moved (ht.poised.view ▸ hc)⟩
  obtain rfl : region' = region := eq_of_nameLive hregion hp₅
  refine .barrier (fun _ => none) (fun p₆ i t₆ => ∃ view', plan.Names group.launch view view' region' ∧
    plan.Armed group.launch view view' found packed primitives
      (some (plan.spaceFor group.launch (plan.liveAt group.launch view))) p₆ i t₆)
    (fun T view' p₆ h₆ hT hagree i hi => ?_) fun p₆ h₆ => ?_
  · refine ⟨view', h.names_of_meet hregion hsize (fun j hj => ?_) hagree, ?_⟩
    · obtain ⟨seen, hshown, ht⟩ := hT j hj
      exact ⟨seen, hshown, ht.poised.view⟩
    · obtain ⟨seen, hshown, ht⟩ := hT i hi
      exact ht.moved (.of_within h₆)
  refine .finish (hsource₅.trans h₆) h.fits ?_
    (show Clears (fun v => v = found.lane ∨ v = packed.total ∨ v = primitives) _ _ from
      plan.clears_exportBoth (.inl rfl) (.inr (.inl rfl)) (.inr (.inr rfl)))
    (fun i hi t ht => ht.elim fun _ ht => h.wp_exportBoth ht.1 hi ht.2) hgoal
  rintro v (rfl | rfl | rfl)
  · exact ⟨_, _, fun i _ t ht => ht.elim fun _ ht => ht.2.knowing.lane⟩
  · exact ⟨_, _, fun i _ t ht => ht.elim fun _ ht => ht.2.total⟩
  · exact ⟨_, _, fun i _ t ht => ht.elim fun _ ht => ht.2.count⟩

end

end Lowering.GeometryPlan

end PrimitiveShader
