import PrimitiveShader.Proofs.Lowering.Geometry.Export
import PrimitiveShader.Proofs.Lowering.Space

/-!
# From staged vertices to exports

What a workgroup exports depends on the flags and the vertices that it finds behind the body, and on
which places are taken to be live (`GeometryPlan.Delivers`). The bytes of vertices that are not live do
not matter (`GeometryPlan.Agrees`), and neither do those outside of the flags and the vertices. Without a
compaction all places are live (`GeometryPlan.Ends.exportAll_scripts`).
-/

namespace PrimitiveShader.Lowering.GeometryPlan

open Emit

/-! ## What a workgroup exports -/

/-- The places that are exported. -/
def livePlaces (plan : GeometryPlan) (launch : Launch) (live : Nat → Bool) : List Nat :=
  (List.range (plan.placesOf launch)).filter live

/-- The space for all exports. A workgroup without vertices exports no primitives either. -/
def spaceFor (plan : GeometryPlan) (launch : Launch) (live : Nat → Bool) : Allocation where
  vertices := (plan.livePlaces launch live).length
  primitives := if plan.livePlaces launch live = [] then 0 else plan.placesOf launch

/-- Lane `i` has exported the primitive of place `i` and the live vertex of number `i`, as far as there
are any. -/
structure Delivers (plan : GeometryPlan) (launch : Launch) (view : Nat → UInt8) (live : Nat → Bool)
    (i : Nat) (t : Thread) : Prop where
  space : i = 0 → t.space = some (plan.spaceFor launch live)
  primitives : t.primitives = if i < (plan.spaceFor launch live).primitives then
    [plan.wordOf (UInt32.ofNat (countBelow live i)) (plan.flagsAt view i)] else []
  vertices : t.vertices = (plan.livePlaces launch live)[i]?.toList.map fun place =>
    plan.vertexAt view place []

/-- Bytes that show the same flags, and the same vertices where those are live. -/
structure Agrees (plan : GeometryPlan) (launch : Launch) (live : Nat → Bool) (view view' : Nat → UInt8) :
    Prop where
  flags : ∀ i < plan.placesOf launch, plan.flagsAt view i = plan.flagsAt view' i
  vertices : ∀ i < plan.placesOf launch, live i = true →
    plan.vertexAt view i [] = plan.vertexAt view' i []

theorem Agrees.refl (plan : GeometryPlan) (launch : Launch) (live : Nat → Bool) (view : Nat → UInt8) :
    plan.Agrees launch live view view :=
  ⟨fun _ _ => rfl, fun _ _ _ => rfl⟩

theorem primitives_spaceFor_le (plan : GeometryPlan) (launch : Launch) (live : Nat → Bool) :
    (plan.spaceFor launch live).primitives ≤ plan.placesOf launch := by
  unfold spaceFor
  split
  · exact Nat.zero_le _
  · exact Nat.le_refl _

theorem Delivers.congr {plan : GeometryPlan} {launch : Launch} {live : Nat → Bool}
    {view view' : Nat → UInt8} {i : Nat} {t : Thread} (h : plan.Delivers launch view live i t)
    (hagree : plan.Agrees launch live view view') : plan.Delivers launch view' live i t where
  space := h.space
  primitives := by
    rw [h.primitives]
    split
    · rename_i hlt
      rw [hagree.flags i (Nat.lt_of_lt_of_le hlt (plan.primitives_spaceFor_le launch live))]
    · rfl
  vertices := by
    rw [h.vertices]
    cases hget : (plan.livePlaces launch live)[i]? with
    | none => rfl
    | some place =>
      obtain ⟨hlt, hlive⟩ := List.mem_filter.mp (List.mem_of_getElem? hget)
      simp only [Option.toList, List.map_cons, List.map_nil, hagree.vertices place (List.mem_range.mp hlt) hlive]

/-- The thread has exported nothing yet, and it sees the bytes `view`. -/
structure Poised (view : Nat → UInt8) (t : Thread) : Prop where
  view : t.view = view
  outputs : t.lane.outputs = []
  primitives : t.primitives = []
  vertices : t.vertices = []

namespace Poised

variable {view : Nat → UInt8} {p p' : Program} {t t' : Thread}

theorem adjusted (h : Poised view t) {touched : Var → Prop} (hadj : Adjusted touched p t p' t') : Poised view t' :=
  ⟨hadj.view.trans h.view, hadj.outputs.trans h.outputs, hadj.primitives.trans h.primitives,
    hadj.vertices.trans h.vertices⟩

theorem computed (h : Poised view t) (hc : Computed p t p' t') : Poised view t' :=
  ⟨hc.view.trans h.view, hc.outputs.trans h.outputs, hc.primitives.trans h.primitives, hc.vertices.trans h.vertices⟩

theorem see (h : Poised view t) (view' : Nat → UInt8) : Poised view' (t.see view') :=
  ⟨rfl, h.outputs, h.primitives, h.vertices⟩

theorem asked (h : Poised view t) (i : Nat) (space : Allocation) : Poised view (t.asked i space) := by
  unfold Thread.asked
  split
  · exact ⟨h.view, h.outputs, h.primitives, h.vertices⟩
  · exact h

end Poised

/-- The thread has exported nothing yet, and it sees what `view` shows. -/
def Primed (plan : GeometryPlan) (launch : Launch) (live : Nat → Bool) (view : Nat → UInt8) (t : Thread) :
    Prop :=
  ∃ view', plan.Agrees launch live view' view ∧ Poised view' t

variable {plan : GeometryPlan} {c : Setting} {group : Workgroup} {faults : Prop} {own : Ownership}
  {id : LaneId} {p source : Program} {t : Thread} {L : Thread → Prop} {view : Nat → UInt8} {live : Nat → Bool}

/-- What the end of a program finds. -/
structure Ends (plan : GeometryPlan) (group : Workgroup) : Prop extends plan.Sound where
  invocations : group.launch.primitives.size ≤ plan.config.geometry.maxInputPrimitives
  capacity : 1 ≤ plan.config.geometry.maxInputPrimitives
  share : group.program.sharedSize = plan.layout.size
  fits : group.Fits
  launched : group.launch.Valid group.wave

/-- Nobody owns a byte of the vertices, if only bytes of other regions have owners. -/
theorem Ends.shows (h : plan.Ends group)
    (hown : ∀ role region, (role = 1 ∨ role = 4) → plan.layout.slot role = some region →
      ∀ j < region.size, own (region.offset + j) = none) : plan.Shows ⟨group, own, faults⟩ where
  toSound := h.toSound
  share := h.share
  freeFields region hr := hown 1 region (.inl rfl) hr
  freeFlags region hr := hown 4 region (.inr rfl) (flagsRegion_eq_ok hr)

/-! ## Without a compaction -/

instance {K : Instr → Prop} [Instr.Common K] (places : Value) : Novel K (plan.exportPlace places) := by
  unfold exportPlace
  infer_instance

/-- Which lanes export is settled by the number of places. -/
theorem clears_exportPlace (plan : GeometryPlan) (places : Value) :
    Clears (· = places) (plan.exportPlace places) fun _ _ => True := by
  refine .bind (.input fun lane known₁ h₁ hlane => .bind (.binary hlane (h₁ places rfl)
    fun exports known₂ _ hexports => .ifThen hexports (.straight fun _ => trivial) fun _ _ => trivial))

theorem livePlaces_all (launch : Launch) : plan.livePlaces launch (fun _ => true) = List.range (plan.placesOf launch) :=
  List.filter_eq_self.mpr fun _ _ => rfl

theorem spaceFor_all (launch : Launch) :
    plan.spaceFor launch (fun _ => true) = ⟨plan.placesOf launch, plan.placesOf launch⟩ := by
  rw [spaceFor, livePlaces_all, List.length_range]
  congr 1
  split
  · rename_i h
    rw [← List.length_range (n := plan.placesOf launch), h]
    rfl
  · rfl

theorem Ends.placesOf_small (h : plan.Ends group) : plan.placesOf group.launch ≤ 256 :=
  Nat.le_trans (placesOf_le h.invocations) h.places_le

theorem Ends.wp_exportPlace (h : plan.Ends group) {i : Nat} (hi : i < group.launch.numLanes)
    {places : Value} (hposed : Poised view t)
    (hspace : i = 0 → t.space = some (plan.spaceFor group.launch fun _ => true))
    (hplaces : Knows p t places .u32 (UInt64.ofNat (plan.placesOf group.launch))) :
    Emit.wp ⟨group, fun _ => none, faults⟩ (group.laneId i) (plan.exportPlace places) p
      (fun _ _ => plan.Delivers group.launch view (fun _ => true) i) L t := by
  have hshows : plan.Shows ⟨group, fun _ => none, faults⟩ := h.shows fun _ _ _ _ _ _ => rfl
  have hsmall := h.placesOf_small
  have hlanes := h.launched.numLanes_le
  have hlimit : (plan.spaceFor group.launch fun _ => true).primitives = plan.placesOf group.launch := by
    rw [spaceFor_all]
  refine wp_bind (wp_input fun lane p₁ t₁ h₁ hlane => ?_)
  change Knows p₁ t₁ lane .u32 (UInt64.ofNat i) at hlane
  refine wp_bind (wp_binary hlane (hplaces.computed h₁) rfl fun exports p₂ t₂ h₂ hexports => ?_)
  rw [BinaryOp.eval_lt_ofNat (by omega) (by omega)] at hexports
  have hposed₂ := (hposed.computed h₁).computed h₂
  have hspace₂ : i = 0 → t₂.space = some (plan.spaceFor group.launch fun _ => true) := fun hz => by
    rw [h₂.space, h₁.space, hspace hz]
  refine wp_ifThen hexports (fun hne p₃ h₃ => ?_) fun hz p₃ h₃ => ?_
  · have hlt : i < plan.placesOf group.launch := by simpa [toUInt64_eq_zero_iff] using hne
    have hplace : i < plan.places := Nat.lt_of_lt_of_le hlt (placesOf_le h.invocations)
    have hlane₃ := (hlane.computed h₂).later h₃
    refine wp_bind (wp_loadFlags hshows hplace hlane₃ fun flags p₄ t₄ h₄ hflags => ?_)
    have hlane₄ := hlane₃.computed h₄
    rw [ofNat_toUInt64 (by omega)] at hlane₄
    rw [hposed₂.view] at hflags
    refine wp_bind (wp_exportPrimitive hlane₄ hflags fun p₅ t₅ h₅ => ?_)
    have hlater : Later p₃ t₂ p₅ t₅ := h₄.toLater.trans ⟨h₅.within, h₅.read⟩
    refine wp_exportVertex hshows hplace (hlane₃.later hlater) fun p₆ t₆ h₆ hprimitives hspace hvertices p₇ h₇ => ?_
    refine ⟨fun hz => ?_, ?_, ?_⟩
    · rw [hspace, h₅.space]
      exact h₄.space.trans (hspace₂ hz)
    · have hrank : countBelow (fun _ => true) i = i := by simp [countBelow]
      rw [hlimit, if_pos hlt, hprimitives, h₅.primitives, hrank]
      change t₄.primitives ++ _ = _
      rw [h₄.primitives, hposed₂.primitives, List.nil_append]
    · rw [livePlaces_all, List.getElem?_range hlt, hvertices, h₅.vertices, h₅.view, h₅.outputs]
      change t₄.vertices ++ [plan.vertexAt t₄.view i t₄.lane.outputs] = _
      rw [h₄.vertices, h₄.view, h₄.outputs, hposed₂.vertices, hposed₂.view, hposed₂.outputs]
      rfl
  · have hge : ¬ i < plan.placesOf group.launch := by simpa [toUInt64_eq_zero_iff] using hz
    refine ⟨hspace₂, ?_, ?_⟩
    · rw [hlimit, if_neg hge, hposed₂.primitives]
    · rw [livePlaces_all, List.getElem?_eq_none (by rw [List.length_range]; omega), hposed₂.vertices]
      rfl

theorem Ends.exportAll_scripts (h : plan.Ends group) (hsource : source.Within p)
    {goal : (Nat → Thread) → Prop} (hgoal : ∀ T : Nat → Thread, (∀ i < group.launch.numLanes,
      plan.Delivers group.launch view (fun _ => true) i (T i)) → goal T) : Scripts group goal (fun _ => none)
      (fun _ t => plan.Primed group.launch (fun _ => true) view t ∧ t.space = none) plan.exportAll p := by
  have hsmall := h.placesOf_small
  unfold exportAll
  refine .each hsource h.fits (.none group _ p) (.straight fun _ => trivial)
    (M := fun places p₁ _ t₁ => (plan.Primed group.launch (fun _ => true) view t₁ ∧ t₁.space = none) ∧
      Knows p₁ t₁ places .u32 (UInt64.ofNat (plan.placesOf group.launch)))
    (fun i _ t ⟨⟨view', hagree, hposed⟩, hspace⟩ => ?_) fun places p₁ _ hsource₁ => ?_
  · exact wp_placeCount h.toSound h.invocations h.capacity fun v p₁ t₁ h₁ hv =>
      ⟨⟨⟨view', hagree, hposed.computed h₁⟩, h₁.space.trans hspace⟩, hv⟩
  refine .bind hsource₁ (.none group _ p₁) (clears_requestSpace _ _ _ _)
    (M := fun _ p₂ i t₂ => plan.Primed group.launch (fun _ => true) view t₂ ∧
      (i = 0 → t₂.space = some (plan.spaceFor group.launch fun _ => true)) ∧
      Knows p₂ t₂ places .u32 (UInt64.ofNat (plan.placesOf group.launch))) (fun id hid T hT => ?_)
    fun _ p₂ _ hsource₂ => ?_
  · have hfirst : id = 0 → 0 ∈ (Setting.launched ⟨group, fun _ => none, False⟩ id).lanes := by
      rintro rfl
      exact Setting.zero_mem_launched h.launched.lanes
    refine (requestSpace_brings h.fits hid (fun hz => (hT 0 (hfirst hz)).2)
      (fun hz => (hT 0 (hfirst hz)).2) fun hz => (hT 0 (hfirst hz)).1.2).mono fun _ p₂ T₂ h₂ l hl => ?_
    have hc := h₂ l hl
    rw [toNat_toUInt32_ofNat (by omega)] at hc
    obtain ⟨⟨⟨view', hagree, hposed⟩, -⟩, hplaces⟩ := hT l hl
    refine ⟨⟨view', hagree, (hposed.asked _ _).computed hc⟩, fun hz => ?_,
      (hplaces.later (Thread.later_asked ..)).computed hc⟩
    rw [hc.space, hz, spaceFor_all]
    rfl
  · have hfixes : Fixes group (fun i t₂ => plan.Primed group.launch (fun _ => true) view t₂ ∧
        (i = 0 → t₂.space = some (plan.spaceFor group.launch fun _ => true)) ∧
        Knows p₂ t₂ places .u32 (UInt64.ofNat (plan.placesOf group.launch))) p₂ (· = places) := by
      rintro v rfl
      exact ⟨_, _, fun i _ t ht => ht.2.2⟩
    refine .finish hsource₂ h.fits hfixes (plan.clears_exportPlace places) (fun i hi t ht => ?_) hgoal
    obtain ⟨⟨view', hagree, hposed⟩, hspace, hplaces⟩ := ht
    exact wp_mono (h.wp_exportPlace hi hposed hspace hplaces)
      (fun _ _ _ hdelivers => hdelivers.congr hagree) fun _ h => h

end PrimitiveShader.Lowering.GeometryPlan
