import Mathlib.Algebra.Ring.Nat
import PrimitiveShader.SharedLayout

/-!
# Layouts are sound

The regions of a layout lie within its size and have no byte in common, whatever was requested
(`SharedLayout.sound_of_ofRequests`). A request that no later one repeats gets a region of its size, or
none if it asks for no bytes (`SharedLayout.slot_of_ofRequests`). Requests are served as long as there is room for
all of them (`SharedLayout.exists_ofRequests`). With the places that each role may have, the regions divide the
memory (`SharedLayout.regions_partition`).
-/

namespace PrimitiveShader

/-- The role of the requested region, as a number. -/
def LayoutRequest.role : LayoutRequest → Nat
  | waveCounts _ => 0
  | vertexAttributes _ _ => 1
  | compactionIndex _ => 2
  | primitiveIdRelay _ => 3
  | primitiveFlags stream _ => 4 + stream.toNat

namespace SharedLayout

variable {role : Nat}

/-- The region in a role. -/
def slot (layout : SharedLayout) : Nat → Option Region
  | 0 => layout.waveCounts
  | 1 => layout.vertexAttributes
  | 2 => layout.compactionIndex
  | 3 => layout.primitiveIdRelay
  | n + 4 => layout.primitiveFlags[n]?.join

/-- The regions lie within the layout and have no byte in common. -/
structure Sound (layout : SharedLayout) : Prop where
  bounded : ∀ role r, layout.slot role = some r → r.offset + r.size ≤ layout.size
  disjoint : ∀ role role' r r', role ≠ role' → layout.slot role = some r →
    layout.slot role' = some r' → r.offset + r.size ≤ r'.offset ∨ r'.offset + r'.size ≤ r.offset

/-- The layout has served a request. -/
structure Serves (layout : SharedLayout) (request : LayoutRequest) (layout' : SharedLayout) : Prop where
  size : layout.size ≤ layout'.size
  other : ∀ role, role ≠ request.role → layout'.slot role = layout.slot role
  none : request.size = 0 → layout'.slot request.role = none
  some : request.size ≠ 0 → ∃ r, layout'.slot request.role = some r ∧ r.size = request.size ∧
    layout.size ≤ r.offset ∧ r.offset + r.size = layout'.size ∧ request.alignment ∣ r.offset

variable {layout layout' : SharedLayout} {request : LayoutRequest}

/-- The region takes its role, and the other roles stay as they are. -/
theorem assign_eq_ok {region : Option Region} (h : layout.assign request region = .ok layout') :
    layout'.size = layout.size ∧ layout'.slot request.role = region ∧
      ∀ role, role ≠ request.role → layout'.slot role = layout.slot role := by
  cases request with
  | primitiveFlags stream vertices =>
    by_cases hlt : stream.toNat < 4
    · simp only [assign, hlt, ↓reduceDIte, Except.ok.injEq] at h
      subst h
      refine ⟨rfl, ?_, fun role hne => ?_⟩
      · rw [LayoutRequest.role, Nat.add_comm]
        simp [slot, hlt]
      · match role, hne with
        | 0, _ | 1, _ | 2, _ | 3, _ => rfl
        | n + 4, hne =>
          simp only [LayoutRequest.role] at hne
          simp only [slot]
          rw [Vector.getElem?_set_ne hlt (by omega)]
    · simp [assign, hlt] at h
  | waveCounts | vertexAttributes | compactionIndex | primitiveIdRelay =>
    cases h
    refine ⟨rfl, rfl, fun role hne => ?_⟩
    match role, hne with
    | 0, hne | 1, hne | 2, hne | 3, hne => first | rfl | exact absurd rfl hne
    | n + 4, _ => rfl

theorem alignment_pos (request : LayoutRequest) : 0 < request.alignment := by
  cases request <;> simp [LayoutRequest.alignment]

theorem add_eq_ok (h : layout.add request = .ok layout') : layout.Serves request layout' := by
  unfold add allocate at h
  obtain ⟨⟨_, region⟩, hallocate, h⟩ := except_bind_eq_ok.mp h
  obtain ⟨size, hsize, hallocate⟩ := except_bind_eq_ok.mp hallocate
  obtain ⟨-, rfl⟩ := fits32_eq_ok_iff.mp hsize
  by_cases hzero : request.size = 0
  · rw [if_pos hzero] at hallocate
    cases hallocate
    obtain ⟨hkeep, hslot, hother⟩ := assign_eq_ok h
    exact ⟨Nat.le_of_eq hkeep.symm, hother, fun _ => hslot, fun hne => absurd hzero hne⟩
  · rw [if_neg hzero] at hallocate
    obtain ⟨offset, hoffset, hallocate⟩ := except_bind_eq_ok.mp hallocate
    obtain ⟨-, rfl⟩ := fits32_eq_ok_iff.mp hoffset
    obtain ⟨stop, hstop, hallocate⟩ := except_bind_eq_ok.mp hallocate
    obtain ⟨-, rfl⟩ := fits32_eq_ok_iff.mp hstop
    cases hallocate
    obtain ⟨hkeep, hslot, hother⟩ := assign_eq_ok h
    have hle := le_alignUp (n := layout.size) (alignment_pos request)
    refine ⟨?_, fun role hne => (hother role hne).trans ?_, fun hz => absurd hz hzero, fun _ => ?_⟩
    · rw [hkeep]
      change layout.size ≤ alignUp layout.size request.alignment + request.size
      omega
    · unfold slot
      split <;> rfl
    · exact ⟨_, hslot, rfl, hle, hkeep.symm, dvd_alignUp _ _⟩

/-- The region in any role is an old one, or the new one behind all of them. -/
theorem Serves.slot_cases (h : layout.Serves request layout') {r : Region}
    (hr : layout'.slot role = .some r) : layout.slot role = .some r ∨ role = request.role ∧ 0 < r.size ∧
      request.alignment ∣ r.offset ∧ layout.size ≤ r.offset ∧ r.offset + r.size = layout'.size := by
  by_cases hrole : role = request.role
  · subst hrole
    by_cases hzero : request.size = 0
    · rw [h.none hzero] at hr
      cases hr
    · obtain ⟨r', hr', hsize, hoffset, hstop, hdvd⟩ := h.some hzero
      cases hr'.symm.trans hr
      exact .inr ⟨rfl, hsize ▸ Nat.pos_of_ne_zero hzero, hdvd, hoffset, hstop⟩
  · exact .inl ((h.other role hrole).symm.trans hr)

theorem Serves.sound (h : layout.Serves request layout') (hs : layout.Sound) : layout'.Sound := by
  have hsize := h.size
  refine ⟨fun role r hr => ?_, fun role role' r r' hne hr hr' => ?_⟩
  · rcases h.slot_cases hr with hold | ⟨-, -, -, -, hstop⟩
    · have := hs.bounded role r hold
      omega
    · omega
  · rcases h.slot_cases hr with hold | ⟨hrole, -, -, hoffset, -⟩ <;>
      rcases h.slot_cases hr' with hold' | ⟨hrole', -, -, hoffset', -⟩
    · exact hs.disjoint role role' r r' hne hold hold'
    · have := hs.bounded role r hold
      omega
    · have := hs.bounded role' r' hold'
      omega
    · exact absurd (hrole.trans hrole'.symm) hne

theorem slot_empty (role : Nat) : SharedLayout.empty.slot role = none := by
  match role with
  | 0 | 1 | 2 | 3 => rfl
  | n + 4 =>
    simp only [slot]
    match n with
    | 0 | 1 | 2 | 3 => rfl
    | n + 4 => simp

/-! ## All requests -/

/-- What a list of requests leads to, one after the other. -/
theorem foldlM_add_cons {rest : List LayoutRequest} (h : (request :: rest).foldlM add layout = .ok layout') :
    ∃ layout₁, layout.Serves request layout₁ ∧ rest.foldlM add layout₁ = .ok layout' := by
  rw [List.foldlM_cons] at h
  obtain ⟨layout₁, ha, h⟩ := except_bind_eq_ok.mp h
  exact ⟨layout₁, add_eq_ok ha, h⟩

variable {requests : List LayoutRequest}

/-- What each request keeps holds in the end. -/
theorem foldlM_add_keeps {I : SharedLayout → Prop}
    (hstep : ∀ request ∈ requests, ∀ layout layout', Serves layout request layout' → I layout → I layout') :
    ∀ {layout : SharedLayout}, requests.foldlM add layout = .ok layout' → I layout → I layout' := by
  induction requests with
  | nil =>
    intro layout h hI
    cases h
    exact hI
  | cons request rest ih =>
    intro layout h hI
    obtain ⟨layout₁, hserves, hrest⟩ := foldlM_add_cons h
    exact ih (fun r hr => hstep r (List.mem_cons_of_mem _ hr)) hrest (hstep request List.mem_cons_self _ _ hserves hI)

/-- A role that is not asked for stays as it is. -/
theorem foldlM_add_slot_of_ne (h : requests.foldlM add layout = .ok layout')
    (hne : ∀ r ∈ requests, r.role ≠ role) : layout'.slot role = layout.slot role :=
  foldlM_add_keeps (I := fun l => l.slot role = layout.slot role)
    (fun r hr _ _ hserves hI => (hserves.other role (hne r hr).symm).trans hI) h rfl

/-- A role that is asked for once is served. -/
theorem foldlM_add_slot (hnodup : (requests.map (·.role)).Nodup) (hmem : request ∈ requests) :
    ∀ {layout : SharedLayout}, requests.foldlM add layout = .ok layout' →
      (request.size = 0 → layout'.slot request.role = none) ∧
      (request.size ≠ 0 → ∃ r, layout'.slot request.role = some r ∧ r.size = request.size) := by
  induction requests with
  | nil => cases hmem
  | cons first rest ih =>
    intro layout h
    obtain ⟨layout₁, hserves, hrest⟩ := foldlM_add_cons h
    rw [List.map_cons, List.nodup_cons] at hnodup
    rcases List.mem_cons.mp hmem with rfl | hmem
    · have hkept := foldlM_add_slot_of_ne hrest fun r hr heq => hnodup.1 (List.mem_map.mpr ⟨r, hr, heq⟩)
      refine ⟨fun hz => hkept.trans (hserves.none hz), fun hnz => ?_⟩
      obtain ⟨r, hr, hsize, -⟩ := hserves.some hnz
      exact ⟨r, hkept.trans hr, hsize⟩
    · exact ih hnodup.2 hmem hrest

theorem ofRequests_eq_ok (h : ofRequests requests = .ok layout') :
    ∃ layout, requests.foldlM add .empty = .ok layout ∧ (∀ role, layout'.slot role = layout.slot role) ∧
      layout.size ≤ layout'.size ∧ layout'.size < 2 ^ 32 ∧ 4 ∣ layout'.size := by
  unfold ofRequests pad at h
  obtain ⟨layout, hf, h⟩ := except_bind_eq_ok.mp h
  obtain ⟨size, hs, h⟩ := except_bind_eq_ok.mp h
  obtain ⟨hlt, rfl⟩ := fits32_eq_ok_iff.mp hs
  cases h
  refine ⟨layout, hf, fun role => ?_, le_alignUp (by decide), hlt, dvd_alignUp _ _⟩
  unfold slot
  split <;> rfl

variable (h : ofRequests requests = .ok layout)
include h

theorem sound_of_ofRequests : layout.Sound ∧ layout.size < 2 ^ 32 := by
  obtain ⟨layout₀, hf, hslot, hsize, hlt, -⟩ := ofRequests_eq_ok h
  have hempty : SharedLayout.empty.Sound :=
    ⟨fun role r hr => by simp [slot_empty] at hr, fun role _ r _ _ hr => by simp [slot_empty] at hr⟩
  have hsound := foldlM_add_keeps (fun _ _ _ _ => Serves.sound) hf hempty
  refine ⟨⟨fun role r hr => ?_, fun role role' r r' hne hr hr' => ?_⟩, hlt⟩
  · exact Nat.le_trans (hsound.bounded role r (hslot role ▸ hr)) hsize
  · exact hsound.disjoint role role' r r' hne (hslot role ▸ hr) (hslot role' ▸ hr')

theorem slot_of_ofRequests (hnodup : (requests.map (·.role)).Nodup) (hmem : request ∈ requests) :
    (request.size = 0 → layout.slot request.role = none) ∧
      (request.size ≠ 0 → ∃ r, layout.slot request.role = some r ∧ r.size = request.size) := by
  obtain ⟨layout₀, hf, hslot, -⟩ := ofRequests_eq_ok h
  rw [hslot]
  exact foldlM_add_slot hnodup hmem hf

/-- The region of a request has the size that was asked for. -/
theorem size_of_ofRequests
    (hnodup : (requests.map (·.role)).Nodup) (request : LayoutRequest) (hmem : request ∈ requests) {region : Region}
    (hregion : layout.slot request.role = some region) : region.size = request.size := by
  obtain ⟨hzero, hsome⟩ := slot_of_ofRequests h hnodup hmem
  by_cases hz : request.size = 0
  · rw [hzero hz] at hregion
    cases hregion
  · obtain ⟨r, hr, hsize⟩ := hsome hz
    rw [hregion] at hr
    cases hr
    exact hsize

/-- A role that nobody asks for stays empty. -/
theorem slot_of_ofRequests_of_ne (hne : ∀ r ∈ requests, r.role ≠ role) : layout.slot role = none := by
  obtain ⟨layout₀, hf, hslot, -⟩ := ofRequests_eq_ok h
  rw [hslot, foldlM_add_slot_of_ne hf hne, slot_empty]

end SharedLayout

/-! ## Room -/

/-- The most bytes that a request takes, with the padding in front of it. -/
def LayoutRequest.cost (request : LayoutRequest) : Nat := request.alignment + request.size

namespace SharedLayout

variable {requests : List LayoutRequest} {layout : SharedLayout} {request : LayoutRequest}

/-- A request is served as long as there is room. -/
theorem exists_add (layout : SharedLayout) (hrole : request.role < 8) (hsize : layout.size + request.cost < 2 ^ 32) :
    ∃ layout', layout.add request = .ok layout' ∧ layout'.size ≤ layout.size + request.cost := by
  have hassign (layout : SharedLayout) (region : Option Region) :
      ∃ layout', layout.assign request region = .ok layout' := by
    cases request with
    | primitiveFlags stream vertices =>
      have hstream : stream.toNat < 4 := by
        simp only [LayoutRequest.role] at hrole
        omega
      exact ⟨_, dif_pos hstream⟩
    | _ => exact ⟨_, rfl⟩
  have hpad := @alignUp_lt layout.size request.alignment (alignment_pos request)
  unfold LayoutRequest.cost at hsize ⊢
  unfold add allocate
  rw [fits32_of_lt (by omega : request.size < 2 ^ 32)]
  by_cases hzero : request.size = 0
  · obtain ⟨layout', hlayout'⟩ := hassign layout none
    refine ⟨layout', ?_, ?_⟩
    · simpa [hzero, bind, Except.bind, pure, Except.pure] using hlayout'
    · rw [(assign_eq_ok hlayout').1]
      omega
  · obtain ⟨layout', hlayout'⟩ := hassign { layout with size := alignUp layout.size request.alignment + request.size }
      (some ⟨request.name, alignUp layout.size request.alignment, request.size⟩)
    refine ⟨layout', ?_, ?_⟩
    · rw [fits32_of_lt (by omega : alignUp layout.size request.alignment < 2 ^ 32)]
      simpa [hzero, bind, Except.bind, pure, Except.pure,
        fits32_of_lt (by omega : alignUp layout.size request.alignment + request.size < 2 ^ 32)] using hlayout'
    · rw [(assign_eq_ok hlayout').1]
      change alignUp layout.size request.alignment + request.size ≤ _
      omega

theorem exists_foldlM_add (hrole : ∀ request ∈ requests, request.role < 8) :
    ∀ layout : SharedLayout, layout.size + (requests.map LayoutRequest.cost).sum < 2 ^ 32 →
      ∃ layout', requests.foldlM add layout = .ok layout' ∧
        layout'.size ≤ layout.size + (requests.map LayoutRequest.cost).sum := by
  induction requests with
  | nil => exact fun layout _ => ⟨layout, rfl, Nat.le_refl _⟩
  | cons request rest ih =>
    intro layout hsize
    rw [List.map_cons, List.sum_cons] at hsize ⊢
    obtain ⟨layout₁, hadd, hle⟩ := exists_add layout (hrole request List.mem_cons_self) (by omega)
    obtain ⟨layout', hrest, hle'⟩ := ih (fun r hr => hrole r (List.mem_cons_of_mem _ hr)) layout₁ (by omega)
    refine ⟨layout', ?_, by omega⟩
    rw [List.foldlM_cons, hadd]
    exact hrest

/-- Requests are served as long as there is room for all of them and for the last padding. -/
theorem exists_ofRequests (hrole : ∀ request ∈ requests, request.role < 8)
    (hsize : (requests.map LayoutRequest.cost).sum + 4 ≤ 2 ^ 32) : ∃ layout, ofRequests requests = .ok layout := by
  obtain ⟨layout, hfold, hle⟩ := exists_foldlM_add hrole {} (by
    change 0 + _ < _
    omega)
  have hpad := @alignUp_lt layout.size 4 (by decide)
  change layout.size ≤ 0 + _ at hle
  refine ⟨{ layout with size := alignUp layout.size 4 }, ?_⟩
  unfold ofRequests pad
  rw [hfold]
  change (fits32 (alignUp layout.size 4) >>= _) = _
  rw [fits32_of_lt (by omega)]
  rfl

theorem regions_eq (layout : SharedLayout) : layout.regions = [0, 1, 4, 5, 6, 7, 2, 3].filterMap layout.slot :=
  match layout with
  | ⟨_, _, ⟨⟨[_, _, _, _]⟩, _⟩, _, _, _⟩ => rfl

theorem exists_slot_of_mem_regions {region : Region} (h : region ∈ layout.regions) :
    ∃ role, layout.slot role = some region := by
  rw [regions_eq] at h
  obtain ⟨role, -, hrole⟩ := List.mem_filterMap.mp h
  exact ⟨role, hrole⟩

theorem exists_text (hsound : layout.Sound) (hsize : layout.size < 2 ^ 32) : ∃ text, layout.text = .ok text := by
  have hregion : ∀ region ∈ layout.regions, ∃ text, region.text = .ok text := by
    intro region hmem
    obtain ⟨role, hrole⟩ := exists_slot_of_mem_regions hmem
    have hbound := hsound.bounded role region hrole
    unfold Region.text Region.stop
    rw [fits32_of_lt (by omega)]
    exact ⟨_, rfl⟩
  obtain ⟨texts, htexts⟩ := exists_mapM_eq_ok hregion
  exact ⟨_, by unfold text; rw [htexts]; rfl⟩

/-! ## Places of the regions -/

/-- The region in a role starts at a multiple of this. -/
def roleAlignment : Nat → Nat
  | 0 => 8
  | 1 | 3 => 4
  | _ => 1

theorem roleAlignment_role (request : LayoutRequest) : roleAlignment request.role = request.alignment := by
  cases request with
  | primitiveFlags stream vertices =>
    rw [LayoutRequest.role, Nat.add_comm]
    rfl
  | _ => rfl

/-- The region in a role has some bytes and is where it may be. -/
def InPlace (layout : SharedLayout) : Prop :=
  ∀ role r, layout.slot role = some r → 0 < r.size ∧ roleAlignment role ∣ r.offset

theorem Serves.inPlace (h : layout.Serves request layout') (hp : layout.InPlace) : layout'.InPlace := by
  intro role r hr
  rcases h.slot_cases hr with hold | ⟨hrole, hsize, hdvd, -⟩
  · exact hp role r hold
  · rw [hrole, roleAlignment_role]
    exact ⟨hsize, hdvd⟩

theorem inPlace_of_ofRequests (h : ofRequests requests = .ok layout) : layout.InPlace := by
  obtain ⟨layout₀, hf, hslot, -⟩ := ofRequests_eq_ok h
  intro role r hr
  rw [hslot] at hr
  refine foldlM_add_keeps (fun _ _ _ _ => Serves.inPlace) hf (fun role r hr => ?_) role r hr
  rw [slot_empty] at hr
  cases hr

/-- A layout is a partition. Whatever is requested, in any order and any number of times, the regions of the layout
have some bytes each, no byte belongs to two of them, they begin where loads and stores may, and they lie within the
size, which is a number of full words. -/
theorem regions_partition {requests : List LayoutRequest} (h : ofRequests requests = .ok layout) :
    (∀ r ∈ layout.regions, 0 < r.size ∧ r.offset + r.size ≤ layout.size) ∧
    layout.regions.Pairwise (fun r r' => r.offset + r.size ≤ r'.offset ∨ r'.offset + r'.size ≤ r.offset) ∧
    (∀ r, layout.waveCounts = some r → 8 ∣ r.offset) ∧ (∀ r, layout.vertexAttributes = some r → 4 ∣ r.offset) ∧
    (∀ r, layout.primitiveIdRelay = some r → 4 ∣ r.offset) ∧ 4 ∣ layout.size := by
  obtain ⟨hsound, -⟩ := sound_of_ofRequests h
  have hplace := inPlace_of_ofRequests h
  obtain ⟨-, -, -, -, -, hwords⟩ := ofRequests_eq_ok h
  refine ⟨fun r hr => ?_, ?_, fun r hr => (hplace 0 r hr).2, fun r hr => (hplace 1 r hr).2,
    fun r hr => (hplace 3 r hr).2, hwords⟩
  · obtain ⟨role, hrole⟩ := exists_slot_of_mem_regions hr
    exact ⟨(hplace role r hrole).1, hsound.bounded role r hrole⟩
  · have hroles : [0, 1, 4, 5, 6, 7, 2, 3].Nodup := by decide
    rw [regions_eq, List.pairwise_filterMap]
    exact hroles.imp fun hne r hr r' hr' => hsound.disjoint _ _ r r' hne hr hr'

/-- A request that is repeated, one for nothing and one that needs padding. -/
theorem regions_partition_repeated : ∃ layout,
    ofRequests [.primitiveFlags 2 5, .primitiveIdRelay 0, .waveCounts 5, .primitiveFlags 2 3, .vertexAttributes 3 6] =
      .ok layout ∧
    layout.regions.Pairwise (fun r r' => r.offset + r.size ≤ r'.offset ∨ r'.offset + r'.size ≤ r.offset) ∧
    4 ∣ layout.size := by
  obtain ⟨layout, h⟩ : ∃ layout, ofRequests [.primitiveFlags 2 5, .primitiveIdRelay 0, .waveCounts 5,
    .primitiveFlags 2 3, .vertexAttributes 3 6] = .ok layout := ⟨_, rfl⟩
  obtain ⟨-, hapart, -, -, -, hwords⟩ := regions_partition h
  exact ⟨layout, h, hapart, hwords⟩

end SharedLayout

end PrimitiveShader
