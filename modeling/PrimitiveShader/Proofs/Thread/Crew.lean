import PrimitiveShader.Proofs.Thread.Precondition

/-!
# The threads of a wave

`Crew c id lanes s T` ties the lanes of a wave and the state that all waves share to one thread per
lane: the threads have the states of the lanes, they know the bytes that are theirs or nobody's, and
the exports of each lane are those of its thread. `Shared.Steps` says what the threads of one wave can
change; the threads of any other wave do not notice it (`Crew.of_steps`).
-/

namespace PrimitiveShader

variable {c : Setting}

/-! ## Lanes and threads -/

/-- The number of a lane in its workgroup. -/
def Setting.index (c : Setting) (id lane : Nat) : Nat := (Wave.laneId c.group id lane).index

/-- The workgroup's share of the memory can be addressed, and memory can tell the wave apart. -/
structure Setting.Fits (c : Setting) (id : Nat) : Prop where
  share : c.program.sharedSize < 2 ^ 64
  wave : id < SharedMemory.maxReaders

/-- The lanes of a wave and what it shares with others, as one thread per lane. -/
structure Crew (c : Setting) (id : Nat) (lanes : Array Lane) (s : Shared) (T : Nat → Thread) :
    Prop where
  count : lanes.size = c.group.wave.size
  lane : ∀ l < c.group.wave.size, lanes[l]? = some (T l).lane
  sized : ∀ l < c.group.wave.size, (T l).lane.Sized c.program
  view : ∀ l < c.group.wave.size, ∀ a, (c.own a = none ∨ c.own a = some (c.index id l)) →
    (T l).view a = s.memory.byteAt a
  primitives : ∀ l < c.group.wave.size, exportsOf s.result.primitives (c.index id l) =
    (T l).primitives.map (c.index id l, ·)
  vertices : ∀ l < c.group.wave.size, exportsOf s.result.vertices (c.index id l) =
    (T l).vertices.map (c.index id l, ·)
  space : id = 0 → s.result.allocation = (T 0).space
  obeys : s.memory.Obeys c.own c.group.wave.size
  share : c.program.sharedSize ≤ s.memory.cells.size

/-- What the threads of wave `id` can do to the state that all waves share: they write their own
bytes and export from their own lanes, and only the first wave asks for space. -/
structure Shared.Steps (c : Setting) (id : Nat) (s s' : Shared) : Prop where
  bytes : ∀ a, (∀ lane, c.own a = some lane → lane / c.group.wave.size ≠ id) →
    s'.memory.byteAt a = s.memory.byteAt a
  cells : s'.memory.cells.size = s.memory.cells.size
  primitives : ∀ lane, lane / c.group.wave.size ≠ id →
    exportsOf s'.result.primitives lane = exportsOf s.result.primitives lane
  vertices : ∀ lane, lane / c.group.wave.size ≠ id →
    exportsOf s'.result.vertices lane = exportsOf s.result.vertices lane
  allocation : id ≠ 0 → s'.result.allocation = s.result.allocation

theorem Setting.index_div {id l : Nat} (h : l < c.group.wave.size) : c.index id l / c.group.wave.size = id := by
  have hpos : 0 < c.group.wave.size := by omega
  change (id * c.group.wave.size + l) / c.group.wave.size = id
  rw [Nat.mul_comm, Nat.mul_add_div hpos, Nat.div_eq_of_lt h, Nat.add_zero]

theorem Setting.index_mod {id l : Nat} (h : l < c.group.wave.size) : c.index id l % c.group.wave.size = l := by
  change (id * c.group.wave.size + l) % c.group.wave.size = l
  rw [Nat.mul_comm, Nat.mul_add_mod, Nat.mod_eq_of_lt h]

theorem Setting.index_inj {id l k : Nat} : c.index id l = c.index id k ↔ l = k :=
  Nat.add_left_cancel_iff

namespace Shared.Steps

variable {id : Nat} {s s' s'' : Shared}

theorem refl (s : Shared) : s.Steps c id s :=
  ⟨fun _ _ => rfl, rfl, fun _ _ => rfl, fun _ _ => rfl, fun _ => rfl⟩

theorem trans (h : s.Steps c id s') (h' : s'.Steps c id s'') : s.Steps c id s'' where
  bytes a ha := (h'.bytes a ha).trans (h.bytes a ha)
  cells := h'.cells.trans h.cells
  primitives lane hl := (h'.primitives lane hl).trans (h.primitives lane hl)
  vertices lane hl := (h'.vertices lane hl).trans (h.vertices lane hl)
  allocation hid := (h'.allocation hid).trans (h.allocation hid)

end Shared.Steps

namespace Crew

variable {id : Nat} {lanes lanes' : Array Lane} {s s' : Shared} {T : Nat → Thread}

/-- The threads of one wave do not notice what other waves do. -/
theorem of_steps (h : Crew c id lanes s T) {other : Nat} (hs : s.Steps c other s')
    (hne : other ≠ id) (hobeys : s'.memory.Obeys c.own c.group.wave.size) : Crew c id lanes s' T where
  count := h.count
  lane := h.lane
  sized := h.sized
  view l hl a ha := by
    rw [h.view l hl a ha, hs.bytes a]
    intro lane hlane
    rcases ha with ha | ha
    · rw [ha] at hlane
      cases hlane
    · rw [ha] at hlane
      cases hlane
      rw [Setting.index_div hl]
      exact hne.symm
  primitives l hl := by
    rw [hs.primitives _ (by rw [Setting.index_div hl]; exact hne.symm)]
    exact h.primitives l hl
  vertices l hl := by
    rw [hs.vertices _ (by rw [Setting.index_div hl]; exact hne.symm)]
    exact h.vertices l hl
  space hid := (hs.allocation (hid ▸ hne)).trans (h.space hid)
  obeys := hobeys
  share := hs.cells ▸ h.share

/-- The threads with a new one for lane `l`. -/
def replace (T : Nat → Thread) (l : Nat) (t : Thread) : Nat → Thread :=
  fun k => if k = l then t else T k

/-- What one thread has done since the last time we looked. -/
structure Change (c : Setting) (id l : Nat) (lanes lanes' : Array Lane) (s s' : Shared)
    (t' : Thread) : Prop where
  count : lanes'.size = lanes.size
  own : lanes'[l]? = some t'.lane
  others : ∀ k ≠ l, lanes'[k]? = lanes[k]?
  sized : t'.lane.Sized c.program
  obeys : s'.memory.Obeys c.own c.group.wave.size
  cells : s'.memory.cells.size = s.memory.cells.size
  bytes : ∀ a, c.own a ≠ some (c.index id l) → s'.memory.byteAt a = s.memory.byteAt a
  view : ∀ a, (c.own a = none ∨ c.own a = some (c.index id l)) → t'.view a = s'.memory.byteAt a
  primitives : ∀ k, exportsOf s'.result.primitives k =
    if k = c.index id l then t'.primitives.map (k, ·) else exportsOf s.result.primitives k
  vertices : ∀ k, exportsOf s'.result.vertices k =
    if k = c.index id l then t'.vertices.map (k, ·) else exportsOf s.result.vertices k
  space : s'.result.allocation =
    if c.index id l = 0 then t'.space else s.result.allocation

theorem change (h : Crew c id lanes s T) {l : Nat} (hl : l < c.group.wave.size) {t' : Thread}
    (hc : Change c id l lanes lanes' s s' t') : Crew c id lanes' s' (replace T l t') ∧ s.Steps c id s' := by
  refine ⟨⟨hc.count.trans h.count, ?_, ?_, ?_, ?_, ?_, ?_, hc.obeys, hc.cells ▸ h.share⟩, ?_⟩
  · intro k hk
    by_cases he : k = l
    · simp only [replace, he, ↓reduceIte, hc.own]
    · simp only [replace, he, ↓reduceIte, hc.others k he, h.lane k hk]
  · intro k hk
    by_cases he : k = l
    · simp only [replace, he, ↓reduceIte, hc.sized]
    · simp only [replace, he, ↓reduceIte, h.sized k hk]
  · intro k hk a ha
    by_cases he : k = l
    · subst he
      simp only [replace, ↓reduceIte]
      exact hc.view a ha
    · simp only [replace, he, ↓reduceIte]
      rw [h.view k hk a ha, hc.bytes a]
      rcases ha with ha | ha
      · simp [ha]
      · simp [ha, Setting.index_inj, he]
  · intro k hk
    by_cases he : k = l
    · simp only [hc.primitives, replace, he, ↓reduceIte]
    · simp only [hc.primitives, Setting.index_inj, replace, he, ↓reduceIte, h.primitives k hk]
  · intro k hk
    by_cases he : k = l
    · simp only [hc.vertices, replace, he, ↓reduceIte]
    · simp only [hc.vertices, Setting.index_inj, replace, he, ↓reduceIte, h.vertices k hk]
  · rintro rfl
    have hindex : c.index 0 l = l := by simp [Setting.index, Wave.laneId]
    rw [hc.space, hindex]
    by_cases he : l = 0
    · simp only [replace, he, ↓reduceIte]
    · simp only [replace, he, Ne.symm he, ↓reduceIte, h.space rfl]
  · have hdiv : c.index id l / c.group.wave.size = id := Setting.index_div hl
    refine ⟨fun a ha => hc.bytes a fun hown => ha _ hown hdiv, hc.cells, fun k hk => ?_, fun k hk => ?_, fun hid => ?_⟩
    · rw [hc.primitives, if_neg]
      rintro rfl
      exact hk hdiv
    · rw [hc.vertices, if_neg]
      rintro rfl
      exact hk hdiv
    · rw [hc.space, if_neg]
      intro hzero
      rw [hzero, Nat.zero_div] at hdiv
      exact hid hdiv.symm

end Crew

end PrimitiveShader
