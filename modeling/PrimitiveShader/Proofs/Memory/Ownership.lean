import PrimitiveShader.Proofs.Memory.Access

/-!
# Bytes with an owner

Between two barriers an `Ownership` names for some bytes the one lane that may write them; the other
bytes may be read by everyone. Accesses that keep to this never fail: a load returns the bytes as they
were at the last barrier (`SharedMemory.Obeys.load`), a store changes its own bytes and no others
(`SharedMemory.Obeys.store`). A barrier opens the memory to any other ownership
(`SharedMemory.obeys_sync`).
-/

namespace PrimitiveShader

variable {stake : Nat → Nat → Prop}

/-- The lane, numbered through the workgroup, that may write a byte until the next barrier. -/
abbrev Ownership := Nat → Option Nat

open Classical in
/-- Every byte belongs to the lane that has a stake in it. -/
noncomputable def Ownership.ofStakes (stake : Nat → Nat → Prop) : Ownership := fun a =>
  if h : ∃ i, stake i a then some h.choose else none

theorem Ownership.ofStakes_eq
    (hunique : ∀ i j a, stake i a → stake j a → i = j) {i a : Nat} (h : stake i a) : ofStakes stake a = some i := by
  have hex : ∃ j, stake j a := ⟨i, h⟩
  rw [ofStakes, dif_pos hex, hunique _ _ _ hex.choose_spec h]

theorem Ownership.ofStakes_eq_none {a : Nat} (h : ∀ i, ¬ stake i a) : ofStakes stake a = none :=
  dif_neg fun ⟨i, hi⟩ => h i hi

namespace SharedMemory

variable {addr : Nat}

/-- The byte at an address, zero beyond the end. -/
def byteAt (m : SharedMemory) (addr : Nat) : UInt8 := (m.cells[addr]?.map (·.byte)).getD 0

/-- The accesses since the last barrier keep to an ownership: nobody has written a byte without an owner, and an
owner may write its bytes. Nothing is said about the bytes of lanes in waves that memory cannot tell apart. -/
structure Obeys (own : Ownership) (waveSize : Nat) (m : SharedMemory) : Prop where
  writer : ∀ a, own a = none → (m.cellAt a).writer = none
  owner : ∀ a lane, own a = some lane → lane / waveSize < maxReaders → (m.cellAt a).Writable ⟨lane / waveSize, lane⟩

theorem byteAt_sync (m : SharedMemory) (addr : Nat) : m.sync.byteAt addr = m.byteAt addr := rfl

/-- Behind a barrier nothing is remembered but the bytes. -/
theorem cellAt_sync (m : SharedMemory) (a : Nat) : m.sync.cellAt a = { byte := (m.cellAt a).byte } := by
  refine Entry.cell_succ ?_
  change Entry.Within m.epoch (m.cells[a]?.getD { byte := m.fill })
  cases ha : m.cells[a]? with
  | none => exact ⟨Nat.zero_le _, Nat.zero_le _⟩
  | some entry => exact m.recorded.2 entry (Array.mem_of_getElem? ha)

theorem cellAt_reserve (m : SharedMemory) (size a : Nat) : (m.reserve size).cellAt a = m.cellAt a := by
  unfold cellAt reserve
  rw [Array.getElem?_append]
  split
  · rfl
  · rename_i h
    rw [Array.getElem?_eq_none (by omega : m.cells.size ≤ a), Array.getElem?_replicate]
    split <;> rfl

theorem obeys_sync (own : Ownership) (waveSize : Nat) (m : SharedMemory) : m.sync.Obeys own waveSize := by
  refine ⟨fun a _ => by rw [cellAt_sync], fun a lane _ _ => ?_⟩
  rw [cellAt_sync]
  exact ⟨by simp, by simp [Cell.mem_readers]⟩

variable {own : Ownership} {waveSize : Nat} {m m' : SharedMemory}

theorem byteAt_eq (h : addr < m.cells.size) : m.byteAt addr = (m.cellAt addr).byte := by
  simp [byteAt, cellAt, Entry.cell, h]

section

variable {rule : ByteRule} {lo hi : Nat}

/-- An access keeps to the ownership if it does so at each of its bytes. -/
theorem Obeys.of_passes (h : m.Obeys own waveSize) (hpass : m.Passes rule lo hi m')
    (hw : ∀ a, lo ≤ a → a < hi → own a = none → (rule.next a (m.cellAt a)).writer = none)
    (ho : ∀ a lane, lo ≤ a → a < hi → own a = some lane → (m.cellAt a).Writable ⟨lane / waveSize, lane⟩ →
      (rule.next a (m.cellAt a)).Writable ⟨lane / waveSize, lane⟩) : m'.Obeys own waveSize := by
  refine ⟨fun a hown => ?_, fun a lane hown hwave => ?_⟩ <;> rw [hpass.cell] <;> split
  · exact hw a ‹_ ∧ _›.1 ‹_ ∧ _›.2 hown
  · exact h.writer a hown
  · exact ho a lane ‹_ ∧ _›.1 ‹_ ∧ _›.2 hown (h.owner a lane hown hwave)
  · exact h.owner a lane hown hwave

/-- What an access within bounds leaves in memory. -/
theorem Passes.byteAt_eq (h : m.Passes rule lo hi m') (hsize : hi ≤ m.cells.size) (a : Nat) :
    m'.byteAt a = if lo ≤ a ∧ a < hi then (rule.next a (m.cellAt a)).byte else m.byteAt a := by
  by_cases hlt : a < m.cells.size
  · rw [SharedMemory.byteAt_eq (h.size ▸ hlt), h.cell]
    split
    · rfl
    · exact (SharedMemory.byteAt_eq hlt).symm
  · have hlt' : ¬ a < m'.cells.size := h.size ▸ hlt
    rw [if_neg (by omega)]
    simp [byteAt, hlt, hlt']

end

/-- A load of bytes that nobody may write returns them. -/
theorem Obeys.load (h : m.Obeys own waveSize) (wave lane : Nat) {len share : Nat} (hlen : len ≤ 8)
    (hlt : addr + len < 2 ^ 64) (hshare : addr + len ≤ share) (hsize : share ≤ m.cells.size)
    (hfree : ∀ j < len, own (addr + j) = none) (hwave : wave < maxReaders) :
    ∃ m', SharedMemory.load wave lane addr len share m = .done (littleEndian m.byteAt addr len 0) m' ∧
      m'.Obeys own waveSize ∧ m'.cells.size = m.cells.size ∧ m'.byteAt = m.byteAt := by
  have hnone (a : Nat) (hlo : addr ≤ a) (hhi : a < addr + len) : own a = none := by
    simpa [Nat.add_sub_cancel' hlo] using hfree (a - addr) (by omega)
  have haccess := (load_accesses (m := m) (F := False) lane share (.inr ⟨hwave, hlen, hlt⟩)).resolve_left
    fun hex => hex.1.elim (by omega) (by omega)
  obtain ⟨_, m', hload, hpass, rfl⟩ := haccess.2.exists_done fun a hlo hhi =>
    Cell.readError?_eq_none.mpr fun w hw => by
      rw [h.writer a (hnone a hlo hhi)] at hw
      cases hw
  refine ⟨m', ?_, h.of_passes hpass (fun a _ _ hown => ?_) (fun a lane hlo hhi hown => ?_), hpass.size,
    funext fun a => ?_⟩
  · rw [hload, littleEndian_congr fun j _ hj => (byteAt_eq (by omega)).symm]
  · exact h.writer a hown
  · rw [hnone a hlo hhi] at hown
    cases hown
  · rw [hpass.byteAt_eq (by omega)]
    split
    · exact (byteAt_eq (by omega)).symm
    · rfl

/-- A store of bytes that the lane may store changes them and no others. -/
theorem store_of_writable {wave lane len share : Nat} (value : UInt64)
    (hlen : len ≤ 8) (hlt : addr + len < 2 ^ 64) (hshare : addr + len ≤ share) (hsize : share ≤ m.cells.size)
    (hfree : ∀ a, addr ≤ a → a < addr + len → (m.cellAt a).Writable ⟨wave, lane⟩) (hwave : wave < maxReaders) :
    ∃ m', SharedMemory.store wave lane addr len value share m = .done () m' ∧
      m.Passes (.store ⟨wave, lane⟩ addr value) addr (addr + len) m' ∧
      m'.byteAt = overwrite m.byteAt addr len value := by
  have haccess := (store_accesses (m := m) (F := False) lane share value (.inr ⟨hwave, hlen, hlt⟩)).resolve_left
    fun hex => hex.1.elim (by omega) (by omega)
  obtain ⟨_, m', hstore, hpass, -⟩ := haccess.2.exists_done fun a hlo hhi =>
    Cell.writeError?_eq_none.mpr (hfree a hlo hhi)
  exact ⟨m', hstore, hpass, funext fun a => hpass.byteAt_eq (by omega) a⟩

theorem Obeys.store (h : m.Obeys own waveSize) {lane len share : Nat} (value : UInt64)
    (hlen : len ≤ 8) (hlt : addr + len < 2 ^ 64) (hshare : addr + len ≤ share) (hsize : share ≤ m.cells.size)
    (hown : ∀ j < len, own (addr + j) = some lane) (hwave : lane / waveSize < maxReaders) :
    ∃ m', SharedMemory.store (lane / waveSize) lane addr len value share m = .done () m' ∧ m'.Obeys own waveSize ∧
      m'.cells.size = m.cells.size ∧ m'.byteAt = overwrite m.byteAt addr len value := by
  have hsome (a : Nat) (hlo : addr ≤ a) (hhi : a < addr + len) : own a = some lane := by
    simpa [Nat.add_sub_cancel' hlo] using hown (a - addr) (by omega)
  obtain ⟨m', hstore, hpass, hbytes⟩ := store_of_writable value hlen hlt hshare hsize
    (fun a hlo hhi => h.owner a lane (hsome a hlo hhi) hwave) hwave
  refine ⟨m', hstore, h.of_passes hpass (fun a hlo hhi hnone => ?_) (fun a other hlo hhi hother hfree => ?_),
    hpass.size, hbytes⟩
  · rw [hsome a hlo hhi] at hnone
    cases hnone
  · obtain rfl : lane = other := Option.some.inj ((hsome a hlo hhi).symm.trans hother)
    refine ⟨fun w hw => ?_, hfree.2⟩
    cases hw
    rfl

end SharedMemory

end PrimitiveShader
