import PrimitiveShader.Proofs.Schedule.Alike

/-!
# Actions that commute

Between two barriers the waves of a workgroup work on the same memory. Two actions commute when
their order does not matter as long as both succeed (`Exec.Commutes`); what they leave behind may
differ in ways that no later action can see, and an action that cannot see them respects the
relation in question (`Exec.Respects`). Both notions pass from single steps to sequences.

For the steps on one byte the rule that the memory enforces does the work: after one wave has written
a byte no other wave succeeds in touching it, and after one wave has read a byte no other wave
succeeds in writing it. Two successful accesses of different waves to one byte are both reads.
-/

namespace PrimitiveShader

/-! ## Actions up to a relation on states -/

namespace Exec

section

variable {σ α β γ : Type} {R : σ → σ → Prop}

/-- Related states are taken to related states, with the same value. -/
def Respects (R : σ → σ → Prop) (a : Exec σ α) : Prop :=
  ∀ ⦃s t x s'⦄, R s t → a s = .done x s' → ∃ t', a t = .done x t' ∧ R s' t'

/-- If `a` succeeds and `b` succeeds after it, they also succeed the other way around, with the same
values and up to `R` in the same state. -/
def Commutes (R : σ → σ → Prop) (a : Exec σ α) (b : Exec σ β) : Prop :=
  ∀ ⦃s x s₁ y s₂⦄, a s = .done x s₁ → b s₁ = .done y s₂ →
    ∃ t₁ t₂, b s = .done y t₁ ∧ a t₁ = .done x t₂ ∧ R s₂ t₂

/-- The action leaves the state alone and its value does not depend on it. -/
def Quiet (a : Exec σ α) : Prop :=
  ∀ ⦃s x s'⦄, a s = .done x s' → s' = s ∧ ∀ t, a t = .done x t

theorem quiet_lift (r : Except Fault α) : Quiet (lift r : Exec σ α) := by
  intro s x s' h
  cases r with
  | ok a =>
    cases h
    exact ⟨rfl, fun _ => rfl⟩
  | error fault => cases h

theorem quiet_fail (error : RunError) : Quiet (fail error : Exec σ α) := by
  intro s x s' h
  cases h

variable {a : Exec σ α} {b : Exec σ β}

theorem Quiet.respects (h : a.Quiet) : a.Respects R := by
  intro s t x s' hst hs
  obtain ⟨rfl, hall⟩ := h hs
  exact ⟨t, hall t, hst⟩

theorem Quiet.commutes_left (h : a.Quiet) (hR : ∀ s, R s s) (b : Exec σ β) : a.Commutes R b := by
  intro s x s₁ y s₂ ha hb
  obtain ⟨rfl, hall⟩ := h ha
  exact ⟨s₂, s₂, hb, hall s₂, hR s₂⟩

theorem Quiet.commutes_right (h : b.Quiet) (hR : ∀ s, R s s) (a : Exec σ α) : a.Commutes R b := by
  intro s x s₁ y s₂ ha hb
  obtain ⟨rfl, hall⟩ := h hb
  exact ⟨s, s₂, hall s, ha, hR s₂⟩

theorem Respects.bind {a : Exec σ α} {k : α → Exec σ β} (ha : a.Respects R)
    (hk : ∀ s x s', a s = .done x s' → (k x).Respects R) : (a >>= k).Respects R := by
  intro s t y s' hst h
  obtain ⟨x, s₁, hx, hy⟩ := bind_eq_done_iff.mp h
  obtain ⟨t₁, hx', hst₁⟩ := ha hst hx
  obtain ⟨t', hy', hst'⟩ := hk s x s₁ hx hst₁ hy
  exact ⟨t', bind_eq_done_iff.mpr ⟨x, t₁, hx', hy'⟩, hst'⟩

theorem Commutes.bind_right (trans : ∀ s t u, R s t → R t u → R s u) {k : β → Exec σ γ} (hb : a.Commutes R b)
    (hk : ∀ s y s', b s = .done y s' → a.Commutes R (k y))
    (hr : ∀ s y s', b s = .done y s' → (k y).Respects R) : a.Commutes R (b >>= k) := by
  intro s x s₁ z s₃ ha h
  obtain ⟨y, s₂, hy, hz⟩ := bind_eq_done_iff.mp h
  obtain ⟨t₁, t₂, hb₁, ha₁, hst₂⟩ := hb ha hy
  obtain ⟨t₃, hz', hst₃⟩ := hr s₁ y s₂ hy hst₂ hz
  obtain ⟨u₁, u₂, hz₁, ha₂, htu⟩ := hk s₁ y s₂ hy ha₁ hz'
  exact ⟨u₁, u₂, bind_eq_done_iff.mpr ⟨y, t₁, hb₁, hz₁⟩, ha₂, trans _ _ _ hst₃ htu⟩

theorem Commutes.bind_left (trans : ∀ s t u, R s t → R t u → R s u) {k : α → Exec σ γ} (ha : a.Commutes R b)
    (hk : ∀ s x s', a s = .done x s' → (k x).Commutes R b)
    (hr : ∀ s x s', a s = .done x s' → (k x).Respects R) : (a >>= k).Commutes R b := by
  intro s z s₂ y s₃ h hb
  obtain ⟨x, s₁, hx, hz⟩ := bind_eq_done_iff.mp h
  obtain ⟨t₁, t₂, hb₁, hz₁, hst₂⟩ := hk s x s₁ hx hz hb
  obtain ⟨u₁, u₂, hb₂, hx₂, htu⟩ := ha hx hb₁
  obtain ⟨u₃, hz₃, htu₃⟩ := hr s x s₁ hx htu hz₁
  exact ⟨u₁, u₃, hb₂, bind_eq_done_iff.mpr ⟨x, u₂, hx₂, hz₃⟩, trans _ _ _ hst₂ htu₃⟩

end

end Exec

/-! ## One byte of memory -/

/-- What an access does to a single byte: when it succeeds, what it returns and what it leaves in an epoch. -/
structure CellStep (α : Type) where
  addr : Nat
  ok : Cell → Prop
  out : Cell → α
  next : Nat → Entry → Entry
  within : ∀ epoch entry, entry.Within epoch → (next epoch entry).Within epoch

namespace CellStep

variable {α β : Type}

/-- A memory action that consists of one step on one byte. -/
def Describes (c : CellStep α) (a : Exec SharedMemory α) : Prop :=
  ∀ m x m', a m = .done x m' ↔ ∃ h : c.addr < m.cells.size,
    c.ok (m.cells[c.addr].cell m.epoch) ∧ x = c.out (m.cells[c.addr].cell m.epoch) ∧
      m' = m.modify c.addr (c.next m.epoch) (c.within m.epoch)

/-- Two steps on the same byte that succeed in one order succeed in the other. -/
def Swaps (c : CellStep α) (d : CellStep β) : Prop :=
  ∀ ⦃epoch entry⦄, c.ok (entry.cell epoch) → d.ok ((c.next epoch entry).cell epoch) →
    d.ok (entry.cell epoch) ∧ c.ok ((d.next epoch entry).cell epoch) ∧
      c.out ((d.next epoch entry).cell epoch) = c.out (entry.cell epoch) ∧
      d.out ((c.next epoch entry).cell epoch) = d.out (entry.cell epoch) ∧
      d.next epoch (c.next epoch entry) = c.next epoch (d.next epoch entry)

variable {c : CellStep α} {a : Exec SharedMemory α}

theorem Describes.commutes {d : CellStep β} {b : Exec SharedMemory β} (ha : c.Describes a) (hb : d.Describes b)
    (hcd : c.addr = d.addr → c.Swaps d) : a.Commutes Eq b := by
  intro m x m₁ y m₂ hm hm₁
  obtain ⟨hc, hok, rfl, rfl⟩ := (ha m x m₁).mp hm
  obtain ⟨hd, hok', rfl, rfl⟩ := (hb _ y m₂).mp hm₁
  have hd' : d.addr < m.cells.size := by simpa [SharedMemory.modify] using hd
  simp only [SharedMemory.modify, Array.getElem_modify] at hok' ⊢
  by_cases he : c.addr = d.addr
  · obtain ⟨addr, ok, out, next, within⟩ := c
    obtain ⟨addr', ok', out', next', within'⟩ := d
    obtain rfl : addr = addr' := he
    simp only [↓reduceIte] at hok' ⊢
    obtain ⟨hd₁, hc₁, hout, hout', hnext⟩ := hcd rfl hok hok'
    refine ⟨_, _, (hb m _ _).mpr ⟨hd', hd₁, hout', rfl⟩, (ha _ _ _).mpr ⟨?_, ?_, ?_, rfl⟩, ?_⟩
    · simpa [SharedMemory.modify] using hc
    · simpa [SharedMemory.modify, Array.getElem_modify] using hc₁
    · simpa [SharedMemory.modify, Array.getElem_modify] using hout.symm
    · refine SharedMemory.ext rfl (Array.ext (by simp [SharedMemory.modify]) fun i hi hi' => ?_) rfl
      simp only [SharedMemory.modify, Array.getElem_modify]
      split
      · rename_i h
        subst h
        exact hnext
      · rfl
  · simp only [if_neg he] at hok' ⊢
    refine ⟨_, _, (hb m _ _).mpr ⟨hd', hok', rfl, rfl⟩, (ha _ _ _).mpr ⟨?_, ?_, ?_, rfl⟩, ?_⟩
    · simpa [SharedMemory.modify] using hc
    · simpa [SharedMemory.modify, Array.getElem_modify, Ne.symm he] using hok
    · simp [SharedMemory.modify, Array.getElem_modify, Ne.symm he]
    · refine SharedMemory.ext rfl (Array.ext (by simp [SharedMemory.modify]) fun i hi hi' => ?_) rfl
      simp only [SharedMemory.modify, Array.getElem_modify]
      grind

/-- Reading a byte in the name of a wave. -/
def load (wave addr : Nat) : CellStep UInt8 where
  addr := addr
  ok cell := (∀ w, cell.writer = some w → w.wave = wave) ∧ wave < SharedMemory.maxReaders
  out cell := cell.byte
  next epoch := Entry.noteReader epoch wave
  within _ _ := .noteReader wave

/-- Writing a byte in the name of a lane. -/
def store (writer : Writer) (addr : Nat) (byte : UInt8) : CellStep Unit where
  addr := addr
  ok cell := (∀ w, cell.writer = some w → w.lane = writer.lane) ∧
    (∀ reader ∈ cell.readers, reader = writer.wave) ∧
    (cell.readers ≠ [] → writer.wave < SharedMemory.maxReaders)
  out _ := ()
  next epoch := Entry.stored epoch writer byte
  within _ _ := .stored writer byte

end CellStep

variable {cell : Cell} {wave addr : Nat}

theorem Cell.mem_readers {reader : Nat} : reader ∈ cell.readers ↔ cell.bits.toNat.testBit reader := by
  simp only [Cell.readers, List.mem_filter, List.mem_range, and_iff_right_iff_imp]
  intro h
  by_contra hge
  have hlt : cell.bits.toNat < 2 ^ reader :=
    Nat.lt_of_lt_of_le cell.bits.toNat_lt (Nat.pow_le_pow_right (by decide) (Nat.not_lt.mp hge))
  rw [Nat.testBit_lt_two_pow hlt] at h
  cases h

theorem Cell.mem_noteReader (h : wave < SharedMemory.maxReaders) {reader : Nat} :
    reader ∈ (cell.noteReader wave).readers ↔ reader = wave ∨ reader ∈ cell.readers := by
  have hbit : ∀ wave < SharedMemory.maxReaders, ((1 : UInt8) <<< UInt8.ofNat wave).toNat = 2 ^ wave := by decide
  simp only [Cell.mem_readers, Cell.noteReader, UInt8.toNat_or, Nat.testBit_or, hbit wave h,
    Nat.testBit_two_pow, Bool.or_eq_true, decide_eq_true_eq]
  rw [or_comm, eq_comm]

/-- A byte may be read unless another wave has written it. -/
theorem Cell.readError?_eq_none : cell.readError? addr wave = none ↔ ∀ w, cell.writer = some w → w.wave = wave := by
  unfold Cell.readError?
  cases cell.writer with
  | none => simp
  | some w => simp

/-- A byte may be written unless another lane has written it or another wave has read it. -/
theorem Cell.writeError?_eq_none {writer : Writer} :
    cell.writeError? addr writer = none ↔ (∀ w, cell.writer = some w → w.lane = writer.lane) ∧
      ∀ reader ∈ cell.readers, reader = writer.wave := by
  have hr : Cell.writeError?.readers cell addr writer = none ↔ ∀ reader ∈ cell.readers, reader = writer.wave := by
    simp [Cell.writeError?.readers]
  unfold Cell.writeError?
  cases cell.writer with
  | none => simpa using hr
  | some w =>
    by_cases hw : w.lane = writer.lane
    · simpa [hw] using hr
    · simp [hw]

namespace SharedMemory

variable {writer : Writer}

theorem describes_loadByte (wave addr : Nat) : (CellStep.load wave addr).Describes (loadByte wave addr) := by
  intro m x m'
  unfold loadByte
  simp only [CellStep.load]
  by_cases hlt : addr < m.cells.size
  · simp only [hlt, ↓reduceDIte, exists_true_left, ← @Cell.readError?_eq_none _ wave addr]
    cases (m.cells[addr].cell m.epoch).readError? addr wave <;> by_cases hmax : wave < maxReaders <;>
      simp [hmax, eq_comm]
  · simp [hlt]

/-- Writes one byte after asking for the right to do so. -/
def storeByte (writer : Writer) (addr : Nat) (byte : UInt8) : Exec SharedMemory Unit := do
  claimByte writer addr
  writeByte writer addr byte

theorem claimByte_eq_done_iff {m m' : SharedMemory} : claimByte writer addr m = .done () m' ↔ ∃ h : addr < m.cells.size,
      (CellStep.store writer addr 0).ok (m.cells[addr].cell m.epoch) ∧ m' = m := by
  unfold claimByte
  simp only [CellStep.store]
  by_cases hlt : addr < m.cells.size
  · simp only [hlt, ↓reduceDIte, exists_true_left, ← and_assoc, ← @Cell.writeError?_eq_none _ addr]
    cases he : (m.cells[addr].cell m.epoch).writeError? addr writer with
    | some error =>
      split <;> simp
    | none =>
      have hblocked : (m.cells[addr].cell m.epoch).writer.any (fun w => decide (w.lane ≠ writer.lane)) = false := by
        cases hc : (m.cells[addr].cell m.epoch).writer with
        | none => rfl
        | some w => simp [(Cell.writeError?_eq_none.mp he).1 w hc]
      simp only [hblocked, Bool.not_false, Bool.true_and, Bool.and_eq_true, Bool.not_eq_true', decide_eq_true_eq,
        List.isEmpty_eq_false_iff, true_and]
      split
      · rename_i hwide
        simp only [false_iff, reduceCtorEq]
        exact fun h => absurd (h.1 hwide.1) (Nat.not_lt.mpr hwide.2)
      · rename_i hwide
        simp only [Outcome.done.injEq, true_and]
        exact ⟨fun h => ⟨fun hr => Nat.not_le.mp fun hle => hwide ⟨hr, hle⟩, h.symm⟩, fun h => h.2.symm⟩
  · simp [hlt]

theorem describes_storeByte (writer : Writer) (addr : Nat) (byte : UInt8) :
    (CellStep.store writer addr byte).Describes (storeByte writer addr byte) := by
  intro m x m'
  rw [storeByte, Exec.bind_eq_done_iff]
  constructor
  · rintro ⟨⟨⟩, m₁, hclaim, hwrite⟩
    obtain ⟨hlt, hok, rfl⟩ := claimByte_eq_done_iff.mp hclaim
    cases hwrite
    exact ⟨hlt, hok, rfl, rfl⟩
  · rintro ⟨hlt, hok, rfl, rfl⟩
    exact ⟨(), m, claimByte_eq_done_iff.mpr ⟨hlt, hok, rfl⟩, rfl⟩

end SharedMemory

namespace CellStep

variable {writer : Writer}

theorem load_swaps_load (wave wave' addr addr' : Nat) : (load wave addr).Swaps (load wave' addr') := by
  rintro epoch entry ⟨hw, hmax⟩ ⟨hw', hmax'⟩
  simp only [load, Entry.cell_noteReader] at hw hw' hmax hmax' ⊢
  refine ⟨⟨hw', hmax'⟩, ⟨hw, hmax⟩, rfl, rfl, ?_⟩
  simp only [Entry.noteReader, Entry.cell, ↓reduceIte, UInt8.or_assoc, UInt8.or_comm (1 <<< UInt8.ofNat wave)]

/-- No other wave writes a byte that has been read. -/
theorem load_swaps_store (h : wave ≠ writer.wave)
    (addr addr' : Nat) (byte : UInt8) : (load wave addr).Swaps (store writer addr' byte) := by
  rintro epoch entry ⟨-, hmax⟩ ⟨-, hr, -⟩
  simp only [load, Entry.cell_noteReader] at hr
  exact absurd (hr wave ((Cell.mem_noteReader hmax).mpr (.inl rfl))) h

/-- No other wave reads a byte that has been written. -/
theorem store_swaps_load (h : writer.wave ≠ wave)
    (addr addr' : Nat) (byte : UInt8) : (store writer addr byte).Swaps (load wave addr') := by
  rintro epoch entry - ⟨hw, -⟩
  simp only [store, Entry.cell_stored] at hw
  exact absurd (hw writer rfl) h

/-- No other lane writes a byte that has been written. -/
theorem store_swaps_store {writer' : Writer} (h : writer.lane ≠ writer'.lane)
    (addr addr' : Nat) (byte byte' : UInt8) : (store writer addr byte).Swaps (store writer' addr' byte') := by
  rintro epoch entry - ⟨hw, -, -⟩
  simp only [store, Entry.cell_stored] at hw
  exact absurd (hw writer rfl) h

end CellStep

end PrimitiveShader
