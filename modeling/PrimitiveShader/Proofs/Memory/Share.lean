import PrimitiveShader.Proofs.Memory.Ownership
import PrimitiveShader.Proofs.Wave.Twin

/-!
# The share of a workgroup

A workgroup owns the first bytes of a memory. Two memories have the same share of `size` bytes when these
bytes have been touched by the same lanes and waves since the last barrier, and where `bytes` says so hold the
same (`SharedMemory.SameShare`). An access cannot tell such memories apart: a store ends in the same way on
both (`SharedMemory.SameShare.store`), and so does a load if the bytes are the same
(`SharedMemory.SameShare.load`). What lies behind the share and how large the memories are does not matter.
-/

namespace PrimitiveShader

/-- Cells with the same accesses since the last barrier and, where `bytes` holds, with the same byte. -/
structure Cell.SameHistory (bytes : Prop) (c c' : Cell) : Prop where
  byte : bytes → c'.byte = c.byte
  writer : c'.writer = c.writer
  bits : c'.bits = c.bits

namespace Cell.SameHistory

variable {bytes : Prop} {c c' : Cell}

variable (h : c.SameHistory bytes c')
include h

theorem noteReader (wave : Nat) : (c.noteReader wave).SameHistory bytes (c'.noteReader wave) :=
  ⟨h.byte, h.writer, by simp only [Cell.noteReader, h.bits]⟩

theorem readers_eq : c'.readers = c.readers := by rw [Cell.readers, h.bits, Cell.readers]

theorem readError?_eq (addr wave : Nat) : c'.readError? addr wave = c.readError? addr wave := by
  unfold Cell.readError?
  rw [h.writer]

theorem writeError?_eq (addr : Nat) (writer : Writer) : c'.writeError? addr writer = c.writeError? addr writer := by
  unfold Cell.writeError? Cell.writeError?.readers
  rw [h.writer, h.readers_eq]

end Cell.SameHistory

/-- Memories with the same history of the first `size` bytes and, where `bytes` holds, with the same
contents there. -/
structure SharedMemory.SameShare (size : Nat) (bytes : Prop) (m m' : SharedMemory) : Prop where
  room : size ≤ m.cells.size
  room' : size ≤ m'.cells.size
  cell : ∀ a < size, (m.cellAt a).SameHistory bytes (m'.cellAt a)

namespace SharedMemory.SameShare

variable {size : Nat} {bytes : Prop} {m m' : SharedMemory}

theorem sync (h : m.SameShare size bytes m') : m.sync.SameShare size bytes m'.sync where
  room := h.room
  room' := h.room'
  cell a ha := by
    rw [cellAt_sync, cellAt_sync]
    exact ⟨(h.cell a ha).byte, rfl, rfl⟩

/-- An access that gets through one byte on both sides. -/
theorem passes {rule : ByteRule} {addr : Nat} {n n' : SharedMemory} (h : m.SameShare size bytes m')
    (hm : m.Passes rule addr (addr + 1) n) (hm' : m'.Passes rule addr (addr + 1) n')
    (hnext : (rule.next addr (m.cellAt addr)).SameHistory bytes (rule.next addr (m'.cellAt addr))) :
    n.SameShare size bytes n' where
  room := hm.size ▸ h.room
  room' := hm'.size ▸ h.room'
  cell a ha := by
    rw [hm.cell, hm'.cell]
    split
    · obtain rfl : a = addr := by omega
      exact hnext
    · exact h.cell a ha

variable {wave lane addr len : Nat} {writer : Writer} {value : UInt64}

section

variable (h : m.SameShare size bytes m')
include h

/-- Whether an access is within the share does not depend on the memory. -/
theorem checkRange : (SharedMemory.checkRange lane addr len size m).Twin (SameShare size bytes)
      (fun _ t _ t' => t.SameShare size bytes t' ∧ addr + len ≤ size)
      (SharedMemory.checkRange lane addr len size m') := by
  have hroom := h.room
  have hroom' := h.room'
  unfold SharedMemory.checkRange
  split
  · rfl
  · by_cases hlen : size < addr + len
    · rw [if_pos (.inl hlen), if_pos (.inl hlen)]
      exact ⟨rfl, h⟩
    · rw [if_neg (by omega), if_neg (by omega)]
      exact ⟨h, by omega⟩

theorem loadByte (hbytes : bytes) (ha : addr < size) :
    (SharedMemory.loadByte wave addr m).Agree (SameShare size bytes) (SharedMemory.loadByte wave addr m') := by
  have hm := Nat.lt_of_lt_of_le ha h.room
  have hm' := Nat.lt_of_lt_of_le ha h.room'
  have hcell := h.cell addr ha
  have herror := hcell.readError?_eq addr wave
  simp only [SharedMemory.loadByte, hm, hm', ↓reduceDIte, ← cellAt_eq, herror]
  cases he : (m.cellAt addr).readError? addr wave with
  | some error => exact ⟨rfl, h⟩
  | none =>
    by_cases hwave : wave < maxReaders
    · simp only [hwave, ↓reduceIte]
      exact ⟨hcell.byte hbytes, h.passes (passes_load hm hwave he) (passes_load hm' hwave (herror.trans he))
        (hcell.noteReader wave)⟩
    · simp only [hwave, ↓reduceIte]
      rfl

theorem claimByte (ha : addr < size) :
    (SharedMemory.claimByte writer addr m).Agree (SameShare size bytes) (SharedMemory.claimByte writer addr m') := by
  have hm := Nat.lt_of_lt_of_le ha h.room
  have hm' := Nat.lt_of_lt_of_le ha h.room'
  have hcell := h.cell addr ha
  simp only [SharedMemory.claimByte, hm, hm', ↓reduceDIte, ← cellAt_eq, hcell.writer, hcell.readers_eq,
    hcell.writeError?_eq]
  split
  · rfl
  · cases (m.cellAt addr).writeError? addr writer with
    | some error => exact ⟨rfl, h⟩
    | none => exact ⟨rfl, h⟩

theorem writeByte (ha : addr < size) (byte : UInt8) :
    (SharedMemory.writeByte writer addr byte m).Agree (SameShare size bytes)
      (SharedMemory.writeByte writer addr byte m') := by
  have hpass (m : SharedMemory) (hm : addr < m.cells.size) :
      m.Passes ⟨True, fun _ _ => none, fun _ cell => cell.stored writer byte⟩ addr (addr + 1)
        (m.modify addr (Entry.stored m.epoch writer byte) fun _ => .stored writer byte) :=
    passes_modify hm trivial rfl fun _ => Entry.cell_stored writer byte
  exact ⟨rfl, h.passes (hpass m (Nat.lt_of_lt_of_le ha h.room)) (hpass m' (Nat.lt_of_lt_of_le ha h.room'))
    ⟨fun _ => rfl, rfl, (h.cell addr ha).bits⟩⟩

end

theorem loadBytes (hbytes : bytes) : ∀ {n i : Nat} {m m' : SharedMemory}, m.SameShare size bytes m' →
    addr + i + n ≤ size → (SharedMemory.loadBytes wave addr n i m).Agree (SameShare size bytes)
      (SharedMemory.loadBytes wave addr n i m')
  | 0, _, _, _, h, _ => ⟨rfl, h⟩
  | n + 1, i, _, _, h, hle => by
    refine .bind (h.loadByte hbytes (by omega)) fun byte t t' ht => ?_
    refine .bind (.lift _ ht) fun _ u u' hu => ?_
    exact .bind (loadBytes hbytes hu (by omega)) fun rest v v' hv => ⟨rfl, hv⟩

theorem storeBytes : ∀ {n i : Nat} {m m' : SharedMemory}, m.SameShare size bytes m' →
    addr + i + n ≤ size → (SharedMemory.storeBytes writer addr value n i m).Agree (SameShare size bytes)
      (SharedMemory.storeBytes writer addr value n i m')
  | 0, _, _, _, h, _ => ⟨rfl, h⟩
  | n + 1, i, _, _, h, hle => by
    refine .bind (h.claimByte (by omega)) fun _ t t' ht => ?_
    refine .bind (.lift _ ht) fun _ u u' hu => ?_
    exact .bind (hu.writeByte (by omega) _) fun _ v v' hv => storeBytes hv (by omega)

/-- A load ends in the same way on both sides if the bytes are the same. -/
theorem load (h : m.SameShare size bytes m') (hbytes : bytes) :
    (SharedMemory.load wave lane addr len size m).Agree (SameShare size bytes)
      (SharedMemory.load wave lane addr len size m') :=
  Outcome.Twin.bind (h.checkRange.mono fun _ _ _ _ _ _ ⟨ht, hle⟩ => loadBytes hbytes ht (by omega))

/-- A store ends in the same way on both sides. -/
theorem store (h : m.SameShare size bytes m') :
    (SharedMemory.store wave lane addr len value size m).Agree (SameShare size bytes)
      (SharedMemory.store wave lane addr len value size m') :=
  Outcome.Twin.bind (h.checkRange.mono fun _ _ _ _ _ _ ⟨ht, hle⟩ => storeBytes ht (by omega))

end SharedMemory.SameShare

end PrimitiveShader
