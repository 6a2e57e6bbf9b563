import PrimitiveShader.Executor.Outcome
import PrimitiveShader.Log

/-!
# Shared memory

The memory of a compute unit remembers, for every byte, who has touched it since the last barrier.
Until the next barrier a byte that one wave has written must not be touched by another wave, and it
must not be written by two lanes; the byte that breaks the rule is reported, and what the access has
done to the bytes before it stays done.

Barriers divide time into epochs, and an `Entry` tags the last write and the last reads of its byte
with the epoch they were made in. A barrier only begins the next epoch: what an entry still holds of
earlier ones is disregarded (`Entry.cell`) and replaced when the byte is touched again. No tag is ahead
of its memory, so behind a barrier every byte is as good as untouched (`Entry.cell_succ`).

Values are stored with their lowest byte first.
-/

namespace PrimitiveShader

/-- Who wrote a byte. -/
structure Writer where
  wave : Nat
  lane : Nat
deriving DecidableEq, Repr

/-- A byte with its latest accesses and the epochs in which they were made. -/
structure Entry where
  byte : UInt8
  writeEpoch : Nat := 0
  writer : Writer := ⟨0, 0⟩
  readEpoch : Nat := 0
  /-- One bit for each wave that has read the byte in that epoch. -/
  readers : UInt8 := 0
deriving DecidableEq, Repr

/-- A byte with its accesses since the last barrier. -/
structure Cell where
  byte : UInt8
  writer : Option Writer := none
  /-- One bit for each wave that has read the byte. -/
  bits : UInt8 := 0
deriving DecidableEq, Repr

/-- The waves that a byte can tell apart. -/
def SharedMemory.maxReaders : Nat := 8

namespace Cell

/-- The waves that have read the byte, in ascending order. -/
def readers (cell : Cell) : List Nat := (List.range SharedMemory.maxReaders).filter cell.bits.toNat.testBit

/-- Notes that a wave has read the byte. -/
def noteReader (cell : Cell) (wave : Nat) : Cell :=
  { cell with bits := cell.bits ||| (1 <<< UInt8.ofNat wave) }

/-- The byte after it has been stored. -/
def stored (cell : Cell) (writer : Writer) (byte : UInt8) : Cell :=
  { cell with byte, writer := some writer }

/-- The error of a wave that may not read the byte now. -/
def readError? (cell : Cell) (addr wave : Nat) : Option RunError :=
  match cell.writer with
  | some writer => if writer.wave = wave then none else some (.race addr wave writer.wave)
  | none => none

/-- The error of a lane that may not write the byte now. A clash with another writer is reported
before one with a reader, and of the readers the lowest is named. -/
def writeError? (cell : Cell) (addr : Nat) (writer : Writer) : Option RunError :=
  match cell.writer with
  | some other =>
    if other.lane = writer.lane then readers else some (.writeConflict addr writer.lane other.lane)
  | none => readers
where
  readers : Option RunError :=
    if cell.readers.all (· = writer.wave) then none
    else some (.race addr writer.wave (cell.readers.min?.getD 0))

end Cell

namespace Entry

/-- What an entry says in an epoch. -/
def cell (epoch : Nat) (entry : Entry) : Cell where
  byte := entry.byte
  writer := if entry.writeEpoch = epoch then some entry.writer else none
  bits := if entry.readEpoch = epoch then entry.readers else 0

/-- Notes that a wave has read the byte. The readers of earlier epochs are dropped only now. -/
def noteReader (epoch wave : Nat) (entry : Entry) : Entry :=
  { entry with readEpoch := epoch, readers := (entry.cell epoch).bits ||| (1 <<< UInt8.ofNat wave) }

/-- The entry after a lane has stored the byte. -/
def stored (epoch : Nat) (writer : Writer) (byte : UInt8) (entry : Entry) : Entry :=
  { entry with byte, writeEpoch := epoch, writer }

/-- No access is tagged with an epoch that has not begun. -/
def Within (epoch : Nat) (entry : Entry) : Prop := entry.writeEpoch ≤ epoch ∧ entry.readEpoch ≤ epoch

variable {epoch : Nat} {entry : Entry}

@[simp] theorem cell_noteReader (wave : Nat) :
    (entry.noteReader epoch wave).cell epoch = (entry.cell epoch).noteReader wave := by
  simp only [cell, noteReader, Cell.noteReader, ↓reduceIte]
  rfl

@[simp] theorem cell_stored (writer : Writer) (byte : UInt8) :
    (entry.stored epoch writer byte).cell epoch = (entry.cell epoch).stored writer byte := by
  simp only [cell, stored, Cell.stored, ↓reduceIte]
  rfl

/-- In a new epoch nothing is remembered but the byte. -/
theorem cell_succ (h : entry.Within epoch) : entry.cell (epoch + 1) = { byte := entry.byte } := by
  simp [cell, show entry.writeEpoch ≠ epoch + 1 by have := h.1; omega,
    show entry.readEpoch ≠ epoch + 1 by have := h.2; omega]

theorem Within.noteReader (wave : Nat) (h : entry.Within epoch) : (entry.noteReader epoch wave).Within epoch :=
  ⟨h.1, Nat.le_refl _⟩

theorem Within.stored (writer : Writer) (byte : UInt8) (h : entry.Within epoch) :
    (entry.stored epoch writer byte).Within epoch :=
  ⟨Nat.le_refl _, h.2⟩

/-- The entries of a memory in a given epoch. Epochs are counted from one, so that a byte which nobody has
touched is of no epoch. -/
def AllWithin (epoch : Nat) (entries : Array Entry) : Prop := 0 < epoch ∧ ∀ entry ∈ entries, entry.Within epoch

theorem allWithin_empty : AllWithin 1 #[] := by simp [AllWithin]

end Entry

/-- The shared memory of a compute unit. -/
@[ext]
structure SharedMemory where
  /-- What fresh bytes hold. -/
  fill : UInt8 := 0
  cells : Array Entry := #[]
  epoch : Nat := 1
  recorded : Entry.AllWithin epoch cells := by exact Entry.allWithin_empty
deriving DecidableEq, Repr

namespace SharedMemory

/-- The bytes of the memory. -/
def bytes (memory : SharedMemory) : Array UInt8 := memory.cells.map (·.byte)

theorem recorded_reserve (memory : SharedMemory) (size : Nat) : Entry.AllWithin memory.epoch
    (memory.cells ++ Array.replicate (size - memory.cells.size) { byte := memory.fill }) := by
  refine ⟨memory.recorded.1, fun entry h => ?_⟩
  rcases Array.mem_append.mp h with h | h
  · exact memory.recorded.2 entry h
  · rw [(Array.mem_replicate.mp h).2]
    exact ⟨Nat.zero_le _, Nat.zero_le _⟩

/-- Grows the memory to at least `size` bytes. -/
def reserve (memory : SharedMemory) (size : Nat) : SharedMemory :=
  { memory with
    cells := memory.cells ++ Array.replicate (size - memory.cells.size) { byte := memory.fill }
    recorded := memory.recorded_reserve size }

theorem recorded_sync (memory : SharedMemory) : Entry.AllWithin (memory.epoch + 1) memory.cells :=
  ⟨Nat.succ_pos _, fun entry h => (memory.recorded.2 entry h).imp Nat.le_succ_of_le Nat.le_succ_of_le⟩

/-- A barrier: what was done before is visible to everyone after. -/
def sync (memory : SharedMemory) : SharedMemory :=
  { memory with epoch := memory.epoch + 1, recorded := memory.recorded_sync }

theorem size_reserve (memory : SharedMemory) (size : Nat) :
    (memory.reserve size).cells.size = max memory.cells.size size := by
  simp only [reserve, Array.size_append, Array.size_replicate]
  omega

theorem recorded_modify (memory : SharedMemory) (addr : Nat) {f : Entry → Entry}
    (hf : ∀ entry, entry.Within memory.epoch → (f entry).Within memory.epoch) :
    Entry.AllWithin memory.epoch (memory.cells.modify addr f) := by
  refine ⟨memory.recorded.1, fun entry h => ?_⟩
  obtain ⟨i, hi, rfl⟩ := Array.mem_iff_getElem.mp h
  rw [Array.size_modify] at hi
  have hentry := memory.recorded.2 _ (Array.getElem_mem hi)
  rw [Array.getElem_modify]
  split
  · exact hf _ hentry
  · exact hentry

/-- Changes the entry at an address. -/
@[inline] def modify (memory : SharedMemory) (addr : Nat) (f : Entry → Entry)
    (hf : ∀ entry, entry.Within memory.epoch → (f entry).Within memory.epoch) : SharedMemory :=
  { memory with cells := memory.cells.modify addr f, recorded := memory.recorded_modify addr hf }

/-- Sets a byte from outside. -/
def poke (memory : SharedMemory) (index : Nat) (byte : UInt8) : Except Fault SharedMemory :=
  if index < memory.cells.size then .ok (memory.modify index ({ · with byte }) fun _ => id)
  else .error .outOfRange

/-- An access must end within the workgroup's share and within the memory. -/
@[inline] def checkRange (lane addr len size : Nat) : Exec SharedMemory Unit := fun memory =>
  if 18446744073709551616 ≤ addr + len then .faulted .overflow
  else if size < addr + len ∨ memory.cells.size < addr + len then
    .failed (.outOfBounds lane addr len size) memory
  else .done () memory

/-- Reads one byte. -/
@[inline] def loadByte (wave addr : Nat) : Exec SharedMemory UInt8 := fun memory =>
  if h : addr < memory.cells.size then
    let cell := memory.cells[addr].cell memory.epoch
    match cell.readError? addr wave with
    | some error => .failed error memory
    | none =>
      if wave < maxReaders then
        .done cell.byte (memory.modify addr (Entry.noteReader memory.epoch wave) fun _ => .noteReader wave)
      else
        .faulted .shiftTooWide
  else
    .faulted .outOfRange

/-- Asks for the right to write one byte. -/
@[inline] def claimByte (writer : Writer) (addr : Nat) : Exec SharedMemory Unit := fun memory =>
  if h : addr < memory.cells.size then
    let cell := memory.cells[addr].cell memory.epoch
    let blocked := cell.writer.any (·.lane ≠ writer.lane)
    if !blocked && !cell.readers.isEmpty && decide (maxReaders ≤ writer.wave) then
      .faulted .shiftTooWide
    else
      match cell.writeError? addr writer with
      | some error => .failed error memory
      | none => .done () memory
  else
    .faulted .outOfRange

/-- Writes one byte. -/
@[inline] def writeByte (writer : Writer) (addr : Nat) (byte : UInt8) : Exec SharedMemory Unit :=
  Exec.update fun memory =>
    memory.modify addr (Entry.stored memory.epoch writer byte) fun _ => .stored writer byte

/-- A value has eight bytes. -/
@[inline] def checkByte (i : Nat) : Except Fault Unit :=
  if i < 8 then .ok () else .error .shiftTooWide

/-- Reads `n` bytes of an access at `addr`, from its byte `i` on. -/
def loadBytes (wave addr : Nat) : (n i : Nat) → Exec SharedMemory UInt64
  | 0, _ => pure 0
  | n + 1, i => do
    let byte ← loadByte wave (addr + i)
    checkByte i
    let rest ← loadBytes wave addr n (i + 1)
    return (byte.toUInt64 <<< UInt64.ofNat (8 * i)) ||| rest

/-- Writes `n` bytes of an access at `addr`, from its byte `i` on. -/
def storeBytes (writer : Writer) (addr : Nat) (value : UInt64) :
    (n i : Nat) → Exec SharedMemory Unit
  | 0, _ => pure ()
  | n + 1, i => do
    claimByte writer (addr + i)
    checkByte i
    writeByte writer (addr + i) (Bits.byte value i)
    storeBytes writer addr value n (i + 1)

/-- Loads a value of `len` bytes. The workgroup owns the first `size` bytes of the memory. -/
def load (wave lane addr len size : Nat) : Exec SharedMemory UInt64 := do
  checkRange lane addr len size
  loadBytes wave addr len 0

/-- Stores a value of `len` bytes. -/
def store (wave lane addr len : Nat) (value : UInt64) (size : Nat) : Exec SharedMemory Unit := do
  checkRange lane addr len size
  storeBytes ⟨wave, lane⟩ addr value len 0

/-! ## Records -/

/-- The record of a load or a store. -/
def accessRecord (verb : String) (lane addr : Nat) (value : UInt64) : LogRecord :=
  ⟨.trace, s!"lane {lane} {verb} {Radix.hex addr} = {Radix.hex value.toNat}"⟩

/-- The records of a load: one, if it succeeds. -/
def loadLog (wave lane addr len size : Nat) (memory : SharedMemory) : List LogRecord :=
  match load wave lane addr len size memory with
  | .done value _ => [accessRecord "load" lane addr value]
  | _ => []

/-- The records of a store: one, if it is within bounds. -/
def storeLog (lane addr len : Nat) (value : UInt64) (size : Nat) (memory : SharedMemory) :
    List LogRecord :=
  match checkRange lane addr len size memory with
  | .done _ _ => [accessRecord "store" lane addr value]
  | _ => []

end SharedMemory

end PrimitiveShader
