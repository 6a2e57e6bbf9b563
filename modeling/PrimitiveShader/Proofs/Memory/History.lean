import Mathlib.Data.Nat.Digits.Defs
import PrimitiveShader.Proofs.Memory.Ownership

/-!
# What the memory remembers of its history

The memory keeps one writer and a set of readers for every byte, each with the epoch it belongs to, and a
barrier clears none of them. This is enough: after any sequence of successful calls the tags of a byte that are
of the present epoch name the lane that has stored it since the last barrier and the waves that have loaded it
since (`Entry.Tags`), and with them the byte knows the value stored last (`SharedMemory.After.records`). So whether
an access fails can be read off the calls that came before it, and so can the value that a load returns
(`SharedMemory.After.access_exact`).

Histories are lists of calls with the latest call first. Each lane belongs to one wave.
-/

namespace PrimitiveShader

/-- A call on the shared memory. -/
inductive MemoryCall where
  | reserve (size : Nat)
  | load (lane addr len size : Nat)
  | store (lane addr len : Nat) (value : UInt64) (size : Nat)
  | sync
deriving DecidableEq, Repr

namespace MemoryCall

/-- Makes a call. -/
def perform (waveOf : Nat → Nat) : MemoryCall → Exec SharedMemory Unit
  | .reserve size => Exec.update (·.reserve size)
  | .load lane addr len size => do
    let _ ← SharedMemory.load (waveOf lane) lane addr len size
  | .store lane addr len value size => SharedMemory.store (waveOf lane) lane addr len value size
  | .sync => Exec.update SharedMemory.sync

/-- The call stores the byte at `a` in the name of `lane`. -/
def StoresAt (lane a : Nat) : MemoryCall → Prop
  | .store lane' addr len _ _ => lane' = lane ∧ addr ≤ a ∧ a < addr + len
  | _ => False

/-- The call loads the byte at `a` in the name of `lane`. -/
def LoadsAt (lane a : Nat) : MemoryCall → Prop
  | .load lane' addr len _ => lane' = lane ∧ addr ≤ a ∧ a < addr + len
  | _ => False

/-- The calls since the last barrier. -/
def sinceSync (history : List MemoryCall) : List MemoryCall :=
  history.takeWhile (· ≠ .sync)

/-- The lane has stored the byte since the last barrier. -/
def StoredBy (history : List MemoryCall) (lane a : Nat) : Prop :=
  ∃ call ∈ sinceSync history, call.StoresAt lane a

/-- The lane has loaded the byte since the last barrier. -/
def LoadedBy (history : List MemoryCall) (lane a : Nat) : Prop :=
  ∃ call ∈ sinceSync history, call.LoadsAt lane a

/-- The bytes that have been reserved. -/
def reserved : List MemoryCall → Nat
  | [] => 0
  | .reserve size :: rest => max (reserved rest) size
  | _ :: rest => reserved rest

/-- The byte that was stored last, or the fill byte. -/
def latest (fill : UInt8) : List MemoryCall → Nat → UInt8
  | [], _ => fill
  | .store _ addr len value _ :: rest, a => overwrite (latest fill rest) addr len value a
  | _ :: rest, a => latest fill rest a

variable {history : List MemoryCall} {call : MemoryCall} {lane a : Nat}

theorem not_storedBy_sync : ¬ StoredBy (.sync :: history) lane a := by
  rintro ⟨call, hmem, -⟩
  simp [sinceSync] at hmem

theorem not_loadedBy_sync : ¬ LoadedBy (.sync :: history) lane a := by
  rintro ⟨call, hmem, -⟩
  simp [sinceSync] at hmem

theorem storedBy_cons (h : call ≠ .sync) :
    StoredBy (call :: history) lane a ↔ call.StoresAt lane a ∨ StoredBy history lane a := by
  simp [StoredBy, sinceSync, h]

theorem loadedBy_cons (h : call ≠ .sync) :
    LoadedBy (call :: history) lane a ↔ call.LoadsAt lane a ∨ LoadedBy history lane a := by
  simp [LoadedBy, sinceSync, h]

end MemoryCall

open MemoryCall

/-! ## Little-endian values -/

/-- The bytes of a value are its digits to base 256, the lowest first. -/
theorem toNat_littleEndian (view : Nat → UInt8) (addr : Nat) {n i : Nat} (h : i + n ≤ 8) :
    (littleEndian view addr n i).toNat =
      2 ^ (8 * i) * Nat.ofDigits 256 ((List.range n).map fun j => (view (addr + i + j)).toNat) := by
  induction n generalizing i with
  | zero => simp [littleEndian]
  | succ n ih =>
    have hrest := ih (i := i + 1) (by omega)
    have hpow : 2 ^ (8 * (i + 1)) = 2 ^ (8 * i) * 256 := Nat.pow_add 2 (8 * i) 8
    have hfit : (view (addr + i)).toNat * 2 ^ (8 * i) < 2 ^ (8 * (i + 1)) := by
      rw [hpow, Nat.mul_comm]
      exact Nat.mul_lt_mul_of_pos_left (view (addr + i)).toNat_lt (Nat.two_pow_pos _)
    have hword : 2 ^ (8 * (i + 1)) ≤ 2 ^ 64 := Nat.pow_le_pow_right (by omega) (by omega)
    have hfirst : ((view (addr + i)).toUInt64 <<< UInt64.ofNat (8 * i)).toNat =
        (view (addr + i)).toNat * 2 ^ (8 * i) := by
      rw [UInt64.toNat_shiftLeft, UInt8.toNat_toUInt64, UInt64.toNat_ofNat_of_lt' (by simp only [UInt64.size]; omega),
        Nat.mod_eq_of_lt (show 8 * i < 64 by omega), Nat.shiftLeft_eq, Nat.mod_eq_of_lt (Nat.lt_of_lt_of_le hfit hword)]
    have htail : (List.range (n + 1)).map (fun j => (view (addr + i + j)).toNat) = (view (addr + i)).toNat ::
          (List.range n).map fun j => (view (addr + (i + 1) + j)).toNat := by
      simp only [List.range_succ_eq_map, List.map_cons, List.map_map, Nat.add_zero,
        Function.comp_def, Nat.succ_eq_add_one, Nat.add_comm, Nat.add_left_comm]
    rw [littleEndian, UInt64.toNat_or, hfirst, hrest, htail, Nat.ofDigits_cons, Nat.or_comm,
      ← Nat.two_pow_add_eq_or_of_lt hfit, hpow]
    ring

theorem littleEndian_lt (view : Nat → UInt8) (addr : Nat) {n : Nat} (h : n ≤ 8) :
    (littleEndian view addr n 0).toNat < 2 ^ (8 * n) := by
  rw [toNat_littleEndian view addr (by omega), Nat.mul_zero, Nat.pow_zero, Nat.one_mul, Nat.pow_mul]
  refine Nat.lt_of_lt_of_eq (Nat.ofDigits_lt_base_pow_length (by decide) fun x hx => ?_) (by simp)
  obtain ⟨j, -, rfl⟩ := List.mem_map.mp hx
  exact UInt8.toNat_lt _

/-! ## The history of a memory -/

section

variable {waveOf : Nat → Nat} {fill : UInt8} {history : List MemoryCall}

/-- A byte knows what has been done to it: the value stored last, the lane that has stored it since
the last barrier and the waves that have loaded it since. -/
structure Cell.Records (waveOf : Nat → Nat) (fill : UInt8) (history : List MemoryCall) (a : Nat)
    (cell : Cell) : Prop where
  byte : cell.byte = latest fill history a
  writer : ∀ w, cell.writer = some w ↔ w.wave = waveOf w.lane ∧ StoredBy history w.lane a
  readers : ∀ wave, wave ∈ cell.readers ↔ ∃ lane, LoadedBy history lane a ∧ waveOf lane = wave

namespace Cell.Records

variable {a : Nat} {cell : Cell}

variable (h : cell.Records waveOf fill history a)
include h

/-- A wave may load a byte unless another wave has stored it. -/
theorem readable_iff {wave : Nat} : cell.Readable wave ↔ ∀ lane, StoredBy history lane a → waveOf lane = wave := by
  constructor
  · intro hread lane hlane
    exact hread ⟨waveOf lane, lane⟩ ((h.writer _).mpr ⟨rfl, hlane⟩)
  · intro hall w hw
    obtain ⟨hwave, hstored⟩ := (h.writer w).mp hw
    exact hwave.trans (hall _ hstored)

/-- A lane may store a byte unless another lane has stored it or another wave has loaded it. -/
theorem writable_iff {writer : Writer} : cell.Writable writer ↔ (∀ lane, StoredBy history lane a → lane = writer.lane) ∧
      ∀ lane, LoadedBy history lane a → waveOf lane = writer.wave := by
  refine and_congr ?_ ?_
  · constructor
    · intro hwrite lane hlane
      exact hwrite ⟨waveOf lane, lane⟩ ((h.writer _).mpr ⟨rfl, hlane⟩)
    · intro hall w hw
      exact hall _ ((h.writer w).mp hw).2
  · constructor
    · intro hall lane hlane
      exact hall _ ((h.readers _).mpr ⟨lane, hlane, rfl⟩)
    · intro hall reader hreader
      obtain ⟨lane, hlane, rfl⟩ := (h.readers reader).mp hreader
      exact hall lane hlane

theorem pass {call : MemoryCall} (hne : call ≠ .sync)
    (hstores : ∀ lane, ¬ call.StoresAt lane a) (hloads : ∀ lane, ¬ call.LoadsAt lane a)
    (hlatest : latest fill (call :: history) a = latest fill history a) :
    cell.Records waveOf fill (call :: history) a where
  byte := h.byte.trans hlatest.symm
  writer w := by rw [h.writer, storedBy_cons hne, or_iff_right (hstores _)]
  readers wave := by simp only [h.readers, loadedBy_cons hne, or_iff_right (hloads _)]

theorem sync : Cell.Records waveOf fill (.sync :: history) a { byte := cell.byte } where
  byte := h.byte
  writer w := by simp [not_storedBy_sync]
  readers wave := by simp [Cell.mem_readers, not_loadedBy_sync]

theorem noteReader {lane addr len size : Nat} (hin : addr ≤ a ∧ a < addr + len) (hwave : waveOf lane < SharedMemory.maxReaders) :
    (cell.noteReader (waveOf lane)).Records waveOf fill (.load lane addr len size :: history) a where
  byte := h.byte
  writer w := by
    rw [Cell.noteReader, h.writer, storedBy_cons (by simp), or_iff_right (by simp [StoresAt])]
  readers wave := by
    have hne : MemoryCall.load lane addr len size ≠ .sync := by simp
    have hloads (lane' : Nat) : (MemoryCall.load lane addr len size).LoadsAt lane' a ↔ lane' = lane :=
      ⟨fun hl => hl.1.symm, fun hl => ⟨hl.symm, hin⟩⟩
    simp only [Cell.mem_noteReader hwave, h.readers, loadedBy_cons hne, hloads]
    constructor
    · rintro (rfl | ⟨lane', hl, rfl⟩)
      · exact ⟨lane, .inl rfl, rfl⟩
      · exact ⟨lane', .inr hl, rfl⟩
    · rintro ⟨lane', rfl | hl, rfl⟩
      · exact .inl rfl
      · exact .inr ⟨lane', hl, rfl⟩

/-- A store of the byte. No other lane has stored it, so that one writer is enough to remember. -/
theorem stored {lane addr len size : Nat} {value : UInt64}
    (hin : addr ≤ a ∧ a < addr + len) (hok : cell.Writable ⟨waveOf lane, lane⟩) :
    (cell.stored ⟨waveOf lane, lane⟩ (Bits.byte value (a - addr))).Records waveOf fill
      (.store lane addr len value size :: history) a where
  byte := (if_pos hin).symm
  writer w := by
    have hstores : (MemoryCall.store lane addr len value size).StoresAt w.lane a ↔ w.lane = lane :=
      ⟨fun hl => hl.1.symm, fun hl => ⟨hl.symm, hin⟩⟩
    rw [storedBy_cons (by simp), hstores]
    obtain ⟨hothers, -⟩ := h.writable_iff.mp hok
    constructor
    · intro hw
      obtain rfl : (⟨waveOf lane, lane⟩ : Writer) = w := Option.some.inj hw
      exact ⟨rfl, .inl rfl⟩
    · rintro ⟨hwave, hlane⟩
      have hlane : w.lane = lane := hlane.elim id fun hs => hothers _ hs
      have hw : w = ⟨waveOf lane, lane⟩ := by rw [← hlane, ← hwave]
      rw [hw]
      rfl
  readers wave := by
    have hne : MemoryCall.store lane addr len value size ≠ .sync := by simp
    rw [show (cell.stored _ _).readers = cell.readers from rfl, h.readers]
    simp only [loadedBy_cons hne, LoadsAt, false_or]

end Cell.Records

/-- The tags of an entry that are of the present epoch say who has touched the byte since the last barrier: the
lane that has stored it and the waves that have loaded it. The other tags are of earlier epochs. -/
structure Entry.Tags (waveOf : Nat → Nat) (history : List MemoryCall) (a epoch : Nat) (entry : Entry) : Prop where
  within : entry.Within epoch
  written : ∀ w, entry.writeEpoch = epoch ∧ entry.writer = w ↔ w.wave = waveOf w.lane ∧ StoredBy history w.lane a
  read : ∀ wave, entry.readEpoch = epoch ∧ entry.readers.toNat.testBit wave ↔
    ∃ lane, LoadedBy history lane a ∧ waveOf lane = wave

namespace SharedMemory

/-- The memory after a sequence of calls that all succeeded, starting with no reserved bytes. -/
inductive After (waveOf : Nat → Nat) (fill : UInt8) : List MemoryCall → SharedMemory → Prop
  | new : After waveOf fill [] { fill }
  | reserve {history m} (size : Nat) : After waveOf fill history m →
      After waveOf fill (.reserve size :: history) (m.reserve size)
  | load {history m m' lane addr len size value} : After waveOf fill history m →
      len ≤ 8 → addr + len < 2 ^ 64 →
      SharedMemory.load (waveOf lane) lane addr len size m = .done value m' →
      After waveOf fill (.load lane addr len size :: history) m'
  | store {history m m' lane addr len value size} : After waveOf fill history m →
      len ≤ 8 → addr + len < 2 ^ 64 →
      SharedMemory.store (waveOf lane) lane addr len value size m = .done () m' →
      After waveOf fill (.store lane addr len value size :: history) m'
  | sync {history m} : After waveOf fill history m → After waveOf fill (.sync :: history) m.sync

/-- The memory agrees with its history. -/
structure Records (waveOf : Nat → Nat) (fill : UInt8) (history : List MemoryCall)
    (m : SharedMemory) : Prop where
  fresh : m.fill = fill
  size : m.cells.size = reserved history
  epoch : m.epoch = history.count .sync + 1
  cell : ∀ a, (m.cellAt a).Records waveOf fill history a

variable {m m' : SharedMemory}

namespace Records

theorem new (waveOf : Nat → Nat) (fill : UInt8) : Records waveOf fill [] { fill } := by
  refine ⟨rfl, rfl, rfl, fun a => ⟨rfl, fun w => ?_, fun wave => ?_⟩⟩
  · simp [cellAt, Entry.cell, StoredBy, sinceSync]
  · simp [cellAt, Entry.cell, Cell.mem_readers, LoadedBy, sinceSync]

variable (h : m.Records waveOf fill history)
include h

theorem loaded {lane addr len size : Nat} (hm : m.Passes (.load (waveOf lane)) addr (addr + len) m') :
    m'.Records waveOf fill (.load lane addr len size :: history) := by
  refine ⟨hm.fill.trans h.fresh, hm.size.trans h.size, hm.epoch.trans (by simp [h.epoch]), fun a => ?_⟩
  rw [hm.cell]
  split
  · rename_i hin
    exact (h.cell a).noteReader hin (hm.able (by omega))
  · rename_i hout
    exact (h.cell a).pass (by simp) (by simp [StoresAt]) (fun _ hl => hout hl.2) rfl

theorem stored {lane addr len size : Nat} {value : UInt64}
    (hm : m.Passes (.store ⟨waveOf lane, lane⟩ addr value) addr (addr + len) m') :
    m'.Records waveOf fill (.store lane addr len value size :: history) := by
  refine ⟨hm.fill.trans h.fresh, hm.size.trans h.size, hm.epoch.trans (by simp [h.epoch]), fun a => ?_⟩
  rw [hm.cell]
  split
  · rename_i hin
    exact (h.cell a).stored hin (Cell.writeError?_eq_none.mp (hm.permitted a hin.1 hin.2))
  · rename_i hout
    exact (h.cell a).pass (by simp) (fun _ hs => hout hs.2) (by simp [LoadsAt]) (if_neg hout)

theorem done (call : MemoryCall)
    (hcall : call.perform waveOf m = .done () m') : m'.Records waveOf fill (call :: history) := by
  cases call with
  | reserve size =>
    cases hcall
    refine ⟨h.fresh, ?_, by simp [reserve, h.epoch], fun a => ?_⟩
    · rw [size_reserve, h.size, reserved]
    · rw [cellAt_reserve]
      exact (h.cell a).pass (by simp) (by simp [StoresAt]) (by simp [LoadsAt]) rfl
  | load lane addr len size =>
    obtain ⟨value, m₁, hload, hpure⟩ := Exec.bind_eq_done_iff.mp hcall
    cases hpure
    rcases load_accesses (F := True) lane size (.inl trivial) with ⟨-, he⟩ | ⟨-, haccess⟩
    · cases hload.symm.trans he
    · rw [hload] at haccess
      exact h.loaded haccess.1
  | store lane addr len value size =>
    have hstore : store (waveOf lane) lane addr len value size m = .done () m' := hcall
    rcases store_accesses (F := True) lane size value (.inl trivial) with ⟨-, he⟩ | ⟨-, haccess⟩
    · cases hstore.symm.trans he
    · rw [hstore] at haccess
      exact h.stored haccess.1
  | sync =>
    cases hcall
    refine ⟨h.fresh, h.size, by simp [SharedMemory.sync, h.epoch], fun a => ?_⟩
    rw [cellAt_sync]
    exact (h.cell a).sync

end Records

theorem After.records (h : After waveOf fill history m) : m.Records waveOf fill history := by
  induction h with
  | new => exact .new waveOf fill
  | reserve size _ ih => exact ih.done (.reserve size) rfl
  | @load _ _ _ lane addr len size _ _ _ _ hload ih =>
    exact ih.done (.load lane addr len size) (Exec.bind_eq_done_iff.mpr ⟨_, _, hload, rfl⟩)
  | @store _ _ _ lane addr len value size _ _ _ hstore ih =>
    exact ih.done (.store lane addr len value size) hstore
  | sync _ ih => exact ih.done .sync rfl

/-! ## Reading accesses off the history -/

namespace Records

variable {lane addr len : Nat} (size : Nat) (value : UInt64)

variable (h : m.Records waveOf fill history)
include h

theorem exceeds_iff : m.Exceeds addr len size ↔ size < addr + len ∨ reserved history < addr + len := by
  rw [Exceeds, h.size]

/-- A load within bounds meets a byte that it may not read exactly when another wave has stored it. -/
theorem exists_not_readable_iff : (∃ a, addr ≤ a ∧ a < addr + len ∧ ¬ (m.cellAt a).Readable (waveOf lane)) ↔
      ∃ a other, addr ≤ a ∧ a < addr + len ∧ StoredBy history other a ∧ waveOf other ≠ waveOf lane := by
  simp only [(h.cell _).readable_iff, not_forall]
  grind

/-- A store within bounds meets a byte that it may not write exactly when another lane has stored it
or another wave has loaded it. -/
theorem exists_not_writable_iff : (∃ a, addr ≤ a ∧ a < addr + len ∧ ¬ (m.cellAt a).Writable ⟨waveOf lane, lane⟩) ↔
      ∃ a other, addr ≤ a ∧ a < addr + len ∧ (StoredBy history other a ∧ other ≠ lane ∨
        LoadedBy history other a ∧ waveOf other ≠ waveOf lane) := by
  simp only [(h.cell _).writable_iff, not_and_or, not_forall]
  grind

/-- The value of the bytes that were stored last. -/
theorem toNat_littleEndian (hlen : len ≤ 8) : (littleEndian (fun a => (m.cellAt a).byte) addr len 0).toNat =
      Nat.ofDigits 256 ((List.range len).map fun j => (latest fill history (addr + j)).toNat) := by
  have hbytes : (fun a => (m.cellAt a).byte) = latest fill history :=
    funext fun a => (h.cell a).byte
  rw [hbytes, PrimitiveShader.toNat_littleEndian _ _ (by omega)]
  simp

/-- The tags of every entry agree with the history. -/
theorem tags {a : Nat} (ha : a < m.cells.size) : m.cells[a].Tags waveOf history a m.epoch := by
  have hcell := h.cell a
  rw [cellAt_eq ha] at hcell
  refine ⟨m.recorded.2 _ (Array.getElem_mem ha), fun w => ?_, fun wave => ?_⟩
  · rw [← hcell.writer]
    simp [Entry.cell]
  · rw [← hcell.readers, Cell.mem_readers, Entry.cell]
    by_cases he : m.cells[a].readEpoch = m.epoch <;> simp [he]

/-- How an access ends, in terms of the history. -/
theorem access_spec {α : Type} {rule : ByteRule} {Q : α → Prop}
    {o : Outcome SharedMemory α} (ho : m.Exceeds addr len size ∧ o = .failed (.outOfBounds lane addr len size) m ∨
      (False ∨ ¬ m.Exceeds addr len size) ∧ m.Accesses rule False Q addr (addr + len) o)
    (hrule : ∀ a cell l b n s, rule.error? a cell ≠ some (.outOfBounds l b n s)) :
    let exceeds := size < addr + len ∨ reserved history < addr + len
    ((∃ l a n s m', o = .failed (.outOfBounds l a n s) m') ↔ exceeds) ∧
    (¬ exceeds → ((∃ error m', o = .failed error m') ↔
      ∃ a, addr ≤ a ∧ a < addr + len ∧ rule.error? a (m.cellAt a) ≠ none)) ∧ ∀ fault, o ≠ .faulted fault := by
  intro exceeds
  rcases ho with ⟨hex, rfl⟩ | ⟨hex, haccess⟩ <;> rw [h.exceeds_iff] at hex
  · simp [exceeds, hex]
  · have hwithin : ¬ exceeds := hex.resolve_left id
    refine ⟨⟨?_, fun hex => absurd hex hwithin⟩, fun _ => haccess.failed_iff, ?_⟩
    · rintro ⟨l, a, n, s, m', rfl⟩
      obtain ⟨stop, -, -, herror, -⟩ := haccess
      exact absurd herror (hrule stop _ l a n s)
    · rintro fault rfl
      exact haccess

end Records

/-- Whether an access fails can be read off the calls before it. Each barrier has begun an epoch, and the tags
of the present one are exact. An access is out of bounds when it ends beyond its share or beyond what has been
reserved. Within bounds a load fails when another wave has stored one of its bytes since the last barrier, a
store when another lane has stored or another wave has loaded one. A load that succeeds returns the bytes that
were stored last. -/
theorem After.access_exact (hwave : ∀ lane, waveOf lane < maxReaders)
    (h : After waveOf fill history m) (lane addr len size : Nat) (value : UInt64) (hlen : len ≤ 8)
    (hfit : addr + len < 2 ^ 64) :
    let load := SharedMemory.load (waveOf lane) lane addr len size m
    let store := SharedMemory.store (waveOf lane) lane addr len value size m
    let exceeds := size < addr + len ∨ reserved history < addr + len
    m.epoch = history.count .sync + 1 ∧
    (∀ (a : Nat) (ha : a < m.cells.size), m.cells[a].Tags waveOf history a m.epoch) ∧
    ((∃ l a n s m', load = .failed (.outOfBounds l a n s) m') ↔ exceeds) ∧
    ((∃ l a n s m', store = .failed (.outOfBounds l a n s) m') ↔ exceeds) ∧
    (¬ exceeds → ((∃ error m', load = .failed error m') ↔ ∃ a other, addr ≤ a ∧ a < addr + len ∧
      StoredBy history other a ∧ waveOf other ≠ waveOf lane)) ∧
    (¬ exceeds → ((∃ error m', store = .failed error m') ↔ ∃ a other, addr ≤ a ∧ a < addr + len ∧
      (StoredBy history other a ∧ other ≠ lane ∨ LoadedBy history other a ∧ waveOf other ≠ waveOf lane))) ∧
    (∀ v m', load = .done v m' → v.toNat =
      Nat.ofDigits 256 ((List.range len).map fun j => (latest fill history (addr + j)).toNat)) ∧
    ∀ fault, load ≠ .faulted fault ∧ store ≠ .faulted fault := by
  intro load store exceeds
  have hrec := h.records
  have haccess := load_accesses (m := m) (F := False) lane size (.inr ⟨hwave lane, hlen, hfit⟩)
  obtain ⟨hload, hloadFails, hloadFault⟩ := hrec.access_spec size haccess fun _ _ _ _ _ _ he => by
    obtain ⟨w, -, -, hrace⟩ := Cell.readError?_eq_some he
    cases hrace
  obtain ⟨hstore, hstoreFails, hstoreFault⟩ := hrec.access_spec size
    (store_accesses lane size value (.inr ⟨hwave lane, hlen, hfit⟩)) fun _ _ _ _ _ _ he => by
      rcases Cell.clash_of_writeError? he with ⟨_, hclash⟩ | ⟨_, hclash⟩ <;> cases hclash
  refine ⟨hrec.epoch, fun a ha => hrec.tags ha, hload, hstore, fun hex => (hloadFails hex).trans ?_, fun hex => (hstoreFails hex).trans ?_,
    fun v m' hv => ?_, fun fault => ⟨hloadFault fault, hstoreFault fault⟩⟩
  · rw [← hrec.exists_not_readable_iff]
    simp only [ByteRule.load, ne_eq, Cell.readError?_eq_none, Cell.Readable]
  · rw [← hrec.exists_not_writable_iff]
    simp only [ByteRule.store, ne_eq, Cell.writeError?_eq_none, Cell.Writable]
  · rcases haccess with ⟨-, he⟩ | ⟨-, haccess⟩
    · cases hv.symm.trans he
    · rw [show SharedMemory.load (waveOf lane) lane addr len size m = .done v m' from hv] at haccess
      rw [haccess.2, hrec.toNat_littleEndian hlen]

/-- Waves of four lanes. Before the barrier the second wave stores byte 2 of eight and loads it; behind it lane 1
stores the bytes 2 and 3 all the same. Another lane of its wave loads them with the bytes around them, a lane of the
second wave may not. -/
theorem After.access_exact_two_waves :
    let waveOf : Nat → Nat := fun lane => lane / 4 % 8
    let history : List MemoryCall :=
      [.store 1 2 2 0x1234 8, .sync, .load 4 2 1 8, .store 5 2 1 0x99 8, .reserve 8]
    ∃ m, After waveOf 0xaa history m ∧ (∃ v m', SharedMemory.load 0 3 1 4 8 m = .done v m' ∧ v.toNat = 0xaa1234aa) ∧
      ∃ error m', SharedMemory.load 1 4 1 4 8 m = .failed error m' := by
  intro waveOf history
  have hwave (lane : Nat) : waveOf lane < maxReaders := Nat.mod_lt _ (by decide)
  obtain ⟨m₀, hbarrier⟩ : ∃ m, After waveOf 0xaa history.tail m :=
    ⟨_, .sync (.load (.store (.reserve 8 .new) (by decide) (by decide) rfl) (by decide) (by decide) rfl)⟩
  obtain ⟨m, hafter⟩ : ∃ m, After waveOf 0xaa history m := by
    obtain ⟨-, -, -, -, -, hfails, -, hfault⟩ :=
      After.access_exact hwave hbarrier 1 2 2 8 0x1234 (by decide) (by decide)
    rcases hs : SharedMemory.store 0 1 2 2 0x1234 8 m₀ with ⟨⟨⟩, m⟩ | ⟨error, m⟩ | fault
    · exact ⟨m, .store hbarrier (by decide) (by decide) hs⟩
    · obtain ⟨a, other, -, -, ⟨h, -⟩ | ⟨h, -⟩⟩ := (hfails (by decide)).mp ⟨error, m, hs⟩
      · exact absurd h not_storedBy_sync
      · exact absurd h not_loadedBy_sync
    · exact absurd hs (hfault fault).2
  have hstored (lane a : Nat) : StoredBy history lane a ↔ lane = 1 ∧ 2 ≤ a ∧ a < 4 := by
    simp [StoredBy, sinceSync, history, StoresAt, eq_comm]
  refine ⟨m, hafter, ?_, ?_⟩
  · obtain ⟨-, -, -, -, hfails, -, hvalue, hfault⟩ :=
      After.access_exact hwave hafter 3 1 4 8 0 (by decide) (by decide)
    -- only the wave itself has stored any of the bytes since the barrier
    rcases hload : SharedMemory.load 0 3 1 4 8 m with ⟨v, m'⟩ | ⟨error, m'⟩ | fault
    · exact ⟨v, m', rfl, (hvalue v m' hload).trans (by decide)⟩
    · obtain ⟨a, other, -, -, hother, hne⟩ := (hfails (by decide)).mp ⟨error, m', hload⟩
      obtain ⟨rfl, -⟩ := (hstored other a).mp hother
      exact absurd rfl hne
    · exact absurd hload (hfault fault).1
  · obtain ⟨-, -, -, -, hfails, -⟩ := After.access_exact hwave hafter 4 1 4 8 0 (by decide) (by decide)
    exact (hfails (by decide)).mpr ⟨2, 1, by decide, by decide, (hstored 1 2).mpr (by decide), by decide⟩

end SharedMemory

end

end PrimitiveShader
