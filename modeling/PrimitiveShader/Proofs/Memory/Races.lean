import Mathlib.Order.Bounds.Basic
import PrimitiveShader.Proofs.Memory.History

/-!
# Which waves a race names

A race names the wave that was refused and a wave that it clashes with. Here calls may have failed
before: a call that is refused at some byte has made its accesses up to that byte, so in the history it
stands as a shorter call (`MemoryCall.cut`), and the bytes still know what has been done to them
(`SharedMemory.Tried.records`).

A load that is refused clashes with the wave that has stored the byte, which is another wave. A store
that is refused names the lowest of the waves that have loaded the byte. Some other wave is among
them, but the lowest may be the storing wave itself (`SharedMemory.race_names_caller`): only when that
wave has not loaded the byte is it another one (`SharedMemory.Tried.race_report`).
-/

namespace PrimitiveShader

open MemoryCall

/-- The length of an access at `addr` up to the byte at which it was refused. An access that is out of
bounds is refused as a whole. -/
def RunError.reached (addr : Nat) : RunError → Nat
  | .race stop _ _ => stop - addr
  | .writeConflict stop _ _ => stop - addr
  | _ => 0

namespace MemoryCall

/-- What a call has done that ended with an error. -/
def cut (error : RunError) : MemoryCall → MemoryCall
  | .load lane addr _ size => .load lane addr (error.reached addr) size
  | .store lane addr _ value size => .store lane addr (error.reached addr) value size
  | call => call

end MemoryCall

namespace Cell

/-- A race of a store names the lowest reader, and some reader is of another wave. -/
theorem of_writeError?_race {cell : Cell} {writer : Writer} {addr stop wave other : Nat}
    (h : cell.writeError? addr writer = some (.race stop wave other)) :
    stop = addr ∧ wave = writer.wave ∧ IsLeast {reader | reader ∈ cell.readers} other ∧
      ∃ reader ∈ cell.readers, reader ≠ writer.wave := by
  have hreaders (h : writeError?.readers cell addr writer = some (.race stop wave other)) :
      stop = addr ∧ wave = writer.wave ∧ IsLeast {reader | reader ∈ cell.readers} other ∧
        ∃ reader ∈ cell.readers, reader ≠ writer.wave := by
    unfold writeError?.readers at h
    split at h
    · cases h
    · rename_i hall
      obtain ⟨reader, hmem, hne⟩ : ∃ reader ∈ cell.readers, reader ≠ writer.wave := by
        simpa using hall
      obtain ⟨least, hleast⟩ : ∃ least, cell.readers.min? = some least :=
        Option.isSome_iff_exists.mp (List.isSome_min?_of_mem hmem)
      rw [hleast] at h
      cases h
      obtain ⟨hin, hle⟩ := List.min?_eq_some_iff.mp hleast
      exact ⟨rfl, rfl, ⟨hin, fun r hr => hle r hr⟩, reader, hmem, hne⟩
  unfold writeError? at h
  split at h
  · split at h
    · exact hreaders h
    · cases h
  · exact hreaders h

end Cell

namespace SharedMemory

variable {m m' : SharedMemory}

/-! ## Histories with failed calls -/

section

variable {waveOf : Nat → Nat} {fill : UInt8} {history : List MemoryCall}

/-- The memory after a sequence of calls of which some may have failed, starting with no reserved
bytes. -/
inductive Tried (waveOf : Nat → Nat) (fill : UInt8) : List MemoryCall → SharedMemory → Prop
  | new : Tried waveOf fill [] { fill }
  | done {history : List MemoryCall} {m m' : SharedMemory} {call : MemoryCall} :
      Tried waveOf fill history m → call.perform waveOf m = .done () m' →
      Tried waveOf fill (call :: history) m'
  | failed {history : List MemoryCall} {m m' : SharedMemory} {call : MemoryCall} {error : RunError} :
      Tried waveOf fill history m → call.perform waveOf m = .failed error m' →
      Tried waveOf fill (call.cut error :: history) m'

namespace Records

/-- A call that fails has done what the shorter call does. -/
theorem failed (h : m.Records waveOf fill history) {call : MemoryCall} {error : RunError}
    (hcall : call.perform waveOf m = .failed error m') : m'.Records waveOf fill (call.cut error :: history) := by
  cases call with
  | reserve size => cases hcall
  | load lane addr len size =>
    have hload := (Exec.bind_eq_failed_iff.mp hcall).resolve_right fun ⟨_, _, _, hpure⟩ => nomatch hpure
    rcases load_accesses (F := True) lane size (.inl trivial) with ⟨-, he⟩ | ⟨-, haccess⟩
    · cases hload.symm.trans he
      exact h.loaded (.nil (Nat.le_refl _))
    · rw [hload] at haccess
      obtain ⟨stop, hle, -, herror, hpass⟩ := haccess
      obtain ⟨w, -, -, rfl⟩ := Cell.readError?_eq_some herror
      rw [← Nat.add_sub_cancel' hle] at hpass
      exact h.loaded hpass
  | store lane addr len value size =>
    have hstore : store (waveOf lane) lane addr len value size m = .failed error m' := hcall
    rcases store_accesses (F := True) lane size value (.inl trivial) with ⟨-, he⟩ | ⟨-, haccess⟩
    · cases hstore.symm.trans he
      exact h.stored (.nil (Nat.le_refl _))
    · rw [hstore] at haccess
      obtain ⟨stop, hle, -, herror, hpass⟩ := haccess
      have hreached : error.reached addr = stop - addr := by
        obtain ⟨other, rfl⟩ | ⟨other, rfl⟩ := Cell.clash_of_writeError? herror <;> rfl
      rw [← Nat.add_sub_cancel' hle, ← hreached] at hpass
      exact h.stored hpass
  | sync => cases hcall

end Records

theorem Tried.records (h : Tried waveOf fill history m) : m.Records waveOf fill history := by
  induction h with
  | new => exact .new waveOf fill
  | done _ hcall ih => exact ih.done _ hcall
  | failed _ hcall ih => exact ih.failed hcall

/-- A race is reported by the wave that makes the access, at a byte of the access. If it is a load, the
other wave is another one and has stored the byte since the last barrier. If it is a store, the wave
that is named is the lowest of those that have loaded the byte since, of which some are other waves;
so it is another wave unless the storing wave has loaded the byte itself. -/
theorem Tried.race_report (h : Tried waveOf fill history m) (lane addr len size : Nat) (value : UInt64)
    (a wave other : Nat) (m' : SharedMemory) :
    (load (waveOf lane) lane addr len size m = .failed (.race a wave other) m' →
      wave = waveOf lane ∧ (addr ≤ a ∧ a < addr + len) ∧ other ≠ wave ∧
      ∃ lane', StoredBy history lane' a ∧ waveOf lane' = other) ∧
    (store (waveOf lane) lane addr len value size m = .failed (.race a wave other) m' →
      wave = waveOf lane ∧ (addr ≤ a ∧ a < addr + len) ∧
      IsLeast {reader | ∃ lane', LoadedBy history lane' a ∧ waveOf lane' = reader} other ∧
      (∃ lane', LoadedBy history lane' a ∧ waveOf lane' ≠ wave) ∧
      ((∀ lane', LoadedBy history lane' a → waveOf lane' ≠ wave) → other ≠ wave)) := by
  have hrec := h.records
  constructor
  · intro hload
    rcases load_accesses (F := True) lane size (.inl trivial) with ⟨-, he⟩ | ⟨-, haccess⟩
    · cases hload.symm.trans he
    · rw [hload] at haccess
      obtain ⟨stop, hle, hlt, herror, -⟩ := haccess
      obtain ⟨w, hw, hne, hrace⟩ := Cell.readError?_eq_some herror
      cases hrace
      obtain ⟨hwave, hstored⟩ := ((hrec.cell a).writer w).mp hw
      exact ⟨rfl, ⟨hle, hlt⟩, hne, w.lane, hstored, hwave.symm⟩
  · intro hstore
    rcases store_accesses (F := True) lane size value (.inl trivial) with ⟨-, he⟩ | ⟨-, haccess⟩
    · cases hstore.symm.trans he
    · rw [hstore] at haccess
      obtain ⟨stop, hle, hlt, herror, -⟩ := haccess
      obtain ⟨rfl, rfl, hleast, reader, hreader, hne⟩ := Cell.of_writeError?_race herror
      simp only [(hrec.cell a).readers] at hleast hreader
      obtain ⟨lane', hloaded, rfl⟩ := hreader
      refine ⟨rfl, ⟨hle, hlt⟩, hleast, ⟨lane', hloaded, hne⟩, fun hall => ?_⟩
      obtain ⟨⟨least, hleast, rfl⟩, -⟩ := hleast
      exact hall least hleast

/-- Waves of four lanes. Wave 1 loads byte 1, and a store of wave 0 that begins at byte 0 is refused
there. It has stored byte 0, where it refuses the load of wave 1 that follows. -/
theorem Tried.race_report_two_waves :
    let waveOf : Nat → Nat := fun lane => lane / 4
    let calls : List MemoryCall := [.load 5 1 1 4, .reserve 4]
    ∃ m m₁, Tried waveOf 0 calls m ∧ Tried waveOf 0 (.store 2 0 1 0x0102 4 :: calls) m₁ ∧
      (∀ a wave other m', store 0 2 0 2 0x0102 4 m = .failed (.race a wave other) m' → wave = 0 ∧ other ≠ 0) ∧
      (∀ a wave other m', load 1 6 0 4 4 m₁ = .failed (.race a wave other) m' → wave = 1 ∧ other ≠ 1) ∧
      (∃ m', store 0 2 0 2 0x0102 4 m = .failed (.race 1 0 1) m') ∧
      ∃ m', load 1 6 0 4 4 m₁ = .failed (.race 0 1 0) m' := by
  intro waveOf calls
  obtain ⟨m, m₁, hfirst, hstore, hload⟩ : ∃ m m₁, load 1 5 1 1 4 (reserve { fill := 0 } 4) = .done 0 m ∧
      store 0 2 0 2 0x0102 4 m = .failed (.race 1 0 1) m₁ ∧ load 1 6 0 4 4 m₁ = .failed (.race 0 1 0) m₁ := by
    refine ⟨_, _, rfl, rfl, ?_⟩
    rfl
  have hcalls : Tried waveOf 0 calls m := .done (.done .new rfl) (Exec.bind_eq_done_iff.mpr ⟨_, _, hfirst, rfl⟩)
  have hrefused : Tried waveOf 0 (.store 2 0 1 0x0102 4 :: calls) m₁ :=
    .failed hcalls (show (MemoryCall.store 2 0 2 0x0102 4).perform waveOf m = _ from hstore)
  refine ⟨m, m₁, hcalls, hrefused, fun a wave other m' h => ?_, fun a wave other m' h => ?_, ⟨m₁, hstore⟩, m₁, hload⟩
  · obtain ⟨rfl, -, -, -, hother⟩ := (hcalls.race_report 2 0 2 4 0x0102 a wave other m').2 h
    refine ⟨rfl, hother ?_⟩
    rintro lane ⟨call, hmem, hloads⟩
    obtain rfl | rfl : call = .load 5 1 1 4 ∨ call = .reserve 4 := by
      simpa [sinceSync, calls] using hmem
    · obtain ⟨rfl, -⟩ := hloads
      decide
    · cases hloads
  · obtain ⟨rfl, -, hother, -⟩ := (hrefused.race_report 6 0 4 4 0 a wave other m').1 h
    exact ⟨rfl, hother⟩

end

/-- Wave 0 and wave 1 have loaded a byte, and wave 0 stores it: the race that is reported names wave 0
twice. -/
theorem race_names_caller : ∃ m m', Tried (fun lane => lane / 64) 0 [.load 64 0 1 4, .load 0 0 1 4, .reserve 4] m ∧
      store 0 0 0 1 7 4 m = .failed (.race 0 0 0) m' :=
  ⟨_, _, .done (.done (.done .new rfl) rfl) rfl, rfl⟩

end SharedMemory

end PrimitiveShader
