import PrimitiveShader.Proofs.Schedule.Commutation
import PrimitiveShader.Proofs.Wave.Ensures

/-!
# Accesses byte by byte

A load and a store go through their bytes in the same way: a byte is refused with an error, or it is changed
and the next one follows. A `ByteRule` says which bytes are refused and what becomes of the others, and
`SharedMemory.Accesses` says how an access ends that keeps to the rule. What a load or a store does to memory,
when it fails and what it has done by then is read off `SharedMemory.load_accesses` and
`SharedMemory.store_accesses`.
-/

namespace PrimitiveShader

/-- The value of `n` bytes at `addr`, from byte `i` on, lowest byte first. -/
def littleEndian (view : Nat → UInt8) (addr : Nat) : (n i : Nat) → UInt64
  | 0, _ => 0
  | n + 1, i =>
    ((view (addr + i)).toUInt64 <<< UInt64.ofNat (8 * i)) ||| littleEndian view addr n (i + 1)

/-- The bytes after `len` bytes of a value have been written to `addr`. -/
def overwrite (view : Nat → UInt8) (addr len : Nat) (value : UInt64) (a : Nat) : UInt8 :=
  if addr ≤ a ∧ a < addr + len then Bits.byte value (a - addr) else view a

theorem littleEndian_congr {view view' : Nat → UInt8} {addr n i : Nat}
    (h : ∀ j, i ≤ j → j < i + n → view (addr + j) = view' (addr + j)) :
    littleEndian view addr n i = littleEndian view' addr n i := by
  induction n generalizing i with
  | zero => rfl
  | succ n ih =>
    rw [littleEndian, littleEndian, h i (Nat.le_refl _) (by omega), ih fun j hj hj' => h j (by omega) (by omega)]

/-- An error other than the step limit. -/
def RunError.OfStep (error : RunError) : Prop := ∀ id, error ≠ .stepLimit id

namespace Cell

/-- The wave may load the byte now. -/
def Readable (cell : Cell) (wave : Nat) : Prop := ∀ w, cell.writer = some w → w.wave = wave

/-- The lane may store the byte now. -/
def Writable (cell : Cell) (writer : Writer) : Prop :=
  (∀ w, cell.writer = some w → w.lane = writer.lane) ∧ ∀ reader ∈ cell.readers, reader = writer.wave

/-- A byte that may not be loaded has been stored by another wave. -/
theorem readError?_eq_some {cell : Cell} {addr wave : Nat} {error : RunError}
    (h : cell.readError? addr wave = some error) :
    ∃ w, cell.writer = some w ∧ w.wave ≠ wave ∧ error = .race addr wave w.wave := by
  unfold readError? at h
  split at h
  · rename_i w hw
    split at h
    · cases h
    · rename_i hne
      cases h
      exact ⟨w, hw, hne, rfl⟩
  · cases h

/-- A byte that may not be stored clashes with a reader or with a writer. -/
theorem clash_of_writeError? {cell : Cell} {addr : Nat} {writer : Writer} {error : RunError}
    (h : cell.writeError? addr writer = some error) : (∃ other, error = .race addr writer.wave other) ∨
      ∃ other, error = .writeConflict addr writer.lane other := by
  have hreaders (h : writeError?.readers cell addr writer = some error) :
      ∃ other, error = .race addr writer.wave other := by
    unfold writeError?.readers at h
    split at h
    · cases h
    · cases h
      exact ⟨_, rfl⟩
  unfold writeError? at h
  split at h
  · split at h
    · exact .inl (hreaders h)
    · cases h
      exact .inr ⟨_, rfl⟩
  · exact .inl (hreaders h)

end Cell

/-- How an access deals with the byte at an address: the error if it is refused, and what becomes of it if it is
not. An access that is not `able` gets past no byte. -/
structure ByteRule where
  able : Prop
  error? : Nat → Cell → Option RunError
  next : Nat → Cell → Cell

namespace ByteRule

/-- Loading bytes in the name of a wave. -/
def load (wave : Nat) : ByteRule where
  able := wave < SharedMemory.maxReaders
  error? a cell := cell.readError? a wave
  next _ cell := cell.noteReader wave

/-- Storing the bytes of a value at `addr` in the name of a lane. -/
def store (writer : Writer) (addr : Nat) (value : UInt64) : ByteRule where
  able := True
  error? a cell := cell.writeError? a writer
  next a cell := cell.stored writer (Bits.byte value (a - addr))

end ByteRule

namespace SharedMemory

variable {m m₁ m' : SharedMemory}

/-- The byte at an address with its accesses; beyond the end, the byte that would be reserved. -/
def cellAt (m : SharedMemory) (a : Nat) : Cell := (m.cells[a]?.getD { byte := m.fill }).cell m.epoch

theorem cellAt_eq {a : Nat} (h : a < m.cells.size) : m.cellAt a = m.cells[a].cell m.epoch := by
  simp [cellAt, h]

/-- The accesses have got through the bytes from `lo` up to `hi`. -/
structure Passes (rule : ByteRule) (lo hi : Nat) (m m' : SharedMemory) : Prop where
  fill : m'.fill = m.fill
  size : m'.cells.size = m.cells.size
  epoch : m'.epoch = m.epoch
  able : lo < hi → rule.able
  permitted : ∀ a, lo ≤ a → a < hi → rule.error? a (m.cellAt a) = none
  cell : ∀ a, m'.cellAt a = if lo ≤ a ∧ a < hi then rule.next a (m.cellAt a) else m.cellAt a

/-- How an access to the bytes from `lo` up to `hi` ends: with a value after the last byte, with the error of
a byte that is refused after those before it, or with a fault that is admitted. -/
def Accesses {α : Type} (rule : ByteRule) (F : Prop) (Q : α → Prop) (lo hi : Nat) (m : SharedMemory) :
    Outcome SharedMemory α → Prop
  | .done v m' => m.Passes rule lo hi m' ∧ Q v
  | .failed error m' => ∃ stop, lo ≤ stop ∧ stop < hi ∧ rule.error? stop (m.cellAt stop) = some error ∧
      m.Passes rule lo stop m'
  | .faulted _ => F

section

variable {rule : ByteRule} {F : Prop} {lo hi : Nat}

theorem Passes.nil (h : hi ≤ lo) : m.Passes rule lo hi m :=
  ⟨rfl, rfl, rfl, fun hlt => absurd hlt (by omega), fun a hlo hhi => absurd hhi (by omega),
    fun a => (if_neg (by omega)).symm⟩

theorem passes_modify {addr : Nat} (h : addr < m.cells.size) (hable : rule.able)
    (he : rule.error? addr (m.cellAt addr) = none) {f : Entry → Entry} {hf}
    (hnext : ∀ entry, (f entry).cell m.epoch = rule.next addr (entry.cell m.epoch)) :
    m.Passes rule addr (addr + 1) (m.modify addr f hf) := by
  refine ⟨rfl, Array.size_modify, rfl, fun _ => hable, fun a hlo hhi => ?_, fun a => ?_⟩
  · obtain rfl : a = addr := by omega
    exact he
  · unfold cellAt modify
    rw [Array.getElem?_modify]
    by_cases ha : addr = a
    · subst ha
      simp [h, hnext]
    · rw [if_neg ha, if_neg (by omega)]

theorem passes_load {wave addr : Nat} (h : addr < m.cells.size) (hwave : wave < maxReaders)
    (he : (m.cellAt addr).readError? addr wave = none) : m.Passes (.load wave) addr (addr + 1)
      (m.modify addr (Entry.noteReader m.epoch wave) fun _ => .noteReader wave) :=
  passes_modify h hwave he fun _ => Entry.cell_noteReader wave

theorem Passes.cons (hlt : lo < hi) (h : m.Passes rule lo (lo + 1) m₁) (h' : m₁.Passes rule (lo + 1) hi m') :
    m.Passes rule lo hi m' := by
  refine ⟨h'.fill.trans h.fill, h'.size.trans h.size, h'.epoch.trans h.epoch,
    fun _ => h.able (Nat.lt_succ_self _), fun a hlo hhi => ?_, fun a => ?_⟩
  · rcases Nat.eq_or_lt_of_le hlo with rfl | hlo
    · exact h.permitted lo (Nat.le_refl _) (by omega)
    · have hrest := h'.permitted a hlo hhi
      rwa [h.cell, if_neg (by omega)] at hrest
  · rw [h'.cell, h.cell]
    by_cases ha : a = lo
    · rw [if_neg (by omega), if_pos (by omega), if_pos (by omega)]
    · simp only [show ¬ (lo ≤ a ∧ a < lo + 1) by omega, show lo + 1 ≤ a ↔ lo ≤ a by omega, ↓reduceIte]

variable {α β : Type} {P : α → Prop} {Q : β → Prop}

/-- An access to the first byte, and then to those behind it. -/
theorem Accesses.cons {x : Exec SharedMemory α} {k : α → Exec SharedMemory β} (hlt : lo < hi)
    (hx : m.Accesses rule F P lo (lo + 1) (x m))
    (hk : ∀ v m₁, P v → m.Passes rule lo (lo + 1) m₁ → m₁.Accesses rule F Q (lo + 1) hi (k v m₁)) :
    m.Accesses rule F Q lo hi ((x >>= k) m) := by
  rw [Exec.bind_apply]
  cases ho : x m with
  | done v m₁ =>
    rw [ho] at hx
    obtain ⟨hfirst, hP⟩ := hx
    have hrest := hk v m₁ hP hfirst
    dsimp only
    cases ho' : k v m₁ with
    | done w m' =>
      rw [ho'] at hrest
      exact ⟨hfirst.cons hlt hrest.1, hrest.2⟩
    | failed error m' =>
      rw [ho'] at hrest
      obtain ⟨stop, hle, hstop, herror, hpass⟩ := hrest
      rw [hfirst.cell, if_neg (by omega)] at herror
      exact ⟨stop, by omega, hstop, herror, hfirst.cons (by omega) hpass⟩
    | faulted fault =>
      rw [ho'] at hrest
      exact hrest
  | failed error m₁ =>
    rw [ho] at hx
    obtain ⟨stop, hle, hstop, herror, hpass⟩ := hx
    exact ⟨stop, hle, by omega, herror, hpass⟩
  | faulted fault =>
    rw [ho] at hx
    exact hx

variable {o : Outcome SharedMemory α}

/-- An access fails exactly when one of its bytes is refused. -/
theorem Accesses.failed_iff (h : m.Accesses rule False P lo hi o) :
    (∃ error m', o = .failed error m') ↔ ∃ a, lo ≤ a ∧ a < hi ∧ rule.error? a (m.cellAt a) ≠ none := by
  constructor
  · rintro ⟨error, m', rfl⟩
    obtain ⟨stop, hle, hlt, herror, -⟩ := h
    exact ⟨stop, hle, hlt, by simp [herror]⟩
  · rintro ⟨a, hle, hlt, hrefused⟩
    cases o with
    | done v m' => exact absurd (h.1.permitted a hle hlt) hrefused
    | failed error m' => exact ⟨error, m', rfl⟩
    | faulted fault => exact h.elim

/-- An access to bytes that are all permitted succeeds. -/
theorem Accesses.exists_done (h : m.Accesses rule False P lo hi o)
    (hok : ∀ a, lo ≤ a → a < hi → rule.error? a (m.cellAt a) = none) :
    ∃ v m', o = .done v m' ∧ m.Passes rule lo hi m' ∧ P v := by
  cases o with
  | done v m' => exact ⟨v, m', rfl, h⟩
  | failed error m' =>
    obtain ⟨a, hle, hlt, hrefused⟩ := h.failed_iff.mp ⟨error, m', rfl⟩
    exact absurd (hok a hle hlt) hrefused
  | faulted fault => exact h.elim

theorem Accesses.ends {E : RunError → Prop} (h : m.Accesses rule F P lo hi o)
    (hE : ∀ a cell error, rule.error? a cell = some error → E error) : o.Ends E F fun v _ => P v := by
  cases o with
  | done v m' => exact h.2
  | failed error m' =>
    obtain ⟨stop, -, -, herror, -⟩ := h
    exact hE stop _ error herror
  | faulted fault => exact h

/-- What becomes of the value afterwards. -/
theorem Accesses.map {x : Exec SharedMemory α} {f : α → β} (hx : m.Accesses rule F P lo hi (x m))
    (hf : ∀ v, P v → Q (f v)) : m.Accesses rule F Q lo hi ((do return f (← x) : Exec SharedMemory β) m) := by
  rw [Exec.bind_apply]
  cases ho : x m with
  | done v m₁ =>
    rw [ho] at hx
    exact ⟨hx.1, hf v hx.2⟩
  | failed error m₁ =>
    rw [ho] at hx
    exact hx
  | faulted fault =>
    rw [ho] at hx
    exact hx

theorem Accesses.checkByte {i : Nat} (hbyte : F ∨ i < 8) {k : Exec SharedMemory β}
    (hk : m.Accesses rule F Q lo hi (k m)) :
    m.Accesses rule F Q lo hi ((do SharedMemory.checkByte i; k : Exec SharedMemory β) m) := by
  by_cases hlt : i < 8
  · have hcheck : SharedMemory.checkByte i = .ok () := if_pos hlt
    rw [hcheck]
    exact hk
  · have hcheck : SharedMemory.checkByte i = .error .shiftTooWide := if_neg hlt
    rw [hcheck]
    exact hbyte.resolve_right hlt

end

/-! ## Loads and stores -/

section

variable {F : Prop} {wave addr : Nat} {writer : Writer}

theorem loadByte_accesses (h : F ∨ wave < maxReaders ∧ addr < m.cells.size) :
    m.Accesses (.load wave) F (· = (m.cellAt addr).byte) addr (addr + 1) (loadByte wave addr m) := by
  unfold loadByte
  split
  · rename_i hlt
    rw [cellAt_eq hlt]
    dsimp only
    split
    · rename_i error he
      exact ⟨addr, Nat.le_refl _, Nat.lt_succ_self _, by rwa [cellAt_eq hlt], .nil (Nat.le_refl _)⟩
    · rename_i he
      split
      · exact ⟨passes_load hlt ‹_› ((cellAt_eq hlt).symm ▸ he), rfl⟩
      · exact h.resolve_right fun h => ‹¬ _› h.1
  · exact h.resolve_right fun h => ‹¬ _› h.2

/-- The bytes of a load are loaded one after the other. -/
theorem loadBytes_accesses {n i : Nat} (h : F ∨ wave < maxReaders ∧ i + n ≤ 8 ∧ addr + (i + n) ≤ m.cells.size) :
    m.Accesses (.load wave) F (· = littleEndian (fun a => (m.cellAt a).byte) addr n i) (addr + i)
      (addr + (i + n)) (loadBytes wave addr n i m) := by
  induction n generalizing i m with
  | zero => exact ⟨.nil (Nat.le_refl _), rfl⟩
  | succ n ih =>
    refine (loadByte_accesses (h.imp_right fun h => ⟨h.1, by omega⟩)).cons (by omega) fun byte m₁ hbyte hpass => ?_
    refine .checkByte (i := i) (h.imp_right fun h => by omega) ?_
    have hrest := ih (i := i + 1) (m := m₁) (h.imp_right fun h => ⟨h.1, by omega, by rw [hpass.size]; omega⟩)
    rw [show i + 1 + n = i + (n + 1) by omega] at hrest
    refine hrest.map fun rest hrest => ?_
    have hbytes : (fun a => (m₁.cellAt a).byte) = fun a => (m.cellAt a).byte := by
      funext a
      rw [hpass.cell]
      split <;> rfl
    rw [hrest, hbyte, hbytes, littleEndian]

theorem claimByte_cases (h : F ∨ writer.wave < maxReaders ∧ addr < m.cells.size) :
    (addr < m.cells.size ∧ (m.cellAt addr).writeError? addr writer = none ∧ claimByte writer addr m = .done () m) ∨
    (∃ error, (m.cellAt addr).writeError? addr writer = some error ∧ claimByte writer addr m = .failed error m) ∨
    F ∧ ∃ fault, claimByte writer addr m = .faulted fault := by
  unfold claimByte
  split
  · rename_i hlt
    rw [cellAt_eq hlt]
    dsimp only
    split
    · rename_i hwide
      simp only [Bool.and_eq_true, decide_eq_true_eq] at hwide
      exact .inr (.inr ⟨h.resolve_right fun h => Nat.not_lt.mpr hwide.2 h.1, _, rfl⟩)
    · cases he : (m.cells[addr].cell m.epoch).writeError? addr writer with
      | some error => exact .inr (.inl ⟨error, rfl, rfl⟩)
      | none => exact .inl ⟨hlt, rfl, rfl⟩
  · exact .inr (.inr ⟨h.resolve_right fun h => ‹¬ _› h.2, _, rfl⟩)

theorem storeByte_accesses {value : UInt64} {i : Nat}
    (h : F ∨ writer.wave < maxReaders ∧ i < 8 ∧ addr + i < m.cells.size) :
    m.Accesses (.store writer addr value) F (fun _ => True) (addr + i) (addr + i + 1) ((do
      claimByte writer (addr + i)
      checkByte i
      writeByte writer (addr + i) (Bits.byte value i) : Exec SharedMemory Unit) m) := by
  rw [Exec.bind_apply]
  obtain ⟨hlt, he, hclaim⟩ | ⟨error, he, hclaim⟩ | ⟨hF, fault, hclaim⟩ :=
    claimByte_cases (h.imp_right fun h => ⟨h.1, h.2.2⟩) <;> rw [hclaim]
  · refine .checkByte (i := i) (h.imp_right fun h => h.2.1) ?_
    refine ⟨passes_modify hlt trivial he fun entry => ?_, trivial⟩
    simp only [Entry.cell_stored, ByteRule.store, Nat.add_sub_cancel_left]
  · exact ⟨addr + i, Nat.le_refl _, Nat.lt_succ_self _, he, .nil (Nat.le_refl _)⟩
  · exact hF

/-- The bytes of a store are stored one after the other. -/
theorem storeBytes_accesses {value : UInt64} {n i : Nat}
    (h : F ∨ writer.wave < maxReaders ∧ i + n ≤ 8 ∧ addr + (i + n) ≤ m.cells.size) :
    m.Accesses (.store writer addr value) F (fun _ => True) (addr + i) (addr + (i + n))
      (storeBytes writer addr value n i m) := by
  induction n generalizing i m with
  | zero => exact ⟨.nil (Nat.le_refl _), trivial⟩
  | succ n ih =>
    have hsplit : storeBytes writer addr value (n + 1) i = (do
        claimByte writer (addr + i)
        checkByte i
        writeByte writer (addr + i) (Bits.byte value i)) >>= fun _ =>
          storeBytes writer addr value n (i + 1) := by
      simp only [storeBytes, bind_assoc]
    rw [hsplit]
    refine (storeByte_accesses (h.imp_right fun h => ⟨h.1, by omega⟩)).cons (by omega) fun _ m₁ _ hpass => ?_
    have hrest := ih (i := i + 1) (m := m₁) (h.imp_right fun h => ⟨h.1, by omega, by rw [hpass.size]; omega⟩)
    rwa [show i + 1 + n = i + (n + 1) by omega] at hrest

/-- An access that ends beyond its share or beyond the memory. -/
def Exceeds (m : SharedMemory) (addr len size : Nat) : Prop :=
  size < addr + len ∨ m.cells.size < addr + len

/-- An access is out of bounds, before it has done anything, or it gets to its bytes. -/
theorem checkRange_cases {α : Type} {lane len size : Nat} {rule : ByteRule} {Q : α → Prop}
    {k : Exec SharedMemory α} (hfit : F ∨ addr + len < 2 ^ 64)
    (hk : ¬ m.Exceeds addr len size → m.Accesses rule F Q addr (addr + len) (k m)) :
    m.Exceeds addr len size ∧ (do checkRange lane addr len size; k : Exec SharedMemory α) m =
        .failed (.outOfBounds lane addr len size) m ∨ (F ∨ ¬ m.Exceeds addr len size) ∧
        m.Accesses rule F Q addr (addr + len) ((do checkRange lane addr len size; k : Exec SharedMemory α) m) := by
  rw [Exec.bind_apply]
  by_cases hover : 2 ^ 64 ≤ addr + len
  · have hF := hfit.resolve_right (Nat.not_lt.mpr hover)
    rw [show checkRange lane addr len size m = .faulted .overflow from if_pos hover]
    exact .inr ⟨.inl hF, hF⟩
  by_cases hex : m.Exceeds addr len size
  · rw [show checkRange lane addr len size m = .failed (.outOfBounds lane addr len size) m from
      (if_neg hover).trans (if_pos hex)]
    exact .inl ⟨hex, rfl⟩
  · rw [show checkRange lane addr len size m = .done () m from (if_neg hover).trans (if_neg hex)]
    exact .inr ⟨.inr hex, hk hex⟩

variable {len : Nat} (lane size : Nat)

theorem load_accesses (h : F ∨ wave < maxReaders ∧ len ≤ 8 ∧ addr + len < 2 ^ 64) : m.Exceeds addr len size ∧
        load wave lane addr len size m = .failed (.outOfBounds lane addr len size) m ∨
      (F ∨ ¬ m.Exceeds addr len size) ∧ m.Accesses (.load wave) F
        (· = littleEndian (fun a => (m.cellAt a).byte) addr len 0) addr (addr + len)
        (load wave lane addr len size m) := by
  refine checkRange_cases (h.imp_right fun h => h.2.2) fun hex => ?_
  obtain ⟨-, hsize⟩ := not_or.mp hex
  have hbytes := @loadBytes_accesses m F wave addr len 0 (h.imp_right fun h => ⟨h.1, by omega, by omega⟩)
  rwa [Nat.zero_add] at hbytes

theorem store_accesses (value : UInt64) (h : F ∨ wave < maxReaders ∧ len ≤ 8 ∧ addr + len < 2 ^ 64) :
    m.Exceeds addr len size ∧ store wave lane addr len value size m = .failed (.outOfBounds lane addr len size) m ∨
      (F ∨ ¬ m.Exceeds addr len size) ∧ m.Accesses (.store ⟨wave, lane⟩ addr value) F (fun _ => True)
        addr (addr + len) (store wave lane addr len value size m) := by
  refine checkRange_cases (h.imp_right fun h => h.2.2) fun hex => ?_
  obtain ⟨-, hsize⟩ := not_or.mp hex
  have hbytes := @storeBytes_accesses m F addr ⟨wave, lane⟩ value len 0 (h.imp_right fun h => ⟨h.1, by omega, by omega⟩)
  rwa [Nat.zero_add] at hbytes

variable {E : RunError → Prop} {lane size}

theorem load_ends (hE : ∀ error, error.OfStep → E error) (h : F ∨ wave < maxReaders ∧ len ≤ 8 ∧ addr + len < 2 ^ 64) :
    (load wave lane addr len size m).Ends E F fun v _ =>
      v = littleEndian (fun a => (m.cellAt a).byte) addr len 0 := by
  rcases load_accesses lane size h with ⟨-, he⟩ | ⟨-, haccess⟩
  · rw [he]
    exact hE _ nofun
  · refine haccess.ends fun a cell error he => hE error ?_
    obtain ⟨w, -, -, rfl⟩ := Cell.readError?_eq_some he
    exact nofun

theorem store_ends {value : UInt64} (hE : ∀ error, error.OfStep → E error)
    (h : F ∨ wave < maxReaders ∧ len ≤ 8 ∧ addr + len < 2 ^ 64) :
    (store wave lane addr len value size m).Ends E F fun _ _ => True := by
  rcases store_accesses lane size value h with ⟨-, he⟩ | ⟨-, haccess⟩
  · rw [he]
    exact hE _ nofun
  · refine haccess.ends fun a cell error he => hE error ?_
    rcases Cell.clash_of_writeError? he with ⟨_, rfl⟩ | ⟨_, rfl⟩ <;> exact nofun

end

end SharedMemory

end PrimitiveShader
