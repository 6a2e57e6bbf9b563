import PrimitiveShader.Proofs.Memory.History
import PrimitiveShader.Proofs.Typing.Lanes
import PrimitiveShader.Proofs.Wave.Spared

/-!
# Waves keep to the types of their program

All lanes of a wave are sound, and the wave is on lanes that it has. An instruction of a valid program
keeps it so, whatever it does across lanes or to shared memory (`Wave.Sound.execute`). It may end with
an error, but with a fault only where faults are admitted.
-/

namespace PrimitiveShader

open ScalarType

/-! ## The lanes of a wave -/

/-- A set of lanes below `n` is a number of `n` bits. -/
theorem LaneMask.Below.bits_lt {n : Nat} {mask : LaneMask} (h : mask.Below n) : mask.bits.toNat < 2 ^ n := by
  refine Nat.lt_pow_two_of_testBit _ fun i hi => ?_
  rcases Nat.lt_or_ge i 64 with hlt | hge
  · rw [← Bits.test_eq_testBit _ hlt]
    refine Bool.eq_false_iff.mpr fun htest => ?_
    exact Nat.not_lt.mpr hi (h i (mem_lanes.mpr ⟨hlt, htest⟩))
  · exact Nat.testBit_lt_two_pow (Nat.lt_of_lt_of_le mask.bits.toNat_lt (Nat.pow_le_pow_right (by decide) hge))

/-- A wave's lanes are all there and sound. -/
structure LanesSound (group : Workgroup) (typed : Prop) (lanes : Array Lane) : Prop where
  count : lanes.size = group.wave.size
  each : ∀ (l : Nat) (lane : Lane), lanes[l]? = some lane → lane.Sound group.program typed

namespace LanesSound

variable {group : Workgroup} {typed F : Prop} {lanes : Array Lane} {value : Value} {l : Nat}

variable (h : LanesSound group typed lanes)
include h

/-- A register with a type can be read on every lane. -/
theorem exists_read (hl : l < group.wave.size) {τ : ScalarType}
    (ht : group.program.valueType? value = some τ) : ∃ a, readRegister lanes l value = .ok a ∧ (typed → τ.Fits a) := by
  have hlt : l < lanes.size := h.count ▸ hl
  obtain ⟨a, ha, hfits⟩ := (h.each l _ (Array.getElem?_eq_getElem hlt)).exists_read ht
  exact ⟨a, by simp [readRegister, hlt, ha], hfits⟩

theorem writeRegister {a : UInt64} (ha : typed → ∀ τ, group.program.typeOf value = .ok τ → τ.Fits a) :
    LanesSound group typed (writeRegister lanes l value a) where
  count := by simpa [PrimitiveShader.writeRegister] using h.count
  each k lane hlane := by
    simp only [PrimitiveShader.writeRegister, Array.getElem?_modify] at hlane
    split at hlane
    · obtain ⟨old, hold, rfl⟩ := Option.map_eq_some_iff.mp hlane
      exact (h.each k old hold).write ha
    · exact h.each k lane hlane

theorem modifyM {f : Lane → Except Fault Lane}
    (hf : ∀ lane, lane.Sound group.program typed → Yields F (fun lane' => lane'.Sound group.program typed) (f lane)) :
    Yields F (LanesSound group typed) (lanes.modifyM l f) := by
  cases hm : lanes.modifyM l f with
  | error fault =>
    unfold Array.modifyM at hm
    by_cases hl : l < lanes.size
    · have hyields := hf _ (h.each l _ (Array.getElem?_eq_getElem hl))
      cases hr : f lanes[l] with
      | error fault =>
        rw [hr] at hyields
        exact hyields
      | ok lane' => simp [hl, hr, bind, Except.bind, pure, Except.pure] at hm
    · simp [hl, pure, Except.pure] at hm
  | ok lanes' =>
    obtain ⟨hcount, hsame, hserved⟩ := modifyM_eq_ok hm
    refine ⟨hcount.trans h.count, fun k lane hlane => ?_⟩
    by_cases hk : k = l
    · subst hk
      have hlt : k < lanes.size := hcount ▸ (Array.getElem?_eq_some_iff.mp hlane).1
      obtain ⟨lane', hlane', hentry⟩ := hserved _ (Array.getElem?_eq_getElem hlt)
      obtain rfl : lane = lane' := Option.some.inj (hlane.symm.trans hentry)
      have hyields := hf _ (h.each k _ (Array.getElem?_eq_getElem hlt))
      rwa [hlane'] at hyields
    · exact h.each k lane (hsame k hk ▸ hlane)

end LanesSound

namespace Wave

variable {group : Workgroup} {typed F : Prop} {w : Wave} {value : Value}

/-- The wave is one of those launched, its lanes are sound, and it is on lanes that it has. -/
structure Sound (group : Workgroup) (typed : Prop) (w : Wave) : Prop
    extends w.Below group.wave.size where
  id : w.id < Hardware.maxWaves
  lanes : LanesSound group typed w.lanes

theorem size_le (wave : WaveWidth) : wave.size ≤ 64 := by
  cases wave <;> decide

namespace Sound

theorem updateLanes (h : w.Sound group typed) {f : Nat → Lane → Except Fault Lane}
    (hf : ∀ l ∈ w.exec.lanes, ∀ lane, lane.Sound group.program typed →
      Yields F (fun lane' => lane'.Sound group.program typed) (f l lane)) :
    Yields F (fun w' => LanesSound group typed w'.lanes) (w.updateLanes f) := by
  obtain ⟨id, launched, exec, pc, frames, lanes⟩ := w
  exact Yields.bind_iff.mpr (Yields.foldlM_keeps (fun _ l hl hlanes => hlanes.modifyM (hf l hl)) h.lanes)

theorem assign (h : w.Sound group typed) {f : Nat → UInt64}
    (hf : typed → ∀ l ∈ w.exec.lanes, ∀ τ, group.program.typeOf value = .ok τ → τ.Fits (f l)) :
    Yields F (fun w' => LanesSound group typed w'.lanes) (w.assign value f) :=
  h.updateLanes fun l hl _ hlane => hlane.write fun hτ => hf hτ l hl

theorem inRange (h : w.Sound group typed) {l : Nat} (hl : l ∈ w.exec.lanes) : (laneId group w.id l).InRange := by
  have hid : w.id < 8 := h.id
  have hlane := h.exec l hl
  have hsize := size_le group.wave
  refine ⟨hid, by simpa [laneId] using Nat.lt_of_lt_of_le hlane hsize, ?_⟩
  calc w.id * group.wave.size + l < w.id * group.wave.size + group.wave.size := by omega
    _ = (w.id + 1) * group.wave.size := by rw [Nat.succ_mul]
    _ ≤ 8 * 64 := Nat.mul_le_mul (by omega) hsize

variable {τ σ type : ScalarType} {base : UInt32} {addr : Value}

/-- A condition can be read on all lanes that are on. -/
theorem maskOf (h : w.Sound group typed) (ht : group.program.valueType? value = some τ) :
    ∃ mask, w.maskOf value = .ok mask ∧ mask.Below group.wave.size := by
  have hyields : Yields False (fun _ => True) (w.maskOf value) := by
    refine Yields.foldlM_keeps (fun mask l hl _ => ?_) trivial
    obtain ⟨a, ha, -⟩ := h.lanes.exists_read (h.exec l hl) ht
    rw [ha]
    trivial
  cases hm : w.maskOf value with
  | error fault =>
    rw [hm] at hyields
    exact hyields.elim
  | ok mask => exact ⟨mask, rfl, fun l hl => h.exec l (((maskOf_eq_ok hm).2 l).mp hl).1⟩

theorem sumOf (h : w.Sound group typed)
    (ht : group.program.valueType? value = some τ) : Yields F (fun _ => True) (w.sumOf value) := by
  refine Yields.foldlM_keeps (fun sum l hl _ => ?_) trivial
  obtain ⟨a, ha, -⟩ := h.lanes.exists_read (h.exec l hl) ht
  rw [ha]
  trivial

/-! ### Across lanes -/

theorem readLanes (h : w.Sound group typed) {source index : Value} (hsource : group.program.valueType? source = some τ)
    (hindex : group.program.valueType? index = some σ) (hvalue : group.program.typeOf value = .ok τ) :
    Yields F (fun w' => LanesSound group typed w'.lanes) (Wave.readLanes value source index w) := by
  obtain ⟨id, launched, exec, pc, frames, lanes⟩ := w
  refine Yields.bind_iff.mpr (Yields.foldlM_keeps (fun lanes l hl hlanes => ?_) h.lanes)
  have hwrite {a : UInt64} (ha : typed → τ.Fits a) : LanesSound group typed (writeRegister lanes l value a) :=
    hlanes.writeRegister fun ht ρ hρ => Except.ok.inj (hvalue.symm.trans hρ) ▸ ha ht
  obtain ⟨from_, hfrom, -⟩ := hlanes.exists_read (h.exec l hl) hindex
  rw [hfrom]
  refine Yields.bind_iff.mpr ?_
  change Yields F _ (if from_.toNat < lanes.size then _ else _)
  split
  · rename_i hlt
    obtain ⟨a, ha, hfits⟩ := hlanes.exists_read (hlanes.count ▸ hlt) hsource
    rw [ha]
    exact hwrite hfits
  · exact hwrite fun _ => fits_zero τ

/-- An operation across lanes keeps the lanes sound. -/
theorem crossLane (h : w.Sound group typed) (hexec : w.exec.isEmpty = false) {op : CrossLaneOp}
    (ht : op.resultType? group.program.valueType? = some type)
    (hvalue : group.program.typeOf value = .ok type)
    (htyped : typed → (Instr.intrinsic (.crossLane op)).Typed group.wave) :
    Yields F (fun w' => LanesSound group typed w'.lanes) (w.crossLane group value op) := by
  have hassign {f : Nat → UInt64} (hf : typed → ∀ l, type.Fits (f l)) :
      Yields F (fun w' => LanesSound group typed w'.lanes) (w.assign value f) :=
    h.assign fun hτ l _ ρ hρ => Except.ok.inj (hvalue.symm.trans hρ) ▸ hf hτ l
  cases op with
  | ballot predicate τ =>
    obtain ⟨σ, hσ, ht⟩ := Option.bind_eq_some_iff.mp ht
    obtain rfl : τ = type := by
      simp only [typeWhen] at ht
      grind
    obtain ⟨mask, hmask, hbelow⟩ := h.maskOf hσ
    simp only [Wave.crossLane, hmask]
    exact hassign fun hτ _ => Nat.lt_of_lt_of_le hbelow.bits_lt (Nat.pow_le_pow_right (by decide) (htyped hτ))
  | maskedBitCount mask =>
    obtain ⟨σ, hσ, ht⟩ := Option.bind_eq_some_iff.mp ht
    obtain rfl : type = .u32 := by
      simp only [typeWhen] at ht
      grind
    refine h.updateLanes fun l hl lane hlane => ?_
    obtain ⟨bits, hbits, -⟩ := hlane.exists_read hσ
    rw [hbits]
    refine hlane.write fun _ ρ hρ => Except.ok.inj (hvalue.symm.trans hρ) ▸ ?_
    exact @UnaryOp.fits_eval .bitCount .u32 .u32 rfl _
  | readLane source index =>
    obtain ⟨τ, hτ, ht⟩ := Option.bind_eq_some_iff.mp ht
    obtain ⟨σ, hσ, ht⟩ := Option.bind_eq_some_iff.mp ht
    obtain rfl : τ = type := by
      simp only [typeWhen] at ht
      grind
    exact h.readLanes hτ hσ hvalue
  | readFirstLane source =>
    obtain ⟨τ, hτ, ht⟩ := Option.bind_eq_some_iff.mp ht
    obtain rfl : τ = type := by
      simp only [typeWhen] at ht
      grind
    obtain ⟨l, hl, hlowest⟩ := LaneMask.exists_lowest hexec
    obtain ⟨a, ha, hfits⟩ := h.lanes.exists_read (h.exec l hl) hτ
    simp only [Wave.crossLane, hlowest, Option.getD_some, ha]
    exact hassign fun hτ _ => hfits hτ
  | elect =>
    obtain rfl : .bool = type := Option.some.inj ht
    exact hassign fun _ _ => fits_bool _
  | reduceAdd source =>
    obtain ⟨τ, hτ, ht⟩ := Option.bind_eq_some_iff.mp ht
    obtain rfl : τ = type := by
      simp only [typeWhen] at ht
      grind
    simp only [Wave.crossLane, Program.valueType?_eq_some_iff.mp hτ]
    exact Yields.bind_iff.mpr (Yields.bind_iff.mpr
      ((h.sumOf hτ).mono fun sum _ _ => hassign fun _ _ => fits_and_mask _ _))

/-! ### Shared memory and exports -/

/-- The sum of a base and a 32-bit number is far below the largest address. -/
theorem address_yields {offset : UInt64} (h : F ∨ u32.Fits offset) :
    Yields F (fun a => F ∨ a + 8 < 2 ^ 64) (address base offset) := by
  have hbase := base.toNat_lt
  rcases h with hF | h
  · exact Yields.of_admitted hF fun _ => .inl hF
  · have hoffset : offset.toNat < 2 ^ 32 := h
    unfold address
    rw [if_pos (by omega)]
    exact .inr (by omega)

section

variable (h : w.Sound group typed)
include h

theorem loadShared (htyped : F ∨ typed) (haddr : group.program.valueType? addr = some .u32) (hint : type.isInt)
    (hvalue : group.program.typeOf value = .ok type) (s : Shared) :
    (w.loadShared group value addr base type s).Ends (fun _ => True) F fun w' _ => LanesSound group typed w'.lanes := by
  have hid : w.id < SharedMemory.maxReaders := h.id
  have hlen : type.bytes ≤ 8 ∧ 8 * type.bytes = type.bits := by
    cases type <;> first | decide | cases hint
  obtain ⟨id, launched, exec, pc, frames, lanes⟩ := w
  refine .bind (Outcome.Ends.foldlM (I := fun _ lanes _ => LanesSound group typed lanes)
    (fun before l after lanes s hls hlanes => ?_) h.lanes)
  have hl : l ∈ exec.lanes := by simp [hls]
  obtain ⟨offset, hoffset, hfits⟩ := hlanes.exists_read (h.exec l hl) haddr
  rw [hoffset]
  refine .bind (.lift (.bind (.lift ((address_yields (htyped.imp_right hfits)).mono fun at_ _ hat => ?_))))
  refine .bind ((Outcome.Ends.onMemory (SharedMemory.load_ends (fun _ _ => trivial)
    (hat.imp_right fun h => ⟨hid, hlen.1, by omega⟩))).mono fun data _ _ ⟨hdata, _⟩ => ?_)
  refine hlanes.writeRegister fun _ ρ hρ => ?_
  obtain rfl : type = ρ := Except.ok.inj (hvalue.symm.trans hρ)
  rw [hdata, Fits, ← hlen.2]
  exact littleEndian_lt _ _ hlen.1

theorem storeShared {data : Value} (htyped : F ∨ typed) (hdata : group.program.valueType? data = some type)
    (haddr : group.program.valueType? addr = some .u32) (s : Shared) :
    (w.storeShared group data addr base s).Ends (fun _ => True) F fun _ _ => True := by
  have hid : w.id < SharedMemory.maxReaders := h.id
  have hlen : type.bytes ≤ 8 := by cases type <;> decide
  unfold Wave.storeShared
  rw [Program.valueType?_eq_some_iff.mp hdata]
  refine .bind (.lift (Outcome.Ends.forM_mem (fun l hl s => ?_) s))
  obtain ⟨offset, hoffset, hfits⟩ := h.lanes.exists_read (h.exec l hl) haddr
  obtain ⟨a, ha, -⟩ := h.lanes.exists_read (h.exec l hl) hdata
  rw [hoffset, ha]
  refine .bind (.lift (.bind (.lift ((address_yields (htyped.imp_right hfits)).mono fun at_ _ hat => ?_))))
  refine .bind (.lift (.bind ((Outcome.Ends.onMemory (SharedMemory.store_ends (fun _ _ => trivial)
    (hat.imp_right fun h => ⟨hid, hlen, by omega⟩))).mono fun _ _ _ _ => trivial)))

theorem queryAdd {stream : UInt8} {count : Value}
    (hstream : F ∨ stream.toNat < 4) (hcount : group.program.valueType? count = some type)
    (s : Shared) : (w.queryAdd stream count s).Ends (fun _ => True) F fun _ _ => True := by
  refine Outcome.Ends.forM_mem (fun l hl s => ?_) s
  split
  · obtain ⟨a, ha, -⟩ := h.lanes.exists_read (h.exec l hl) hcount
    rw [ha]
    trivial
  · rename_i hwide
    exact hstream.resolve_right hwide

theorem allocate {vertices primitives : Value}
    (hv : group.program.valueType? vertices = some τ) (hp : group.program.valueType? primitives = some σ) (s : Shared) :
    (w.allocate vertices primitives s).Ends (fun _ => True) F fun _ _ => True := by
  refine Outcome.Ends.forM_mem (fun l hl s => ?_) s
  obtain ⟨a, ha, -⟩ := h.lanes.exists_read (h.exec l hl) hv
  obtain ⟨b, hb, -⟩ := h.lanes.exists_read (h.exec l hl) hp
  rw [ha, hb]
  by_cases hid : w.id = 0
  · rw [if_pos hid]
    refine .bind (show Outcome.Ends _ F _ (.done s s) from ?_)
    change Outcome.Ends _ F _ ((if s.result.allocation.isSome then _ else _ : Exec Shared Unit) s)
    split
    · trivial
    · trivial
  · rw [if_neg hid]
    trivial

theorem exportPrimitives {word : Value} (hw : group.program.valueType? word = some τ) (s : Shared) :
    (w.exportPrimitives group word s).Ends (fun _ => True) F fun _ _ => True := by
  refine Outcome.Ends.forM_mem (fun l hl s => ?_) s
  obtain ⟨a, ha, -⟩ := h.lanes.exists_read (h.exec l hl) hw
  rw [ha]
  trivial

end

theorem exportVertices (s : Shared) : (w.exportVertices group s).Ends (fun _ => True) F fun _ _ => True :=
  Outcome.Ends.forM_mem (fun _ _ _ => show Outcome.Ends _ F _ (Outcome.done _ _) from trivial) s

/-- An instruction other than a barrier keeps the lanes sound. -/
theorem execute (hlaunch : group.launch.Valid group.wave) (h : w.Sound group typed)
    (hexec : w.exec.isEmpty = false) {visible : Value → Prop} {d : Definition}
    (hd : group.program.Supports visible value d) (htyped : typed → d.instr.Typed group.wave)
    (htotal : F ∨ d.instr.Total group.launch typed) (hbarrier : d.instr ≠ .intrinsic .barrier) (s : Shared) :
    (w.execute group value d.instr s).Ends (fun _ => True) F fun w' _ => LanesSound group typed w'.lanes := by
  have hvalue : group.program.typeOf value = .ok d.type := by
    simp [Program.typeOf, Program.definition, hd.definition, Except.map]
  have hlocal (hlocal : d.instr.isLaneLocal) : ((Exec.lift (w.updateLanes fun lane =>
      Lane.execute group (laneId group w.id lane) value d.instr) : Exec Shared Wave) s).Ends
      (fun _ => True) F fun w' _ => LanesSound group typed w'.lanes :=
    .lift (h.updateLanes fun l hl lane hlane =>
      hlane.execute hlaunch (h.inRange hl) htyped htotal hd hlocal)
  have hkeep {x : Exec Shared Unit} (hx : (x s).Ends (fun _ => True) F fun _ _ => True) :
      ((do x; return w : Exec Shared Wave) s).Ends (fun _ => True) F fun w' _ => LanesSound group typed w'.lanes :=
    .bind (hx.mono fun _ _ _ _ => h.lanes)
  obtain ⟨instr, type⟩ := d
  have ht := hd.type
  cases instr with
  | intrinsic op =>
    cases op with
    | crossLane op => exact .lift (h.crossLane hexec ht hvalue htyped)
    | loadShared addr base τ =>
      obtain ⟨σ, hσ, ht⟩ := Option.bind_eq_some_iff.mp ht
      obtain ⟨⟨rfl, hint⟩, rfl⟩ : (σ = .u32 ∧ τ.isInt) ∧ τ = type := by
        simp only [typeWhen] at ht
        grind
      exact h.loadShared htotal hσ hint hvalue s
    | storeShared data addr base =>
      obtain ⟨τ, hτ, ht⟩ := Option.bind_eq_some_iff.mp ht
      obtain ⟨σ, hσ, ht⟩ := Option.bind_eq_some_iff.mp ht
      obtain rfl : σ = .u32 := by
        simp only [typeWhen] at ht
        grind
      exact hkeep (h.storeShared htotal hτ hσ s)
    | barrier => exact absurd rfl hbarrier
    | queryAdd stream count =>
      obtain ⟨τ, hτ, -⟩ := Option.bind_eq_some_iff.mp ht
      exact hkeep (h.queryAdd htotal hτ s)
    | allocate vertices primitives =>
      obtain ⟨τ, hτ, ht⟩ := Option.bind_eq_some_iff.mp ht
      obtain ⟨σ, hσ, -⟩ := Option.bind_eq_some_iff.mp ht
      exact hkeep (h.allocate hτ hσ s)
    | exportPrimitive word =>
      obtain ⟨τ, hτ, -⟩ := Option.bind_eq_some_iff.mp ht
      exact hkeep (h.exportPrimitives hτ s)
    | exportVertex => exact hkeep (exportVertices s)
    | geometry op => trivial
    | input | storeOutput => exact hlocal rfl
  | const | undef | unary | binary | select | convert | extract | loadVar | storeVar =>
    exact hlocal rfl

end Sound

end Wave

end PrimitiveShader
