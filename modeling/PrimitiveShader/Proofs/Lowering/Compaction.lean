import PrimitiveShader.Lowering.Compaction
import PrimitiveShader.Proofs.Lowering.Region
import PrimitiveShader.Proofs.Lowering.Subgroup
import PrimitiveShader.Proofs.Memory.Words

/-!
# Compaction, wave by wave

A compaction has two halves with a barrier in between. In the first half each wave counts its survivors
and writes the count to a byte of its own (`Lowering.storeCount_brings`). In the second half every lane
reads all counts as one word. The sum of the lowest `n` bytes of that word is the number of survivors
among the lanes of the first `n` waves, whatever the bytes of waves that do not exist
(`Lowering.wp_sumFirstBytes`), and so each lane learns its rank and the total
(`Lowering.gatherCounts_brings`).
-/

namespace PrimitiveShader

/-! ## Sums of bytes -/

namespace Bits

variable {n : Nat}

theorem toNat_byte_ofNat (h : n < 256) : (byte (UInt64.ofNat n) 0).toNat = n := by
  have hshift : UInt64.ofNat n >>> UInt64.ofNat (8 * 0) = UInt64.ofNat n := UInt64.shiftRight_zero
  rw [byte, hshift, UInt64.toNat_toUInt8, UInt64.toNat_ofNat']
  omega

theorem byteSum_and_lowOnes (word : UInt64) (hn : n ≤ 8) :
    byteSum (word &&& lowOnes (8 * n)) = ((List.range n).map fun j => (byte word j).toNat).sum := by
  obtain ⟨k, hk⟩ := Nat.exists_eq_add_of_le hn
  have hlow : (List.range n).map (fun j => (byte (word &&& lowOnes (8 * n)) j).toNat) =
      (List.range n).map fun j => (byte word j).toNat := by
    refine List.map_congr_left fun j hj => ?_
    have hlt := List.mem_range.mp hj
    rw [byte_and_lowOnes word (by omega), if_pos hlt]
  have hhigh : ((List.range k).map (n + ·)).map
      (fun j => (byte (word &&& lowOnes (8 * n)) j).toNat) = (List.range k).map fun _ => 0 := by
    rw [List.map_map]
    refine List.map_congr_left fun j hj => ?_
    have hlt := List.mem_range.mp hj
    rw [Function.comp_apply, byte_and_lowOnes word (by omega), if_neg (by omega)]
    rfl
  have hrange : List.range 8 = List.range n ++ (List.range k).map (n + ·) := by
    rw [hk, List.range_add]
  have hzero : ((List.range k).map fun _ => 0).sum = 0 := by simp [List.map_const']
  change ((List.range 8).map fun i => (byte (word &&& lowOnes (8 * n)) i).toNat).sum = _
  rw [hrange, List.map_append, List.sum_append, hlow, hhigh, hzero, Nat.add_zero]

end Bits

/-- The lanes of some waves, wave by wave. -/
theorem countBelow_mul (live : Nat → Bool) (n size : Nat) : countBelow live (n * size) =
      ((List.range n).map fun j => countBelow (fun l => live (j * size + l)) size).sum := by
  induction n with
  | zero => simp [countBelow_zero]
  | succ n ih =>
    rw [Nat.succ_mul, countBelow_add, ih, List.range_succ, List.map_append, List.sum_append]
    simp

namespace Lowering

variable {scratch : Region} {survive : Value}

open Emit

/-! ## The two halves -/

/-- Emits the counting of a wave's survivors. -/
def countInWave (wave : WaveWidth) (survive : Value) : Emit Compaction := do
  let ballot ← wave.ballot survive
  let waveCount ← wave.popCount ballot
  let waveRank ← wave.exclusiveRank ballot
  return { total := waveCount, rank := waveRank }

/-- Emits the store of a wave's count. -/
def storeCount (wave : WaveWidth) (waveCount : Value) (scratch : Region) : Emit Unit := do
  let elected ← wave.elect
  Emit.ifThen elected do
    let count ← Emit.convert waveCount .u8
    let waveId ← Emit.input .subgroupId
    scratch.store count waveId 1 0

/-- Emits the first half of a compaction. -/
def publishCounts (wave : WaveWidth) (survive : Value) (scratch : Region) : Emit Compaction := do
  let counts ← countInWave wave survive
  storeCount wave counts.total scratch
  return counts

/-- Emits the load of all waves' counts. -/
def loadCounts (scratch : Region) : Emit Value := do
  let zero ← Emit.imm32 0
  let packed ← scratch.load zero scratch.size 0 (if scratch.size = 8 then .u64 else .u32)
  Emit.convert packed .u64

/-- Emits the sums over the counts of the waves before, and over all counts. -/
def sumCounts (scratch : Region) : Emit (Value × Value) := do
  let packed ← loadCounts scratch
  let waveId ← Emit.input .subgroupId
  let numWaves ← Emit.input .numSubgroups
  let before ← sumFirstBytes packed waveId
  let total ← sumFirstBytes packed numWaves
  return (before, total)

/-- Emits the second half of a compaction. -/
def gatherCounts (wave : WaveWidth) (waveRank : Value) (scratch : Region) : Emit Compaction := do
  let sums ← sumCounts scratch
  let before ← wave.readFirstLane sums.1
  let total ← wave.readFirstLane sums.2
  let rank ← Emit.binary .add before waveRank
  return { total, rank }

theorem compactLanes_none (wave : WaveWidth) (survive : Value) :
    compactLanes wave survive none = countInWave wave survive := rfl

theorem compactLanes_some (wave : WaveWidth) (survive : Value) (scratch : Region) :
    compactLanes wave survive (some scratch) = (do
      let counts ← publishCounts wave survive scratch
      Emit.effect .barrier
      gatherCounts wave counts.rank scratch) := by
  simp only [compactLanes, countInWave, storeCount, publishCounts, loadCounts, sumCounts, gatherCounts, bind_assoc,
    pure_bind]

section

variable {K : Instr → Prop} [Instr.Common K] (wave : WaveWidth) (a b : Value) (scratch : Region)

instance : Straight K (countInWave wave a) := by
  unfold countInWave
  infer_instance

instance : Straight K (sumFirstBytes a b) := by
  unfold sumFirstBytes
  infer_instance

instance : Straight K (loadCounts scratch) := by
  unfold loadCounts
  infer_instance

instance : Straight K (sumCounts scratch) := by
  unfold sumCounts
  infer_instance

instance : Straight K (gatherCounts wave a scratch) := by
  unfold gatherCounts
  infer_instance

instance : Novel K (storeCount wave a scratch) := by
  unfold storeCount
  infer_instance

instance : Novel K (publishCounts wave a scratch) := by
  unfold publishCounts
  infer_instance

/-- Only the election of a lane decides who writes a count. -/
theorem clears_publishCounts (known : Value → Prop) : Clears known (publishCounts wave a scratch) fun _ _ => True := by
  refine .bind (.straight fun counts => .bind (.bind (.elect fun elected known' _ helected => ?_)))
  exact .ifThen helected (.straight fun _ => trivial) fun _ _ => .pure trivial

instance [Novel K (Emit.effect .barrier)] (scratch : Option Region) : Novel K (compactLanes wave a scratch) := by
  cases scratch with
  | none =>
    rw [compactLanes_none]
    infer_instance
  | some scratch =>
    rw [compactLanes_some]
    infer_instance

end

/-! ## The first half -/

variable {c : Setting} {id : Nat} {p : Program} {T : Nat → Thread} {wave : WaveWidth} {live : Nat → Bool}

/-- The number of survivors among the first lanes of a wave. -/
def survivorsIn (c : Setting) (live : Nat → Bool) (id n : Nat) : Nat :=
  countBelow (fun l => live (c.index id l)) n

theorem survivorsIn_lt (c : Setting) (live : Nat → Bool) (id : Nat) :
    survivorsIn c live id c.group.wave.size < 256 := by
  have hsize : c.group.wave.size ≤ 64 := by cases c.group.wave <;> decide
  have hle := countBelow_le (fun l => live (c.index id l)) c.group.wave.size
  unfold survivorsIn
  omega

/-- Every lane learns how many lanes of its wave survive, and how many of them are before it. -/
theorem countInWave_brings (hg : c.group.Fits) (hid : id < c.group.numWaves)
    (hbeyond : ∀ i, c.group.launch.numLanes ≤ i → live i = false) (ht : p.typeOf survive = .ok .bool)
    (hlive : ∀ l ∈ (c.launched id).lanes, ∃ a, (T l).lane.read survive = .ok a ∧ (live (c.index id l) = true ↔ a ≠ 0)) :
    Brings c id (countInWave wave survive) p (fun counts p' T' => ∀ l ∈ (c.launched id).lanes,
      Computed p (T l) p' (T' l) ∧ Knows p' (T' l) counts.total .u32
        (UInt64.ofNat (survivorsIn c live id c.group.wave.size)) ∧
      Knows p' (T' l) counts.rank .u32 (UInt64.ofNat (survivorsIn c live id l))) T := by
  have hsize : c.group.wave.size ≤ 64 := by cases c.group.wave <;> decide
  refine .bind (WaveWidth.ballot_brings hid hbeyond ht hlive fun ballot p₁ T₁ mask hmask h₁ => ?_)
  have hbelow : ∀ n ≤ c.group.wave.size, countBelow (fun l => decide (l < c.group.wave.size) && live (c.index id l)) n =
        survivorsIn c live id n := by
    intro n hn
    refine countBelow_congr fun l hl => ?_
    simp [show l < c.group.wave.size by omega]
  have hcount : UnaryOp.bitCount.eval mask.bits = UInt64.ofNat (survivorsIn c live id c.group.wave.size) := by
    rw [UnaryOp.eval, LaneMask.count_bits hmask, countBelow_eq_of_le hsize, hbelow _ (Nat.le_refl _)]
    intro l hl
    simp [Nat.not_lt.mpr hl]
  refine .bind (.each hg hid (B := fun l v p₂ t₂ => Computed p₁ (T₁ l) p₂ t₂ ∧ Knows p₂ t₂ v .u32
    (UInt64.ofNat (survivorsIn c live id c.group.wave.size))) (fun l hl => ?_) fun count p₂ T₂ h₂ => ?_)
  · refine wp_unary (h₁ l hl).2 ?_ fun v p₂ t₂ hc hk => ⟨hc, hcount ▸ hk⟩
    cases wave <;> rfl
  refine .bind (WaveWidth.exclusiveRank_brings hid
    (fun l hl => (h₁ l hl).2.computed (h₂ l hl).1) fun rank p₃ T₃ h₃ => ?_)
  refine .pure fun l hl => ?_
  have hlt := (Setting.mem_launched.mp hl).1
  have hrank : Bits.count (mask.bits &&& Bits.lowOnes l) = survivorsIn c live id l := by
    rw [LaneMask.count_and_lowOnes hmask (by omega), hbelow l (by omega)]
  refine ⟨((h₁ l hl).1.trans (h₂ l hl).1).trans (h₃ l hl).1, (h₂ l hl).2.computed (h₃ l hl).1, ?_⟩
  exact hrank ▸ (h₃ l hl).2

/-- The first lane of each wave writes the wave's count. -/
theorem storeCount_brings (hg : c.group.Fits) (hid : id < c.group.numWaves) {waveCount : Value}
    {count : Nat} (hcount : count < 256)
    (hknows : ∀ l ∈ (c.launched id).lanes, Knows p (T l) waveCount .u32 (UInt64.ofNat count))
    (hholds : scratch.Holds c.program id 1) (hown : c.own (scratch.offset + id) = some (c.index id 0)) :
    Brings c id (storeCount wave waveCount scratch) p (fun _ p' T' =>
      ∀ l ∈ (c.launched id).lanes, Computed p
        (if l = 0 then (T l).see (overwrite (T l).view (scratch.offset + id) 1 (UInt64.ofNat count))
          else T l) p' (T' l)) T := by
  refine .bind (WaveWidth.elect_brings hid fun elected p₁ T₁ h₁ => ?_)
  refine .each hg hid (fun l hl => ?_) fun _ _ _ h => h
  have hwave : (c.group.laneId (c.index id l)).wave = id :=
    Setting.index_div (Setting.mem_launched.mp hl).1
  refine wp_ifThen (h₁ l hl).2 (fun hne p₂ h₂ => ?_) fun hz p₂ h₂ => ?_
  · have hfirst : l = 0 := by simpa [toUInt64_eq_zero_iff] using hne
    subst hfirst
    have hcut : ScalarType.u8.convert (UInt64.ofNat count) = UInt64.ofNat count := by
      refine ScalarType.and_mask_eq ?_
      rw [toNat_ofNat_of_lt (by omega)]
      exact hcount
    have hknows₂ := ((hknows 0 hl).computed (h₁ 0 hl).1).later h₂
    refine wp_bind (wp_convert hknows₂ nofun nofun fun v p₃ t₃ h₃ hv => ?_)
    refine wp_bind (wp_input fun waveId p₄ t₄ h₄ hwaveId => ?_)
    rw [if_neg nofun, hcut] at hv
    rw [hwave] at hwaveId
    refine Region.wp_store (hv.computed h₄) rfl hwaveId hholds (fun _ j hj => ?_) fun p₅ t₅ h₅ p₆ h₆ => ?_
    · obtain rfl : j = 0 := by simp only [ScalarType.bytes] at hj; omega
      simp only [Region.fieldAddress, Nat.mul_one, Nat.add_zero]
      exact hown
    · have hmoved := (((h₁ 0 hl).1.trans (.of_within h₂.within)).trans h₃).trans h₄
      have haddr : scratch.fieldAddress id 1 0 = scratch.offset + id := by
        simp only [Region.fieldAddress, Nat.mul_one, Nat.add_zero]
      rw [haddr, hmoved.view] at h₅
      exact ((hmoved.withView _).trans h₅).trans (.of_within h₆.within)
  · have hother : l ≠ 0 := by simpa [toUInt64_eq_zero_iff] using hz
    rw [if_neg hother]
    exact (h₁ l hl).1.trans (.of_within h₂.within)

/-- Every lane learns its rank in its wave, and the first lane of the wave writes the count. -/
theorem publishCounts_brings (hg : c.group.Fits) (hid : id < c.group.numWaves)
    (hbeyond : ∀ i, c.group.launch.numLanes ≤ i → live i = false) (ht : p.typeOf survive = .ok .bool)
    (hlive : ∀ l ∈ (c.launched id).lanes, ∃ a, (T l).lane.read survive = .ok a ∧ (live (c.index id l) = true ↔ a ≠ 0))
    (hholds : scratch.Holds c.program id 1) (hown : c.own (scratch.offset + id) = some (c.index id 0)) :
    Brings c id (publishCounts wave survive scratch) p (fun counts p' T' =>
      ∀ l ∈ (c.launched id).lanes, Computed p (if l = 0 then (T l).see (overwrite (T l).view
        (scratch.offset + id) 1 (UInt64.ofNat (survivorsIn c live id c.group.wave.size))) else T l) p' (T' l) ∧
        Knows p' (T' l) counts.rank .u32 (UInt64.ofNat (survivorsIn c live id l))) T := by
  refine .bind ((countInWave_brings hg hid hbeyond ht hlive).mono fun counts p₁ T₁ h₁ => ?_)
  refine .bind ((storeCount_brings hg hid (survivorsIn_lt c live id) (fun l hl => (h₁ l hl).2.1)
    hholds hown).mono fun _ p₂ T₂ h₂ => .pure fun l hl => ?_)
  have hcomputed := (h₁ l hl).1
  have hstore := h₂ l hl
  by_cases hfirst : l = 0
  · rw [if_pos hfirst] at hstore ⊢
    rw [hcomputed.view] at hstore
    have hseen (view : Nat → UInt8) : Later p₁ (T₁ l) p₁ ((T₁ l).see view) :=
      .of_registers (.refl p₁) rfl
    exact ⟨(hcomputed.withView _).trans hstore, ((h₁ l hl).2.2.later (hseen _)).computed hstore⟩
  · rw [if_neg hfirst] at hstore ⊢
    exact ⟨hcomputed.trans hstore, (h₁ l hl).2.2.computed hstore⟩

/-! ## The second half -/

section

variable {lane : LaneId} {t : Thread} {L : Thread → Prop} {Q : Value → Program → Thread → Prop}

theorem eval_shl_three : ∀ n < 9, BinaryOp.shl.eval .u32 (UInt64.ofNat n) (UInt64.ofNat 3) = UInt64.ofNat (8 * n) := by
  decide +kernel

/-- The sum of the lowest bytes of a word. -/
theorem wp_sumFirstBytes {packed waves : Value} {word : UInt64} {n : Nat} (hn : n ≤ 8)
    (hpacked : Knows p t packed .u64 word) (hwaves : Knows p t waves .u32 (UInt64.ofNat n))
    (hQ : Learns p t .u32 (UInt64.ofNat ((List.range n).map fun j => (Bits.byte word j).toNat).sum) Q) :
    Emit.wp c lane (sumFirstBytes packed waves) p Q L t := by
  refine wp_bind (wp_shlImm hwaves rfl (by decide) fun bits p₁ t₁ h₁ hbits => ?_)
  rw [eval_shl_three n (by omega)] at hbits
  refine wp_bind (wp_unary hbits rfl fun mask p₂ t₂ h₂ hmask => ?_)
  rw [UnaryOp.eval, toNat_ofNat_of_lt (by omega)] at hmask
  refine wp_bind (wp_binary ((hpacked.computed h₁).computed h₂) hmask rfl fun masked p₃ t₃ h₃ hm => ?_)
  refine wp_unary hm rfl fun v p₄ t₄ h₄ hv => hQ v p₄ t₄ (((h₁.trans h₂).trans h₃).trans h₄) ?_
  rwa [BinaryOp.eval, UnaryOp.eval, Bits.byteSum_and_lowOnes word hn] at hv

theorem wp_loadCounts (hsize : scratch.size = 4 ∨ scratch.size = 8)
    (hholds : scratch.Holds c.program 0 scratch.size) (hfree : ∀ j < scratch.size, c.own (scratch.offset + j) = none)
    (hQ : Learns p t .u64 (littleEndian t.view scratch.offset scratch.size 0) Q) :
    Emit.wp c lane (loadCounts scratch) p Q L t := by
  obtain ⟨type, htype, hbytes, hint, hkeep⟩ : ∃ type : ScalarType,
      (if scratch.size = 8 then ScalarType.u64 else .u32) = type ∧ type.bytes = scratch.size ∧
        type.isInt ∧ ∀ x, (if type = .u64 then x else ScalarType.u64.convert x) = x := by
    have hwhole (x : UInt64) : ScalarType.u64.convert x = x := ScalarType.and_mask_eq x.toNat_lt
    rcases hsize with h | h
    · exact ⟨.u32, by simp [h], h.symm, rfl, hwhole⟩
    · exact ⟨.u64, by simp [h], h.symm, rfl, fun _ => rfl⟩
  have hvoid : type ≠ .void := by
    rintro rfl
    cases hint
  have haddr : scratch.fieldAddress 0 scratch.size 0 = scratch.offset := by
    simp [Region.fieldAddress]
  unfold loadCounts
  rw [htype]
  refine wp_bind (wp_imm32 (by decide) fun zero p₁ t₁ h₁ hzero => ?_)
  refine wp_bind (Region.wp_load hzero hholds hint (fun _ j hj => ?_) fun packed p₂ t₂ h₂ hpacked => ?_)
  · rw [haddr]
    exact hfree j (hbytes ▸ hj)
  refine wp_convert hpacked hvoid (by decide) fun v p₃ t₃ h₃ hv => hQ v p₃ t₃ ((h₁.trans h₂).trans h₃) ?_
  rwa [hkeep, haddr, hbytes, h₁.view] at hv

/-- The sums, when the first bytes are the counts of the waves. -/
theorem wp_sumCounts (hsize : scratch.size = 4 ∨ scratch.size = 8)
    (hwaves : c.group.numWaves ≤ scratch.size) (hid : id < c.group.numWaves) (hlane : lane.wave = id)
    (hholds : scratch.Holds c.program 0 scratch.size) (hfree : ∀ j < scratch.size, c.own (scratch.offset + j) = none)
    (hview : ∀ j < c.group.numWaves, (t.view (scratch.offset + j)).toNat = survivorsIn c live j c.group.wave.size)
    {Q : Value × Value → Program → Thread → Prop} (hQ : ∀ sums p' t', Computed p t p' t' →
      Knows p' t' sums.1 .u32 (UInt64.ofNat (countBelow live (id * c.group.wave.size))) → Knows p' t' sums.2 .u32
        (UInt64.ofNat (countBelow live (c.group.numWaves * c.group.wave.size))) → Q sums p' t') :
    Emit.wp c lane (sumCounts scratch) p Q L t := by
  have height : c.group.numWaves ≤ 8 := by omega
  have hsum : ∀ n ≤ c.group.numWaves, ((List.range n).map fun j =>
      (Bits.byte (littleEndian t.view scratch.offset scratch.size 0) j).toNat).sum =
        countBelow live (n * c.group.wave.size) := by
    intro n hn
    rw [countBelow_mul]
    congr 1
    refine List.map_congr_left fun j hj => ?_
    have hlt := List.mem_range.mp hj
    rw [Bits.byte_littleEndian _ _ (by omega) (by omega), if_pos (by omega), hview j (by omega)]
    rfl
  refine wp_bind (wp_loadCounts hsize hholds hfree fun packed p₁ t₁ h₁ hpacked => ?_)
  refine wp_bind (wp_input fun waveId p₂ t₂ h₂ hwaveId => ?_)
  rw [hlane] at hwaveId
  refine wp_bind (wp_input fun numWaves p₃ t₃ h₃ hnumWaves => ?_)
  have hpacked₃ := (hpacked.computed h₂).computed h₃
  refine wp_bind (wp_sumFirstBytes (by omega) hpacked₃ (hwaveId.computed h₃) fun before p₄ t₄ h₄ hbefore => ?_)
  refine wp_bind (wp_sumFirstBytes height (hpacked₃.computed h₄) (hnumWaves.computed h₄)
    fun total p₅ t₅ h₅ htotal => ?_)
  rw [hsum id (by omega)] at hbefore
  rw [hsum _ (Nat.le_refl _)] at htotal
  exact wp_pure (hQ _ p₅ t₅ ((((h₁.trans h₂).trans h₃).trans h₄).trans h₅) (hbefore.computed h₅) htotal)

end

/-- Every lane learns the number of survivors and its rank among them. -/
theorem gatherCounts_brings (hg : c.group.Fits) (hid : id < c.group.numWaves)
    (hbeyond : ∀ i, c.group.launch.numLanes ≤ i → live i = false) {waveRank : Value}
    (hsize : scratch.size = 4 ∨ scratch.size = 8)
    (hwaves : c.group.numWaves ≤ scratch.size) (hholds : scratch.Holds c.program 0 scratch.size)
    (hfree : ∀ j < scratch.size, c.own (scratch.offset + j) = none)
    (hview : ∀ l ∈ (c.launched id).lanes, ∀ j < c.group.numWaves,
      ((T l).view (scratch.offset + j)).toNat = survivorsIn c live j c.group.wave.size)
    (hrank : ∀ l ∈ (c.launched id).lanes, Knows p (T l) waveRank .u32 (UInt64.ofNat (survivorsIn c live id l))) :
    Brings c id (gatherCounts wave waveRank scratch) p (fun result p' T' =>
      ∀ l ∈ (c.launched id).lanes, Computed p (T l) p' (T' l) ∧ Knows p' (T' l) result.total .u32
          (UInt64.ofNat (countBelow live c.group.launch.numLanes)) ∧
        Knows p' (T' l) result.rank .u32 (UInt64.ofNat (countBelow live (c.index id l)))) T := by
  have hu32 : ScalarType.u32 ≠ .void := nofun
  have hall : countBelow live (c.group.numWaves * c.group.wave.size) =
      countBelow live c.group.launch.numLanes := countBelow_eq_of_le c.group.numLanes_le hbeyond
  have hwave : ∀ l ∈ (c.launched id).lanes, (c.group.laneId (c.index id l)).wave = id :=
    fun l hl => Setting.index_div (Setting.mem_launched.mp hl).1
  refine .bind (.each hg hid (B := fun l sums p₁ t₁ => Computed p (T l) p₁ t₁ ∧
    Knows p₁ t₁ sums.1 .u32 (UInt64.ofNat (countBelow live (id * c.group.wave.size))) ∧
    Knows p₁ t₁ sums.2 .u32 (UInt64.ofNat (countBelow live c.group.launch.numLanes)))
    (fun l hl => wp_sumCounts hsize hwaves hid (hwave l hl) hholds hfree (hview l hl)
      fun sums p₁ t₁ hc hbefore htotal => ⟨hc, hbefore, hall ▸ htotal⟩) fun sums p₁ T₁ h₁ => ?_)
  refine .bind (WaveWidth.readFirstLane_brings hid hu32 (fun l hl => (h₁ l hl).2.1) fun before p₂ T₂ h₂ => ?_)
  refine .bind (WaveWidth.readFirstLane_brings hid hu32
    (fun l hl => (h₁ l hl).2.2.computed (h₂ l hl).1) fun total p₃ T₃ h₃ => ?_)
  have hsofar : ∀ l ∈ (c.launched id).lanes, Computed p (T l) p₃ (T₃ l) := fun l hl =>
    ((h₁ l hl).1.trans (h₂ l hl).1).trans (h₃ l hl).1
  refine .bind (.each hg hid (B := fun l v p₄ t₄ => Computed p₃ (T₃ l) p₄ t₄ ∧
    Knows p₄ t₄ v .u32 (UInt64.ofNat (countBelow live (c.index id l))))
    (fun l hl => wp_binary ((h₂ l hl).2.computed (h₃ l hl).1) ((hrank l hl).computed (hsofar l hl)) rfl
      fun v p₄ t₄ hc hk => ⟨hc, ?_⟩) fun rank p₄ T₄ h₄ => ?_)
  · have hadd : countBelow live (c.index id l) =
        countBelow live (id * c.group.wave.size) + survivorsIn c live id l := countBelow_add _ _ _
    have hle := countBelow_le live (c.index id l)
    have hlt := (Setting.mem_launched.mp hl).2
    have hlanes := c.group.numLanes_le
    have hmul : c.group.numWaves * c.group.wave.size ≤ 8 * 64 :=
      Nat.mul_le_mul (by omega) (by cases c.group.wave <;> decide)
    rwa [BinaryOp.eval_add_ofNat (by omega), ← hadd] at hk
  · exact .pure fun l hl => ⟨(hsofar l hl).trans (h₄ l hl).1, (h₃ l hl).2.computed (h₄ l hl).1, (h₄ l hl).2⟩

/-! ## From barrier to barrier -/

/-- The first lane of each wave owns the byte for the count of the wave. -/
def countOwner (group : Workgroup) (region : Region) : Ownership := fun a =>
  if region.offset ≤ a ∧ a < region.offset + group.numWaves then
    some ((a - region.offset) * group.wave.size)
  else none

variable {region : Region} {group : Workgroup}

theorem countOwner_eq (hid : id < group.numWaves) :
    countOwner group region (region.offset + id) = some (id * group.wave.size) := by
  simp [countOwner, hid]

/-- The region has a byte for every wave, and is read in one go. -/
structure HoldsCounts (group : Workgroup) (region : Region) : Prop where
  waves : group.numWaves ≤ region.size
  size : region.size = 4 ∨ region.size = 8
  inside : region.offset + region.size ≤ group.program.sharedSize
  small : group.program.sharedSize < 2 ^ 32

theorem HoldsCounts.fits (h : HoldsCounts group region) : group.Fits := by
  have hwaves := h.waves
  have hsize := h.size
  have hsmall := h.small
  refine ⟨by omega, ?_⟩
  have hmax : (8 : Nat) ≤ SharedMemory.maxReaders := by decide
  omega

/-- One wave needs no memory; more waves have a region for their counts. -/
def CountsFit (group : Workgroup) : Option Region → Prop
  | none => group.numWaves ≤ 1
  | some region => HoldsCounts group region

/-- While the waves count, the first lane of each wave owns the byte for its count. -/
def countingOwner (group : Workgroup) (scratch : Option Region) (own : Ownership) : Ownership :=
  match scratch with
  | none => own
  | some region => countOwner group region

section

variable {β : Type} {goal : (Nat → Thread) → Prop} {own : Ownership} {pre : Promise} {source : Program}
  {k : Compaction → Emit β}

/-- A byte that no wave writes its count to. -/
def Outside (scratch : Option Region) (a : Nat) : Prop :=
  ∀ region, scratch = some region → a < region.offset ∨ region.offset + region.size ≤ a

/-- What a lane knows behind a compaction. The bytes outside the region of the counts are as before. -/
def Counted (group : Workgroup) (scratch : Option Region) (live : Nat → Bool) (pre : Promise)
    (p : Program) (result : Compaction) (p' : Program) (i : Nat) (u : Thread) : Prop :=
  ∃ t view, pre i t ∧ (∀ a, Outside scratch a → view a = t.view a) ∧ Computed p (t.see view) p' u ∧
    Knows p' u result.total .u32 (UInt64.ofNat (countBelow live group.launch.numLanes)) ∧
    Knows p' u result.rank .u32 (UInt64.ofNat (countBelow live i))

/-- A condition that all lanes of a wave know. -/
theorem asks_of_knows (hid : id < c.group.numWaves)
    (h : ∀ l ∈ (c.launched id).lanes, Knows p (T l) survive .bool (live (c.index id l)).toUInt64) :
    p.typeOf survive = .ok .bool ∧ ∀ l ∈ (c.launched id).lanes,
      ∃ a, (T l).lane.read survive = .ok a ∧ (live (c.index id l) = true ↔ a ≠ 0) := by
  refine ⟨(h 0 (Workgroup.zero_mem_launched c hid)).typeOf, fun l hl => ⟨_, (h l hl).read, ?_⟩⟩
  rw [Ne, toUInt64_eq_zero_iff, Bool.not_eq_false]

theorem compactLanes_none_scripts (hsource : source.Within p) (hg : group.Fits)
    (hone : group.numWaves ≤ 1) (hbeyond : ∀ i, group.launch.numLanes ≤ i → live i = false)
    (hpre : ∀ i < group.launch.numLanes, ∀ t, pre i t → Knows p t survive .bool (live i).toUInt64)
    (hrest : ∀ result p', p.Within p' → source.Within p' →
      Scripts group goal own (Counted group none live pre p result p') (k result) p') :
    Scripts group goal own pre (compactLanes wave survive none >>= k) p := by
  rw [compactLanes_none]
  refine .bind hsource (.none group pre p) (.straight fun _ => trivial)
    (M := fun result p' => Counted group none live pre p result p')
    (fun id hid T hT => ?_) fun result p' hp hsource' => hrest result p' (Emit.grows _ hp).toWithin hsource'
  obtain ⟨ht, hlive⟩ := asks_of_knows hid fun l hl =>
    hpre _ (Setting.mem_launched.mp hl).2 _ (hT l hl)
  refine (countInWave_brings hg hid hbeyond ht hlive).mono fun result p' T' h l hl => ?_
  obtain ⟨hcomputed, htotal, hrank⟩ := h l hl
  obtain rfl : id = 0 := by omega
  have hindex (n : Nat) : Setting.index ⟨group, own, False⟩ 0 n = n := by
    simp [Setting.index, Wave.laneId]
  have hin (n : Nat) : survivorsIn ⟨group, own, False⟩ live 0 n = countBelow live n :=
    countBelow_congr fun l _ => by rw [hindex]
  have hlanes : group.launch.numLanes ≤ group.wave.size :=
    Nat.le_trans group.numLanes_le (Nat.le_trans (Nat.mul_le_mul_right _ hone) (Nat.le_of_eq (Nat.one_mul _)))
  rw [hin, countBelow_eq_of_le hlanes hbeyond] at htotal
  rw [hin] at hrank
  exact ⟨T l, (T l).view, hT l hl, fun _ _ => rfl, hcomputed, htotal, by rwa [hindex]⟩

/-- The bytes that lane `i` sees once its wave has published its count. -/
def withCount (group : Workgroup) (live : Nat → Bool) (scratch : Region) (view : Nat → UInt8)
    (i : Nat) : Nat → UInt8 :=
  if i % group.wave.size = 0 then
    overwrite view (scratch.offset + i / group.wave.size) 1 (UInt64.ofNat
      (survivorsIn ⟨group, fun _ => none, False⟩ live (i / group.wave.size) group.wave.size))
  else view

variable {view : Nat → UInt8} {p₂ : Program}

/-- Publishing changes only bytes of the scratch region. -/
theorem withCount_outside (hholds : HoldsCounts group scratch)
    {i a : Nat} (hi : i < group.launch.numLanes) (ha : Outside (some scratch) a) :
    withCount group live scratch view i a = view a := by
  have hwave := Workgroup.wave_lt hi
  have hwaves := hholds.waves
  have ha := ha scratch rfl
  unfold withCount overwrite
  generalize i / group.wave.size = wave at hwave ⊢
  split
  · exact if_neg (by omega)
  · rfl

/-- The first half of a compaction of several waves. -/
theorem publishCounts_keeps (hholds : HoldsCounts group scratch)
    (hbeyond : ∀ i, group.launch.numLanes ≤ i → live i = false)
    (hpre : ∀ i < group.launch.numLanes, ∀ t, pre i t → Knows p t survive .bool (live i).toUInt64)
    (hid : id < group.numWaves)
    (hT : Setting.Keeps ⟨group, countOwner group scratch, False⟩ id pre T) :
    Brings ⟨group, countOwner group scratch, False⟩ id (publishCounts wave survive scratch) p
      (fun counts p₁ => Setting.Keeps ⟨group, countOwner group scratch, False⟩ id fun i u =>
        ∃ t, pre i t ∧ Computed p (t.see (withCount group live scratch t.view i)) p₁ u ∧
          Knows p₁ u counts.rank .u32 (UInt64.ofNat (survivorsIn ⟨group, fun _ => none, False⟩ live
            (i / group.wave.size) (i % group.wave.size)))) T := by
  have hwaves := hholds.waves
  obtain ⟨ht, hlive⟩ := asks_of_knows hid fun l hl =>
    hpre _ (Setting.mem_launched.mp hl).2 _ (hT l hl)
  refine (publishCounts_brings hholds.fits hid hbeyond ht hlive ⟨by omega, hholds.inside, hholds.small⟩
    (countOwner_eq hid)).mono fun counts p₁ T₁ h₁ l hl => ?_
  obtain ⟨hcomputed, hrank⟩ := h₁ l hl
  have hlt := (Setting.mem_launched.mp hl).1
  have hdiv := @Setting.index_div ⟨group, countOwner group scratch, False⟩ id l hlt
  have hmod := @Setting.index_mod ⟨group, countOwner group scratch, False⟩ id l hlt
  refine ⟨T l, hT l hl, ?_, by rwa [hdiv, hmod]⟩
  unfold withCount
  rw [hdiv, hmod]
  by_cases hfirst : l = 0
  · rw [if_pos hfirst] at hcomputed ⊢
    exact hcomputed
  · rw [if_neg hfirst] at hcomputed ⊢
    exact hcomputed

/-- What a lane knows when all counts have been published. -/
def Informed (group : Workgroup) (scratch : Region) (live : Nat → Bool) (pre : Promise) (p : Program)
    (rank : Value) (p' : Program) (i : Nat) (u : Thread) : Prop :=
  ∃ t view, pre i t ∧ (∀ a, Outside (some scratch) a → view a = t.view a) ∧
    (∀ j < group.numWaves, (view (scratch.offset + j)).toNat =
      survivorsIn ⟨group, fun _ => none, False⟩ live j group.wave.size) ∧
    Computed p (t.see view) p' u ∧ Knows p' u rank .u32 (UInt64.ofNat
      (survivorsIn ⟨group, fun _ => none, False⟩ live (i / group.wave.size) (i % group.wave.size)))

/-- At the barrier all lanes learn all counts. -/
theorem informed_of_meet (hholds : HoldsCounts group scratch) {p₁ : Program} {rank : Value} (h₂ : p₁.Within p₂)
    (hT : ∀ i < group.launch.numLanes, ∃ t, pre i t ∧
      Computed p (t.see (withCount group live scratch t.view i)) p₁ (T i) ∧
      Knows p₁ (T i) rank .u32 (UInt64.ofNat (survivorsIn ⟨group, fun _ => none, False⟩ live
        (i / group.wave.size) (i % group.wave.size))))
    (hagree : ∀ i < group.launch.numLanes, ∀ a, countOwner group scratch a = none ∨
      countOwner group scratch a = some i → (T i).view a = view a) :
    ∀ i < group.launch.numLanes, Informed group scratch live pre p rank p₂ i ((T i).see view) := by
  have hsize := group.wave_size_pos
  have hwaves := hholds.waves
  intro i hi
  obtain ⟨t, ht, hcomputed, hrank⟩ := hT i hi
  refine ⟨t, view, ht, fun a ha => ?_, fun j hj => ?_,
    (hcomputed.withView view).trans (.of_within h₂), hrank.later (.of_registers h₂ rfl)⟩
  · have hnone : countOwner group scratch a = none := if_neg (by have := ha scratch rfl; omega)
    rw [← hagree i hi a (.inl hnone), hcomputed.view]
    exact withCount_outside hholds hi ha
  · have hmem := Workgroup.zero_mem_launched ⟨group, fun _ => none, False⟩ hj
    have hlt : j * group.wave.size < group.launch.numLanes := (Setting.mem_launched.mp hmem).2
    obtain ⟨t', -, hcomputed', -⟩ := hT _ hlt
    rw [← hagree _ hlt _ (.inr (countOwner_eq hj)), hcomputed'.view]
    change (withCount group live scratch t'.view (j * group.wave.size) (scratch.offset + j)).toNat = _
    unfold withCount
    rw [Nat.mul_mod_left, Nat.mul_div_cancel _ hsize, if_pos rfl]
    simp only [overwrite, Nat.le_refl, Nat.lt_succ_self, and_self, ↓reduceIte, Nat.sub_self]
    exact Bits.toNat_byte_ofNat (survivorsIn_lt _ _ _)

/-- The second half of a compaction of several waves. -/
theorem gatherCounts_keeps (hholds : HoldsCounts group scratch)
    (hbeyond : ∀ i, group.launch.numLanes ≤ i → live i = false)
    (hfree : ∀ j < scratch.size, own (scratch.offset + j) = none) {waveRank : Value} (hid : id < group.numWaves)
    (hT : Setting.Keeps ⟨group, own, False⟩ id (Informed group scratch live pre p waveRank p₂) T) :
    Brings ⟨group, own, False⟩ id (gatherCounts wave waveRank scratch) p₂
      (fun result p₃ => Setting.Keeps ⟨group, own, False⟩ id
        (Counted group (some scratch) live pre p result p₃)) T := by
  have hwaves := hholds.waves
  have hwhole : scratch.Holds (Setting.program ⟨group, own, False⟩) 0 scratch.size :=
    ⟨by omega, hholds.inside, hholds.small⟩
  refine (gatherCounts_brings hholds.fits hid hbeyond hholds.size hwaves hwhole hfree
    (fun l hl j hj => ?_) fun l hl => ?_).mono fun result p₃ T₃ h₃ l hl => ?_
  · obtain ⟨t, view, -, -, hbytes, hcomputed, -⟩ := hT l hl
    rw [hcomputed.view]
    exact hbytes j hj
  · obtain ⟨t, view, -, -, -, -, hrank⟩ := hT l hl
    have hlt := (Setting.mem_launched.mp hl).1
    rwa [@Setting.index_div ⟨group, own, False⟩ id l hlt, @Setting.index_mod ⟨group, own, False⟩ id l hlt] at hrank
  · obtain ⟨t, view, ht, houtside, -, hcomputed, -⟩ := hT l hl
    obtain ⟨hmore, htotal, hrank⟩ := h₃ l hl
    exact ⟨t, view, ht, houtside, hcomputed.trans hmore, htotal, hrank⟩

theorem compactLanes_scripts {scratch : Option Region} (hsource : source.Within p) (hg : group.Fits)
    (hcounts : CountsFit group scratch) (hbeyond : ∀ i, group.launch.numLanes ≤ i → live i = false)
    (hpre : ∀ i < group.launch.numLanes, ∀ t, pre i t → Knows p t survive .bool (live i).toUInt64)
    (hfree : ∀ region, scratch = some region → ∀ j < region.size, own (region.offset + j) = none)
    (hrest : ∀ result p', p.Within p' → source.Within p' →
      Scripts group goal own (Counted group scratch live pre p result p') (k result) p') :
    Scripts group goal (countingOwner group scratch own) pre (compactLanes wave survive scratch >>= k) p := by
  cases scratch with
  | none => exact compactLanes_none_scripts hsource hg hcounts hbeyond hpre hrest
  | some scratch =>
    rw [compactLanes_some, bind_assoc]
    refine .bind hsource (.none group pre p) (clears_publishCounts wave survive scratch _)
      (fun id hid T hT => publishCounts_keeps hcounts hbeyond hpre hid hT) fun counts p₁ hp₁ hsource₁ => ?_
    rw [bind_assoc]
    refine .barrier own (Informed group scratch live pre p counts.rank)
      (fun T view p₂ h₂ hT hagree => informed_of_meet hcounts h₂ hT hagree) fun p₂ h₂ => ?_
    refine .bind (hsource₁.trans h₂) (.none group _ p₂) (.straight fun _ => trivial)
      (fun id hid T hT => gatherCounts_keeps hcounts hbeyond (hfree scratch rfl) hid hT)
      fun result p₃ hp₃ hsource₃ => hrest result p₃ ?_ hsource₃
    exact ((Emit.grows _ hp₁).toWithin.trans h₂).trans (Emit.grows _ hp₃).toWithin

end

end Lowering

end PrimitiveShader
