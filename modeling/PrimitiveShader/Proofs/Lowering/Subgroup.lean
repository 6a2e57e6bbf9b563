import PrimitiveShader.Proofs.Emission.Script

/-!
# Cross-lane code of whole waves

What the cross-lane operations give when all lanes of a wave take part. A property of the lanes is a
function `live` on their numbers in the workgroup; `countBelow live n` is the number of lanes below `n`
that have it.
-/

namespace PrimitiveShader

/-- The number of lanes below `n` with a property. -/
def countBelow (live : Nat → Bool) (n : Nat) : Nat := (List.range n).countP live

section

variable {live : Nat → Bool} {m n : Nat}

theorem countBelow_zero (live : Nat → Bool) : countBelow live 0 = 0 := rfl

theorem countBelow_succ (live : Nat → Bool) (n : Nat) :
    countBelow live (n + 1) = countBelow live n + (live n).toNat := by
  unfold countBelow
  rw [List.range_succ, List.countP_append]
  cases h : live n <;> simp [h]

theorem countBelow_le (live : Nat → Bool) (n : Nat) : countBelow live n ≤ n := by
  simpa [countBelow] using List.countP_le_length (p := live) (l := List.range n)

theorem countBelow_add (live : Nat → Bool) (m n : Nat) :
    countBelow live (m + n) = countBelow live m + countBelow (fun l => live (m + l)) n := by
  induction n with
  | zero => rfl
  | succ n ih => rw [← Nat.add_assoc, countBelow_succ, countBelow_succ, ih, Nat.add_assoc]

theorem countBelow_mono (live : Nat → Bool) (h : m ≤ n) : countBelow live m ≤ countBelow live n := by
  obtain ⟨k, rfl⟩ := Nat.le.dest h
  rw [countBelow_add]
  omega

theorem countBelow_congr {other : Nat → Bool} (h : ∀ i < n, live i = other i) :
    countBelow live n = countBelow other n :=
  List.countP_congr fun i hi => by rw [h i (List.mem_range.mp hi)]

/-- Beyond the last lane with the property nothing is counted. -/
theorem countBelow_eq_of_le (h : m ≤ n) (hlive : ∀ i, m ≤ i → live i = false) :
    countBelow live n = countBelow live m := by
  obtain ⟨k, rfl⟩ := Nat.le.dest h
  have hzero : countBelow (fun l => live (m + l)) k = 0 := by
    simp [countBelow, hlive]
  rw [countBelow_add, hzero, Nat.add_zero]

/-- A lane with the property is counted by all behind it. -/
theorem countBelow_lt (h : m < n) (hm : live m = true) : countBelow live m < countBelow live n := by
  have hle := countBelow_mono live (Nat.succ_le_of_lt h)
  rw [countBelow_succ, hm] at hle
  exact hle

/-- Every number below the count is the rank of one lane. -/
theorem exists_countBelow_eq {r : Nat} (h : r < countBelow live n) :
    ∃ i < n, live i = true ∧ countBelow live i = r := by
  induction n with
  | zero => simp [countBelow_zero] at h
  | succ n ih =>
    by_cases hr : r < countBelow live n
    · obtain ⟨i, hi, hlive, hrank⟩ := ih hr
      exact ⟨i, by omega, hlive, hrank⟩
    · rw [countBelow_succ] at h
      cases hn : live n with
      | false =>
        rw [hn] at h
        exact absurd h hr
      | true =>
        rw [hn] at h
        exact ⟨n, by omega, hn, by simp at h; omega⟩

/-- Different lanes with the property have different ranks. -/
theorem eq_of_countBelow_eq (hm : live m = true) (hn : live n = true)
    (h : countBelow live m = countBelow live n) : m = n := by
  rcases Nat.lt_trichotomy m n with hlt | heq | hgt
  · have := countBelow_lt hlt hm
    omega
  · exact heq
  · have := countBelow_lt hgt hn
    omega

end

variable {mask : LaneMask} {live : Nat → Bool}

/-- The bits of a set of lanes below a lane. -/
theorem LaneMask.count_and_lowOnes (h : ∀ l < 64, mask.contains l = live l) {n : Nat} (hn : n ≤ 64) :
    Bits.count (mask.bits &&& Bits.lowOnes n) = countBelow live n := by
  have htest : ∀ i < 64, Bits.test (mask.bits &&& Bits.lowOnes n) i = (live i && decide (i < n)) := by
    intro i hi
    rw [Bits.test_and _ _ hi, Bits.test_lowOnes _ hi, ← h i hi]
    rfl
  calc Bits.count (mask.bits &&& Bits.lowOnes n)
      = countBelow (fun i => live i && decide (i < n)) 64 := countBelow_congr htest
    _ = countBelow (fun i => live i && decide (i < n)) n :=
        countBelow_eq_of_le hn fun i hi => by simp [Nat.not_lt.mpr hi]
    _ = countBelow live n := countBelow_congr fun i hi => by simp [hi]

theorem LaneMask.count_bits (h : ∀ l < 64, mask.contains l = live l) : Bits.count mask.bits = countBelow live 64 :=
  countBelow_congr h

/-- The lowest lane of a wave is its first one. -/
theorem Setting.lowest_launched {c : Setting} {id : Nat} (hid : id < c.group.numWaves) :
    (c.launched id).lowest? = some 0 := by
  have hmem : 0 ∈ (c.launched id).lanes := by
    obtain ⟨l, hl, -⟩ := LaneMask.exists_lowest (Workgroup.launched_ne_empty c hid)
    have hindex : c.index id 0 ≤ c.index id l := Nat.add_le_add_left (Nat.zero_le l) _
    have := Setting.mem_launched.mp hl
    exact Setting.mem_launched.mpr ⟨by omega, by omega⟩
  have hsorted := (c.launched id).lanes_pairwise_lt
  unfold LaneMask.lowest?
  cases hlanes : (c.launched id).lanes with
  | nil =>
    rw [hlanes] at hmem
    cases hmem
  | cons l rest =>
    rw [hlanes] at hmem hsorted
    rcases List.mem_cons.mp hmem with rfl | hrest
    · rfl
    · exact absurd ((List.pairwise_cons.mp hsorted).1 0 hrest) (Nat.not_lt_zero l)

namespace WaveWidth

open Emit

variable {wave : WaveWidth} {c : Setting} {id : Nat} {p : Program} {T : Nat → Thread}
  {Q : Value → Program → (Nat → Thread) → Prop} {value : Value} {K : Instr → Prop} [Instr.Staging K]

instance (value : Value) : Straight K (wave.ballot value) := Straight.crossLane _

instance (mask : Value) : Straight K (wave.popCount mask) := Straight.unary _ _

instance (mask : Value) : Straight K (wave.exclusiveRank mask) := Straight.crossLane _

instance (value : Value) : Straight K (wave.readFirstLane value) := Straight.crossLane _

instance : Straight K wave.elect := Straight.crossLane _

instance (value : Value) : Straight K (wave.reduceAdd value) := Straight.crossLane _

/-- The first lane of the wave is elected. -/
theorem elect_brings (hid : id < c.group.numWaves)
    (hQ : ∀ v p' T', (∀ l ∈ (c.launched id).lanes, Computed p (T l) p' (T' l) ∧
      Knows p' (T' l) v .bool (decide (l = 0)).toUInt64) → Q v p' T') : Brings c id wave.elect p Q T := by
  refine .crossLane hid (by simp [CrossLaneOp.operands]) rfl fun v p' T' h => hQ v p' T' ?_
  intro l hl
  obtain ⟨a, hgives, hcomputed, hknows⟩ := h l hl
  have ha : a = (decide (l = 0)).toUInt64 := by
    have : a = ((c.launched id).lowest? == some l).toUInt64 := hgives
    rw [this, Setting.lowest_launched hid]
    cases l <;> rfl
  exact ⟨hcomputed, ha ▸ hknows⟩

/-- A value that is the same on all lanes. -/
theorem readFirstLane_brings (hid : id < c.group.numWaves) {τ : ScalarType} {a : UInt64}
    (hτ : τ ≠ .void) (ha : ∀ l ∈ (c.launched id).lanes, Knows p (T l) value τ a)
    (hQ : ∀ v p' T', (∀ l ∈ (c.launched id).lanes, Computed p (T l) p' (T' l) ∧ Knows p' (T' l) v τ a) → Q v p' T') :
    Brings c id (wave.readFirstLane value) p Q T := by
  obtain ⟨k, hk, hlowest⟩ := LaneMask.exists_lowest (Workgroup.launched_ne_empty c hid)
  have hfirst := ha k hk
  refine .crossLane hid (τ := τ) ?_ ?_ fun v p' T' h => hQ v p' T' ?_
  · simpa [CrossLaneOp.operands] using Program.lt_of_typeOf hfirst.typeOf
  · simp [Program.resultType?, Instr.resultType?, Intrinsic.resultType?, CrossLaneOp.resultType?,
      Program.valueType?_eq_some_iff.mpr hfirst.typeOf, typeWhen, hτ]
  · intro l hl
    obtain ⟨b, ⟨j, hj, hread⟩, hcomputed, hknows⟩ := h l hl
    rw [hlowest] at hj
    cases hj
    rw [hfirst.read] at hread
    cases hread
    exact ⟨hcomputed, hknows⟩

/-- The ballot of a property, as far as the wave has lanes. -/
theorem ballot_brings (hid : id < c.group.numWaves) {live : Nat → Bool}
    (hbeyond : ∀ i, c.group.launch.numLanes ≤ i → live i = false) (ht : p.typeOf value = .ok .bool)
    (hlive : ∀ l ∈ (c.launched id).lanes, ∃ a, (T l).lane.read value = .ok a ∧ (live (c.index id l) = true ↔ a ≠ 0))
    (hQ : ∀ v p' T' (mask : LaneMask),
      (∀ l < 64, mask.contains l = (decide (l < c.group.wave.size) && live (c.index id l))) →
      (∀ l ∈ (c.launched id).lanes, Computed p (T l) p' (T' l) ∧
        Knows p' (T' l) v wave.ballotType mask.bits) → Q v p' T') : Brings c id (wave.ballot value) p Q T := by
  obtain ⟨k, hk, -⟩ := LaneMask.exists_lowest (Workgroup.launched_ne_empty c hid)
  refine .crossLane hid (τ := wave.ballotType) ?_ ?_ fun v p' T' h => ?_
  · simpa [CrossLaneOp.operands] using Program.lt_of_typeOf ht
  · cases wave <;> simp [Program.resultType?, Instr.resultType?, Intrinsic.resultType?,
      CrossLaneOp.resultType?, Program.valueType?_eq_some_iff.mpr ht, typeWhen, ballotType]
  · obtain ⟨a, ⟨mask, rfl, hmask⟩, -, -⟩ := h k hk
    have hcontains : ∀ l < 64, mask.contains l = (decide (l < c.group.wave.size) && live (c.index id l)) := by
      intro l hl
      have hmem : mask.contains l = true ↔ l ∈ mask.lanes := by simp [LaneMask.mem_lanes, hl]
      rw [Bool.eq_iff_iff, hmem, hmask l]
      simp only [Bool.and_eq_true, decide_eq_true_eq]
      constructor
      · rintro ⟨hlaunched, b, hread, hne⟩
        obtain ⟨a, ha, hiff⟩ := hlive l hlaunched
        rw [ha] at hread
        cases hread
        exact ⟨(Setting.mem_launched.mp hlaunched).1, hiff.mpr hne⟩
      · rintro ⟨hsize, hv⟩
        have hlaunched : l ∈ (c.launched id).lanes := by
          refine Setting.mem_launched.mpr ⟨hsize, ?_⟩
          rcases Nat.lt_or_ge (c.index id l) c.group.launch.numLanes with hlt | hge
          · exact hlt
          · rw [hbeyond _ hge] at hv
            cases hv
        obtain ⟨a, ha, hiff⟩ := hlive l hlaunched
        exact ⟨hlaunched, a, ha, hiff.mp hv⟩
    refine hQ v p' T' mask hcontains fun l hl => ?_
    obtain ⟨a, ⟨other, rfl, hother⟩, hcomputed, hknows⟩ := h l hl
    obtain rfl : other = mask := LaneMask.eq_of_mem_lanes fun j => (hother j).trans (hmask j).symm
    exact ⟨hcomputed, hknows⟩

/-- The number of bits of a mask below each lane. -/
theorem exclusiveRank_brings (hid : id < c.group.numWaves) {bits : UInt64}
    (hbits : ∀ l ∈ (c.launched id).lanes, Knows p (T l) value wave.ballotType bits)
    (hQ : ∀ v p' T', (∀ l ∈ (c.launched id).lanes, Computed p (T l) p' (T' l) ∧
      Knows p' (T' l) v .u32 (UInt64.ofNat (Bits.count (bits &&& Bits.lowOnes l)))) → Q v p' T') :
    Brings c id (wave.exclusiveRank value) p Q T := by
  obtain ⟨k, hk, -⟩ := LaneMask.exists_lowest (Workgroup.launched_ne_empty c hid)
  have hfirst := hbits k hk
  refine .crossLane hid (τ := .u32) ?_ ?_ fun v p' T' h => hQ v p' T' ?_
  · simpa [CrossLaneOp.operands] using Program.lt_of_typeOf hfirst.typeOf
  · cases wave <;> simp [Program.resultType?, Instr.resultType?, Intrinsic.resultType?,
      CrossLaneOp.resultType?, Program.valueType?_eq_some_iff.mpr hfirst.typeOf, typeWhen, ballotType]
  · intro l hl
    obtain ⟨a, ⟨b, hread, rfl⟩, hcomputed, hknows⟩ := h l hl
    rw [(hbits l hl).read] at hread
    cases hread
    exact ⟨hcomputed, hknows⟩

end WaveWidth

end PrimitiveShader
