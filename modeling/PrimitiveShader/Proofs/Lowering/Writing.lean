import PrimitiveShader.Lowering.Compaction
import PrimitiveShader.Lowering.Pack
import PrimitiveShader.Lowering.Space
import PrimitiveShader.Proofs.Emission.Writing

/-!
# The parts of lowered programs are well-formed

Access to regions, export words, strips, the request for space and the compaction: each of them emits
well-formed code and does not fault.
-/

namespace PrimitiveShader

open Emit

variable {inLoop : Bool} {s : Scope}

namespace Region

variable {region : Region} {index value : Value} {instr : Instr} {stride field : Nat} {type : ScalarType}

/-- The region has an element of `stride` bytes with a field of `bytes` bytes. -/
structure Fits (region : Region) (stride field bytes : Nat) : Prop where
  field : field + bytes ≤ stride
  element : stride ≤ region.size
  small : region.offset + region.size < 2 ^ 32

/-- Constant element numbers are within the region. -/
def Admits (region : Region) (instr : Instr) (stride : Nat) : Prop :=
  ∀ k, instr.constant? = some k → k.toUInt32.toNat * stride + stride ≤ region.size

variable {bytes : Nat} {Q : Value → Scope → Prop}

theorem writes_elementAddress (hsmall : region.size < 2 ^ 32)
    (hi : s.Has index .u32) (hinstr : s.program.instr index = .ok instr) (hadmits : region.Admits instr stride)
    (hQ : s.Gives .u32 Q) : Writes inLoop (region.elementAddress index stride) s Q := by
  refine .bind (.constant? hinstr ?_)
  cases hk : instr.constant? with
  | some k =>
    have hk := hadmits k hk
    have helement : region.element k.toUInt32.toNat stride = .ok (k.toUInt32.toNat * stride) := by
      simp only [element, fits32_of_lt (show k.toUInt32.toNat * stride < 2 ^ 32 by omega),
        fits32_of_lt (show k.toUInt32.toNat * stride + stride < 2 ^ 32 by omega), bind, Except.bind, if_pos hk]
      rfl
    exact .bind (.lift helement (.imm fun v s' hl hv _ => hQ v s' hl hv))
  | none =>
    dsimp only
    split
    · exact .pure (hQ index s (.refl s) hi)
    · exact .binaryImm hi rfl fun v s' hl hv _ => hQ v s' hl hv

theorem Fits.checkField (h : region.Fits stride field bytes) : Region.checkField field bytes stride = .ok () := by
  have := h.small
  have := h.element
  have := h.field
  simp only [Region.checkField, fits32_of_lt (show field + bytes < 2 ^ 32 by omega), bind, Except.bind, if_pos h.field]
  rfl

theorem Fits.fieldBase (h : region.Fits stride field bytes) :
    region.fieldBase field = .ok (UInt32.ofNat (region.offset + field)) := by
  have := h.small
  have := h.element
  have := h.field
  simp only [Region.fieldBase, fits32_of_lt (show region.offset + field < 2 ^ 32 by omega)]
  rfl

theorem Fits.size_lt (h : region.Fits stride field bytes) : region.size < 2 ^ 32 := by
  have := h.small
  omega

theorem writes_load (hfits : region.Fits stride field type.bytes)
    (hint : type.isInt) (hi : s.Has index .u32) (hinstr : s.program.instr index = .ok instr)
    (hadmits : region.Admits instr stride) (hQ : s.Gives type Q) :
    Writes inLoop (region.load index stride field type) s Q := by
  refine .bind (.lift hfits.checkField (.bind ?_))
  refine writes_elementAddress hfits.size_lt hi hinstr hadmits fun addr s₁ h₁ haddr => ?_
  refine .bind (.lift hfits.fieldBase ?_)
  exact .loadShared haddr hint fun v s₂ h₂ hv _ => hQ v s₂ (h₁.trans h₂) hv

theorem writes_store {Q : Unit → Scope → Prop} (hfits : region.Fits stride field type.bytes)
    (hint : type.isInt) (hv : s.Has value type) (hi : s.Has index .u32)
    (hinstr : s.program.instr index = .ok instr) (hadmits : region.Admits instr stride)
    (hQ : s.Then Q) : Writes inLoop (region.store value index stride field) s Q := by
  refine .bind (.typeOf hv (.bind (.lift hfits.checkField (.bind ?_))))
  refine writes_elementAddress hfits.size_lt hi hinstr hadmits fun addr s₁ h₁ haddr => ?_
  refine .bind (.lift hfits.fieldBase ?_)
  exact .storeShared (hv.later h₁) hint haddr fun s₂ h₂ => hQ s₂ (h₁.trans h₂)

end Region

namespace Lowering

/-! ## Export words -/

section

variable {Q : Value → Scope → Prop} {word flag : Value} {τ : ScalarType}

theorem writes_joinFlag {place : Nat} (hw : s.Has word .u32) (hf : s.Has flag τ) (hτ : τ ≠ .void)
    (hQ : s.Gives .u32 Q) : Writes inLoop (joinFlag word flag place) s Q := by
  refine .bind (.convert hf hτ (by decide) fun flag s₁ h₁ hflag _ => ?_)
  refine .bind (.shlImm hflag rfl fun shifted s₂ h₂ hshifted => ?_)
  exact .binary ((hw.later h₁).later h₂) hshifted rfl fun v s₃ h₃ hv _ =>
    hQ v s₃ (h₁.trans (h₂.trans h₃)) hv

theorem writes_joinEdgeFlag {i : Nat} {edgeFlags : List Value} (hw : s.Has word .u32)
    (hf : ∀ flag ∈ edgeFlags, ∃ τ : ScalarType, τ ≠ .void ∧ s.Has flag τ)
    (hQ : s.Gives .u32 Q) : Writes inLoop (joinEdgeFlag word i edgeFlags) s Q := by
  unfold joinEdgeFlag
  cases h : edgeFlags[i]? with
  | some flag =>
    obtain ⟨τ, hτ, hflag⟩ := hf flag (List.mem_of_getElem? h)
    exact writes_joinFlag hw hflag hτ hQ
  | none => exact .pure (hQ word s (.refl s) hw)

theorem writes_joinVertices {edgeFlags : List Value} : ∀ {indices : List Value} {i : Nat}
    {word : Value} {s : Scope}, s.Has word .u32 → (∀ index ∈ indices, s.Has index .u32) →
    (∀ flag ∈ edgeFlags, ∃ τ : ScalarType, τ ≠ .void ∧ s.Has flag τ) → (s.Gives .u32 Q) →
    Writes inLoop (joinVertices edgeFlags i indices word) s Q
  | [], _, word, s, hw, _, _, hQ => Writes.pure (hQ word s (.refl s) hw)
  | index :: rest, i, word, s, hw, hi, hf, hQ => by
    refine .bind (.shlImm (hi index List.mem_cons_self) rfl fun shifted s₁ h₁ hs => ?_)
    refine .bind (.binary (hw.later h₁) hs rfl fun word s₂ h₂ hw _ => ?_)
    have h₁₂ := h₁.trans h₂
    have hf' {s' : Scope} (h : s.Later [] s') (flag : Value) (hmem : flag ∈ edgeFlags) :
        ∃ τ : ScalarType, τ ≠ .void ∧ s'.Has flag τ :=
      (hf flag hmem).imp fun _ => .imp_right (·.later h)
    refine .bind (writes_joinEdgeFlag hw (hf' h₁₂) fun word s₃ h₃ hw => ?_)
    have h₁₃ := h₁₂.trans h₃
    exact writes_joinVertices hw (fun v hv => (hi v (List.mem_cons_of_mem _ hv)).later h₁₃) (hf' h₁₃)
      fun v s₄ h₄ hv => hQ v s₄ (h₁₃.trans h₄) hv

theorem writes_packWord {indices : List Value} {edgeFlags : Option (List Value)}
    {isNull : Option Value} (hlen : 1 ≤ indices.length ∧ indices.length ≤ 3) (hi : ∀ index ∈ indices, s.Has index .u32)
    (hf : ∀ flag ∈ edgeFlags.getD [], ∃ τ : ScalarType, τ ≠ .void ∧ s.Has flag τ)
    (hn : ∀ flag, isNull = some flag → s.Has flag .bool)
    (hQ : s.Gives .u32 Q) : Writes inLoop (packWord indices edgeFlags isNull) s Q := by
  obtain ⟨hpos, hle⟩ := hlen
  cases indices with
  | nil => exact absurd hpos (by simp)
  | cons first rest =>
    unfold packWord
    simp only [if_pos hle]
    refine .bind (writes_joinEdgeFlag (hi first List.mem_cons_self) hf fun word s₁ h₁ hw => ?_)
    refine .bind (writes_joinVertices hw (fun v hv => (hi v (List.mem_cons_of_mem _ hv)).later h₁)
      (fun flag hmem => (hf flag hmem).imp fun _ => .imp_right (·.later h₁)) fun word s₂ h₂ hw => ?_)
    have h₁₂ := h₁.trans h₂
    cases isNull with
    | some flag =>
      exact writes_joinFlag hw ((hn flag rfl).later h₁₂) (by decide) fun v s₃ h₃ hv =>
        hQ v s₃ (h₁₂.trans h₃) hv
    | none => exact .pure (hQ word s₂ h₁₂ hw)

end

/-! ## Strips -/

/-- There is one index for each vertex of a primitive. -/
theorem writes_stripIndices {topology : Topology} {provoking : ProvokingVertex} {rank flags : Value}
    {Q : List Value → Scope → Prop} (hr : s.Has rank .u32) (hf : s.Has flags .u8)
    (hQ : ∀ vs s', s.Later [] s' → 1 ≤ vs.length ∧ vs.length ≤ 3 → (∀ v ∈ vs, s'.Has v .u32) → Q vs s') :
    Writes inLoop (stripIndices topology rank flags provoking) s Q := by
  cases topology with
  | points => exact .pure (hQ [rank] s (.refl s) (by simp) (by simpa using hr))
  | lines =>
    refine .bind (.binaryImm hr rfl fun back s₁ h₁ hb _ => ?_)
    exact .pure (hQ [back, rank] s₁ h₁ (by simp) (by simpa using ⟨hb, hr.later h₁⟩))
  | triangles =>
    refine .bind (.binaryImm hr rfl fun back₂ s₁ h₁ hb₂ _ => ?_)
    refine .bind (.binaryImm (hr.later h₁) rfl fun back₁ s₂ h₂ hb₁ _ => ?_)
    have h₁₂ := h₁.trans h₂
    refine .bind (.convert (hf.later h₁₂) (by decide) (by decide) fun wide s₃ h₃ hwide _ => ?_)
    refine .bind (.extract hwide rfl (by decide) fun odd s₄ h₄ hodd _ => ?_)
    have h₂₄ := h₃.trans h₄
    have h₁₄ := h₁₂.trans h₂₄
    cases provoking with
    | first =>
      refine .bind (.binary (hb₁.later h₂₄) hodd rfl fun up s₅ h₅ hup _ => ?_)
      refine .bind (.binary (hr.later (h₁₄.trans h₅)) (hodd.later h₅) rfl fun down s₆ h₆ hdown _ => ?_)
      refine .pure (hQ [back₂, up, down] s₆ (h₁₄.trans (h₅.trans h₆)) (by simp) ?_)
      simpa using ⟨hb₂.later (h₂.trans (h₂₄.trans (h₅.trans h₆))), hup.later h₆, hdown⟩
    | last =>
      refine .bind (.binary (hb₂.later (h₂.trans h₂₄)) hodd rfl fun up s₅ h₅ hup _ => ?_)
      refine .bind (.binary (hb₁.later (h₂₄.trans h₅)) (hodd.later h₅) rfl fun down s₆ h₆ hdown _ => ?_)
      refine .pure (hQ [up, down, rank] s₆ (h₁₄.trans (h₅.trans h₆)) (by simp) ?_)
      simpa using ⟨hup.later h₆, hdown, hr.later (h₁₄.trans (h₅.trans h₆))⟩

/-! ## Across lanes -/

section

variable {Q : Value → Scope → Prop} {a : Value} {type : ScalarType}

variable (wave : WaveWidth)
include wave

theorem ballotType_cases : wave.ballotType = .u32 ∨ wave.ballotType = .u64 := by
  cases wave <;> simp [WaveWidth.ballotType]

theorem writes_ballot (ha : s.Has a .bool) (hQ : s.Gives wave.ballotType Q) : Writes inLoop (wave.ballot a) s Q := by
  refine .crossLane ?_ ?_ fun v s' hl hv _ => hQ v s' hl hv
  · rcases ballotType_cases wave with h | h <;> simp [CrossLaneOp.resultType?, ha.valueType?, h, typeWhen]
  · simpa [CrossLaneOp.operands] using ⟨_, ha⟩

theorem writes_popCount (ha : s.Has a wave.ballotType) (hQ : s.Gives .u32 Q) : Writes inLoop (wave.popCount a) s Q := by
  have hop : UnaryOp.bitCount.resultType? wave.ballotType = some .u32 := by
    rcases ballotType_cases wave with h | h <;> rw [h] <;> rfl
  exact .unary ha hop fun v s' hl hv _ => hQ v s' hl hv

theorem writes_exclusiveRank (ha : s.Has a wave.ballotType) (hQ : ∀ v s', s.Later [] s' → s'.Has v .u32 →
      s'.program.instr v = .ok (.intrinsic (.crossLane (.maskedBitCount a))) → Q v s') :
    Writes inLoop (wave.exclusiveRank a) s Q := by
  refine .crossLane ?_ ?_ hQ
  · rcases ballotType_cases wave with h | h <;> simp [CrossLaneOp.resultType?, ha.valueType?, h, typeWhen]
  · simpa [CrossLaneOp.operands] using ⟨_, ha⟩

theorem writes_readFirstLane (ha : s.Has a .u32) (hQ : s.Gives .u32 Q) : Writes inLoop (wave.readFirstLane a) s Q := by
  refine .crossLane ?_ ?_ fun v s' hl hv _ => hQ v s' hl hv
  · simp [CrossLaneOp.resultType?, ha.valueType?, typeWhen]
  · simpa [CrossLaneOp.operands] using ⟨_, ha⟩

theorem writes_reduceAdd (ha : s.Has a .u32) (hQ : s.Gives .u32 Q) : Writes inLoop (wave.reduceAdd a) s Q := by
  refine .crossLane ?_ ?_ fun v s' hl hv _ => hQ v s' hl hv
  · simp [CrossLaneOp.resultType?, ha.valueType?, typeWhen, ScalarType.isInt]
  · simpa [CrossLaneOp.operands] using ⟨_, ha⟩

theorem writes_elect (hQ : s.Gives .bool Q) : Writes inLoop wave.elect s Q :=
  Writes.crossLane rfl nofun fun v s' hl hv _ => hQ v s' hl hv

end

/-! ## Space -/

theorem writes_requestSpace {wave : WaveWidth} {vertices primitives : Value} {Q : Unit → Scope → Prop}
    (hv : s.Has vertices .u32) (hp : s.Has primitives .u32) (hQ : s.Then Q) :
    Writes inLoop (requestSpace wave vertices primitives) s Q := by
  refine .bind (.input fun waveId s₁ h₁ hwave _ => ?_)
  refine .bind (.binaryImm hwave rfl fun isFirst s₂ h₂ hfirst _ => ?_)
  have h₁₂ := h₁.trans h₂
  refine .ifThen hfirst (.bind (writes_elect wave fun elected s₃ h₃ helected => ?_))
    fun s' h => hQ s' (h₁₂.trans h)
  have hv₃ := (hv.later h₁₂).nest.later h₃
  have hp₃ := (hp.later h₁₂).nest.later h₃
  refine .ifThen helected (.effect ?_ ?_ fun s' h => h) fun s' h => h₃.trans h
  · simp [Intrinsic.resultType?, pairType?, hv₃.nest.valueType?, hp₃.nest.valueType?, typeWhen]
  · simpa [Intrinsic.operands] using ⟨⟨_, hv₃.nest⟩, _, hp₃.nest⟩

/-! ## Compaction -/

theorem writes_sumFirstBytes {packed waves : Value} {Q : Value → Scope → Prop}
    (hp : s.Has packed .u64) (hw : s.Has waves .u32) (hQ : s.Gives .u32 Q) :
    Writes inLoop (sumFirstBytes packed waves) s Q := by
  refine .bind (.shlImm hw rfl fun bits s₁ h₁ hbits => ?_)
  refine .bind (.unary hbits rfl fun mask s₂ h₂ hmask _ => ?_)
  have h₁₂ := h₁.trans h₂
  refine .bind (.binary (hp.later h₁₂) hmask rfl fun masked s₃ h₃ hmasked _ => ?_)
  exact .unary hmasked rfl fun v s₄ h₄ hv _ => hQ v s₄ (h₁₂.trans (h₃.trans h₄)) hv

/-- The scratch memory of a compaction: one word. -/
structure Scratch (region : Region) : Prop where
  size : region.size = 4 ∨ region.size = 8
  small : region.offset + region.size < 2 ^ 32

/-- The total and the rank are 32-bit numbers, and the rank is not a constant. -/
theorem writes_compactLanes {wave : WaveWidth} {survive : Value} {scratch : Option Region}
    {Q : Compaction → Scope → Prop} (hsurvive : s.Has survive .bool)
    (hscratch : ∀ region, scratch = some region → Scratch region)
    (hQ : ∀ c s', s.Later [] s' → s'.Has c.total .u32 → s'.Has c.rank .u32 →
      (∃ instr, s'.program.instr c.rank = .ok instr ∧ instr.constant? = none) → Q c s') :
    Writes inLoop (compactLanes wave survive scratch) s Q := by
  refine .bind (writes_ballot wave hsurvive fun ballot s₁ h₁ hballot => ?_)
  refine .bind (writes_popCount wave hballot fun count s₂ h₂ hcount => ?_)
  refine .bind (writes_exclusiveRank wave (hballot.later h₂) fun rank s₃ h₃ hrank hi => ?_)
  have h₁₃' := h₁.trans (h₂.trans h₃)
  cases scratch with
  | none => exact .pure (hQ _ s₃ h₁₃' (hcount.later h₃) hrank ⟨_, hi, rfl⟩)
  | some region =>
    obtain ⟨hsize, hsmall⟩ := hscratch region rfl
    have hbyte : region.Fits 1 0 ScalarType.u8.bytes := ⟨by decide, by omega, hsmall⟩
    refine .bind (writes_elect wave fun elected s₄ h₄ helected => ?_)
    have hcount₄ := (hcount.later h₃).later h₄
    -- the count goes to the byte of the wave
    refine .bind (.ifThen helected (.bind ?_) fun s₅ h₅ => ?_)
    · refine .convert hcount₄.nest (by decide) (by decide) fun byte t₁ k₁ hbyte' _ => ?_
      refine .bind (.input fun waveId t₂ k₂ hwave hi => ?_)
      exact Region.writes_store hbyte rfl (hbyte'.later k₂) hwave hi nofun fun t₃ k₃ => k₁.trans (k₂.trans k₃)
    refine .bind (.effect rfl nofun fun s₆ h₆ => ?_)
    -- all counts are read as one word
    refine .bind (.imm fun zero s₇ h₇ hzero hi => ?_)
    have hword : ∀ type : ScalarType, type.bytes = region.size → region.Fits region.size 0 type.bytes :=
      fun type htype => ⟨by omega, Nat.le_refl _, hsmall⟩
    have hadmits : region.Admits (.const .u32 (UInt64.ofNat 0 &&& ScalarType.u32.mask)) region.size := by
      intro k hk
      cases hk
      simp
    have htype : (if region.size = 8 then ScalarType.u64 else .u32).bytes = region.size := by
      rcases hsize with h | h <;> simp [h, ScalarType.bytes]
    have hint : (if region.size = 8 then ScalarType.u64 else .u32).isInt := by
      split <;> rfl
    have hne : (if region.size = 8 then ScalarType.u64 else .u32) ≠ .void := by
      split <;> decide
    refine .bind (Region.writes_load (hword _ htype) hint hzero hi hadmits fun packed s₈ h₈ hpacked => ?_)
    refine .bind (.convert hpacked hne (by decide) fun packed s₉ h₉ hpacked _ => ?_)
    refine .bind (.input fun waveId s₁₀ h₁₀ hwave _ => ?_)
    refine .bind (.input fun numWaves s₁₁ h₁₁ hnum _ => ?_)
    refine .bind (writes_sumFirstBytes (hpacked.later (h₁₀.trans h₁₁)) (hwave.later h₁₁)
      fun before s₁₂ h₁₂ hbefore => ?_)
    refine .bind (writes_sumFirstBytes (hpacked.later (h₁₀.trans (h₁₁.trans h₁₂)))
      (hnum.later h₁₂) fun total s₁₃ h₁₃ htotal => ?_)
    refine .bind (writes_readFirstLane wave (hbefore.later h₁₃) fun before s₁₄ h₁₄ hbefore => ?_)
    refine .bind (writes_readFirstLane wave (htotal.later h₁₄) fun total s₁₅ h₁₅ htotal => ?_)
    have h₃₁₅ := h₄.trans (h₅.trans (h₆.trans (h₇.trans (h₈.trans (h₉.trans (h₁₀.trans (h₁₁.trans
      (h₁₂.trans (h₁₃.trans (h₁₄.trans h₁₅))))))))))
    refine .bind (.binary (hbefore.later h₁₅) (hrank.later h₃₁₅) rfl fun rank s₁₆ h₁₆ hrank hi => ?_)
    exact .pure (hQ _ s₁₆ (h₁₃'.trans (h₃₁₅.trans h₁₆)) (htotal.later h₁₆) hrank ⟨_, hi, rfl⟩)

end Lowering

end PrimitiveShader
