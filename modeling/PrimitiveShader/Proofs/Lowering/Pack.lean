import PrimitiveShader.Lowering.Pack
import PrimitiveShader.Proofs.Emission.Instruction
import PrimitiveShader.Proofs.ExportWord

/-!
# Export words from emitted code

The code of `packWord` computes what `ExportWord.pack` says (`Lowering.wp_packWord`,
`ExportWord.pack_eq_ok`). Nothing keeps a lane from packing indices that are too wide, so the word is
described by `ExportWord.joined`, which does not ask.
-/

namespace PrimitiveShader

/-! ## Words of 32 bits in registers -/

theorem BinaryOp.eval_shl_toUInt64 (x : UInt32) {s : Nat} (h : s < 32) :
    shl.eval .u32 x.toUInt64 (UInt64.ofNat s) = (x <<< UInt32.ofNat s).toUInt64 := by
  have hs : (UInt64.ofNat s).toNat = s := toNat_ofNat_of_lt (by omega)
  have hs' : (UInt32.ofNat s).toNat = s := by
    rw [UInt32.toNat_ofNat']
    omega
  have hbits : (UInt64.ofNat s).toNat < ScalarType.u32.bits := by
    rw [hs]
    exact h
  simp only [eval, hbits, ↓reduceIte]
  rw [← UInt64.toNat_inj, ScalarType.toNat_and_mask, UInt64.toNat_shiftLeft, hs,
    UInt32.toNat_toUInt64, UInt32.toNat_toUInt64, UInt32.toNat_shiftLeft, hs', Nat.mod_eq_of_lt h,
    Nat.mod_eq_of_lt (show s < 64 by omega)]
  exact Nat.mod_mod_of_dvd _ ⟨2 ^ 32, rfl⟩

theorem BinaryOp.eval_or_toUInt64 (x y : UInt32) : or.eval .u32 x.toUInt64 y.toUInt64 = (x ||| y).toUInt64 :=
  (UInt32.toUInt64_or x y).symm

/-! ## Several values at once -/

/-- Values of one type with their contents on the thread. -/
def KnowsAll (p : Program) (t : Thread) (τ : ScalarType) : List Value → List UInt64 → Prop
  | [], [] => True
  | v :: vs, a :: as => Knows p t v τ a ∧ KnowsAll p t τ vs as
  | _, _ => False

namespace KnowsAll

variable {p p' : Program} {t t' : Thread} {τ : ScalarType} {vs : List Value} {as : List UInt64}

variable (h : KnowsAll p t τ vs as)
include h

theorem later (hl : Later p t p' t') : KnowsAll p' t' τ vs as := by
  induction vs generalizing as with
  | nil => cases as <;> exact h
  | cons v vs ih =>
    cases as with
    | nil => exact h
    | cons a as => exact ⟨h.1.later hl, ih h.2⟩

theorem length_eq : vs.length = as.length := by
  induction vs generalizing as with
  | nil =>
    cases as with
    | nil => rfl
    | cons a as => cases h
  | cons v vs ih =>
    cases as with
    | nil => cases h
    | cons a as => simp [ih h.2]

theorem getElem? {i : Nat} {v : Value} (hv : vs[i]? = some v) :
    ∃ a, as[i]? = some a ∧ Knows p t v τ a := by
  induction vs generalizing as i with
  | nil => simp at hv
  | cons w vs ih =>
    cases as with
    | nil => cases h
    | cons a as =>
      cases i with
      | zero =>
        cases hv
        exact ⟨a, rfl, h.1⟩
      | succ i => exact ih h.2 hv

end KnowsAll

/-- Flags of any types, with what they are on the thread. -/
structure KnowsFlags (p : Program) (t : Thread) (flags : List Value) (bools : List Bool) : Prop where
  length_eq : flags.length = bools.length
  knows : ∀ {i : Nat} {flag : Value} {b : Bool}, flags[i]? = some flag → bools[i]? = some b →
    ∃ τ : ScalarType, τ ≠ .void ∧ Knows p t flag τ b.toUInt64

namespace KnowsFlags

variable {p p' : Program} {t t' : Thread} {flags : List Value} {bools : List Bool}

theorem nil (p : Program) (t : Thread) : KnowsFlags p t [] [] := ⟨rfl, nofun⟩

theorem later (h : KnowsFlags p t flags bools) (hl : Later p t p' t') : KnowsFlags p' t' flags bools where
  length_eq := h.length_eq
  knows hflag hb := (h.knows hflag hb).imp fun _ => .imp_right (·.later hl)

theorem of_knowsAll {τ : ScalarType} (hτ : τ ≠ .void) (h : KnowsAll p t τ flags (bools.map (·.toUInt64))) :
    KnowsFlags p t flags bools where
  length_eq := by simpa using h.length_eq
  knows hflag hb := by
    obtain ⟨a, ha, hknows⟩ := h.getElem? hflag
    rw [List.getElem?_map, hb] at ha
    cases ha
    exact ⟨τ, hτ, hknows⟩

end KnowsFlags

namespace Emit

variable {c : Setting} {id : LaneId} {p : Program} {t : Thread} {L : Thread → Prop}

/-- A list of values, computed one after the other. -/
theorem wp_mapM {γ : Type} {xs : List γ} {f : γ → Emit Value} {τ : ScalarType}
    {a : γ → UInt64} {Q : List Value → Program → Thread → Prop}
    (hf : ∀ x ∈ xs, ∀ p₁ t₁ (R : Value → Program → Thread → Prop), Computed p t p₁ t₁ →
      (∀ v p' t', Computed p₁ t₁ p' t' → Knows p' t' v τ (a x) → R v p' t') → Emit.wp c id (f x) p₁ R L t₁)
    (hQ : ∀ vs p' t', Computed p t p' t' → KnowsAll p' t' τ vs (xs.map a) → Q vs p' t') :
    Emit.wp c id (xs.mapM f) p Q L t := by
  induction xs generalizing p t Q with
  | nil =>
    rw [List.mapM_nil]
    exact wp_pure (hQ [] p t (.refl p t) trivial)
  | cons x rest ih =>
    rw [List.mapM_cons]
    refine wp_bind (hf x (by simp) p t _ (.refl p t) fun v p₁ t₁ h₁ hv => ?_)
    refine wp_bind (ih (fun y hy p₂ t₂ R h₂ hR => hf y (by simp [hy]) p₂ t₂ R (h₁.trans h₂) hR) ?_)
    intro vs p₂ t₂ h₂ hvs
    exact wp_pure (hQ (v :: vs) p₂ t₂ (h₁.trans h₂) ⟨hv.computed h₂, hvs⟩)

end Emit

namespace Lowering

open Emit

variable {c : Setting} {id : LaneId} {p : Program} {t : Thread} {L : Thread → Prop}
  {Q : Value → Program → Thread → Prop}

/-! ## Packing -/

section

variable {K : Instr → Prop} [Instr.Computing K] (word flag : Value) (place i : Nat) (edgeFlags indices : List Value)

instance : Straight K (joinFlag word flag place) := by
  unfold joinFlag
  infer_instance

instance : Straight K (joinEdgeFlag word i edgeFlags) := by
  unfold joinEdgeFlag
  cases edgeFlags[i]? <;> infer_instance

instance : Straight K (joinVertices edgeFlags i indices word) := by
  induction indices generalizing i word with
  | nil =>
    unfold joinVertices
    infer_instance
  | cons index rest ih =>
    unfold joinVertices
    infer_instance

instance (flags : Option (List Value)) (isNull : Option Value) :
    Straight K (packWord indices flags isNull) := by
  unfold packWord
  cases indices with
  | nil => infer_instance
  | cons first rest =>
    cases isNull <;> infer_instance

end

theorem wp_joinFlag {word flag : Value} {place : Nat} {w : UInt32} {b : Bool} {τ : ScalarType}
    (hplace : place < 32) (hτ : τ ≠ .void) (hw : Knows p t word .u32 w.toUInt64) (hflag : Knows p t flag τ b.toUInt64)
    (hQ : Learns p t .u32 (w ||| ExportWord.flagAt b place).toUInt64 Q) :
    Emit.wp c id (joinFlag word flag place) p Q L t := by
  have hb : (if τ = .u32 then b.toUInt64 else ScalarType.u32.convert b.toUInt64) = b.toUInt32.toUInt64 := by
    cases b <;> split <;> rfl
  refine wp_bind (wp_convert hflag hτ nofun fun v₁ p₁ t₁ h₁ hv₁ => ?_)
  rw [hb] at hv₁
  refine wp_bind (wp_shlImm hv₁ rfl (by omega) fun v₂ p₂ t₂ h₂ hv₂ => ?_)
  rw [BinaryOp.eval_shl_toUInt64 _ hplace] at hv₂
  refine wp_binary (hw.computed (h₁.trans h₂)) hv₂ rfl fun v₃ p₃ t₃ h₃ hv₃ => ?_
  rw [BinaryOp.eval_or_toUInt64] at hv₃
  exact hQ v₃ p₃ t₃ ((h₁.trans h₂).trans h₃) hv₃

section

variable {i : Nat} {word : Value} {w : UInt32} {edgeFlags : List Value} {bools : List Bool}

theorem wp_joinEdgeFlag (hi : i < 3) (hw : Knows p t word .u32 w.toUInt64)
    (hflags : KnowsFlags p t edgeFlags bools) (hQ : ∀ v p' t', Computed p t p' t' →
      Knows p' t' v .u32 (w ||| ExportWord.edgeFlagOf bools i).toUInt64 → Q v p' t') :
    Emit.wp c id (joinEdgeFlag word i edgeFlags) p Q L t := by
  unfold joinEdgeFlag
  unfold ExportWord.edgeFlagOf at hQ
  rcases Nat.lt_or_ge i edgeFlags.length with hlt | hge
  · have hb := List.getElem?_eq_getElem (hflags.length_eq ▸ hlt)
    obtain ⟨τ, hτ, hknows⟩ := hflags.knows (List.getElem?_eq_getElem hlt) hb
    rw [hb] at hQ
    rw [List.getElem?_eq_getElem hlt]
    exact wp_joinFlag (by simp only [ExportWord.indexBits, ExportWord.edgeFlagBit]; omega) hτ hw hknows hQ
  · rw [List.getElem?_eq_none hge]
    rw [List.getElem?_eq_none (hflags.length_eq ▸ hge)] at hQ
    refine wp_pure (hQ word p t (.refl p t) ?_)
    simpa using hw

/-- The remaining vertices are joined into the word. -/
theorem wp_joinVertices {rest : List Value} {indices : List UInt32}
    (hi : i + rest.length ≤ 3) (hw : Knows p t word .u32 w.toUInt64)
    (hrest : KnowsAll p t .u32 rest (indices.map (·.toUInt64))) (hflags : KnowsFlags p t edgeFlags bools)
    (hQ : Learns p t .u32 (w ||| ExportWord.joinedIndices i indices |||
      ExportWord.packEdgeFlags i ((bools.drop i).take indices.length)).toUInt64 Q) :
    Emit.wp c id (joinVertices edgeFlags i rest word) p Q L t := by
  induction rest generalizing i indices word w p t Q with
  | nil =>
    cases indices with
    | cons _ _ => cases hrest
    | nil =>
      refine wp_pure (hQ word p t (.refl p t) ?_)
      simpa [ExportWord.joinedIndices, ExportWord.packEdgeFlags] using hw
  | cons index rest ih =>
    cases indices with
    | nil => cases hrest
    | cons x indices =>
      obtain ⟨hx, hrest⟩ := hrest
      simp only [List.length_cons] at hi
      refine wp_bind (wp_shlImm hx rfl (by simp only [ExportWord.indexBits]; omega) fun v₁ p₁ t₁ h₁ hv₁ => ?_)
      rw [BinaryOp.eval_shl_toUInt64 _ (by simp only [ExportWord.indexBits]; omega)] at hv₁
      refine wp_bind (wp_binary (hw.computed h₁) hv₁ rfl fun v₂ p₂ t₂ h₂ hv₂ => ?_)
      rw [BinaryOp.eval_or_toUInt64] at hv₂
      have h₁₂ := h₁.trans h₂
      refine wp_bind (wp_joinEdgeFlag (by omega) hv₂ (hflags.later h₁₂.toLater) fun v₃ p₃ t₃ h₃ hv₃ => ?_)
      have h₁₃ := h₁₂.trans h₃
      refine ih (by omega) hv₃ (hrest.later h₁₃.toLater) (hflags.later h₁₃.toLater)
        fun v p' t' hc hk => hQ v p' t' (h₁₃.trans hc) ?_
      have hregroup : ∀ s e fields flags : UInt32,
          w ||| s ||| e ||| fields ||| flags = w ||| (s ||| fields) ||| (e ||| flags) :=
        fun s e fields flags => by ac_rfl
      simp only [ExportWord.joinedIndices, List.length_cons, ExportWord.packEdgeFlags_drop]
      rwa [← hregroup]

end

theorem joined_cons (x : UInt32) (indices : List UInt32) (bools : List Bool) (null : Bool) :
    (ExportWord.joined (x :: indices) bools null).bits =
      x ||| ExportWord.edgeFlagOf bools 0 ||| ExportWord.joinedIndices 1 indices |||
        ExportWord.packEdgeFlags 1 ((bools.drop 1).take indices.length) |||
        ExportWord.flagAt null ExportWord.nullBit := by
  have hshift : x <<< UInt32.ofNat (ExportWord.indexBits * 0) = x := UInt32.shiftLeft_zero
  have hflags : ExportWord.packEdgeFlags 0 (bools.take (indices.length + 1)) = ExportWord.edgeFlagOf bools 0 |||
        ExportWord.packEdgeFlags 1 ((bools.drop 1).take indices.length) :=
    ExportWord.packEdgeFlags_drop bools 0 indices.length
  change (x <<< UInt32.ofNat (ExportWord.indexBits * 0) ||| ExportWord.joinedIndices 1 indices) |||
    ExportWord.packEdgeFlags 0 (bools.take (indices.length + 1)) ||| _ = _
  have hregroup : ∀ e fields flags null : UInt32,
      x ||| fields ||| (e ||| flags) ||| null = x ||| e ||| fields ||| flags ||| null :=
    fun e fields flags null => by ac_rfl
  rw [hshift, hflags, hregroup]

theorem wp_packWord {values : List Value} {indices : List UInt32} {edgeFlags : Option (List Value)}
    {bools : List Bool} {isNull : Option Value} {null : Bool}
    (hvalues : KnowsAll p t .u32 values (indices.map (·.toUInt64))) (hflags : KnowsFlags p t (edgeFlags.getD []) bools)
    (hnull : ∀ flag, isNull = some flag → Knows p t flag .bool null.toUInt64) (hnone : isNull = none → null = false)
    (hQ : ∀ v p' t', Computed p t p' t' →
      Knows p' t' v .u32 (ExportWord.joined indices bools null).bits.toUInt64 → Q v p' t') :
    Emit.wp c id (packWord values edgeFlags isNull) p Q L t := by
  cases values with
  | nil => exact wp_fail
  | cons first rest =>
    cases indices with
    | nil => cases hvalues
    | cons x indices =>
      obtain ⟨hx, hrest⟩ := hvalues
      unfold packWord
      by_cases hlen : (first :: rest).length ≤ 3
      · simp only [hlen, ↓reduceIte]
        refine wp_bind
          (wp_joinEdgeFlag (by omega) hx hflags fun v₁ p₁ t₁ h₁ hv₁ => ?_)
        rw [List.length_cons] at hlen
        refine wp_bind
          (wp_joinVertices (by omega) hv₁ (hrest.later h₁.toLater) (hflags.later h₁.toLater) fun v₂ p₂ t₂ h₂ hv₂ => ?_)
        have h₁₂ := h₁.trans h₂
        cases isNull with
        | some flag =>
          refine wp_joinFlag (τ := .bool) (by decide) nofun hv₂ ((hnull flag rfl).computed h₁₂) fun v₃ p₃ t₃ h₃ hv₃ => ?_
          rw [← joined_cons] at hv₃
          exact hQ v₃ p₃ t₃ (h₁₂.trans h₃) hv₃
        | none =>
          refine wp_pure (hQ v₂ p₂ t₂ h₁₂ ?_)
          have hzero : ExportWord.flagAt false ExportWord.nullBit = 0 := by decide
          rwa [joined_cons, hnone rfl, hzero, UInt32.or_zero]
      · simp only [hlen, ↓reduceIte]
        exact wp_bind wp_fail

end Lowering

end PrimitiveShader
