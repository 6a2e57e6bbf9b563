import PrimitiveShader.Lowering.Space
import PrimitiveShader.Proofs.Lowering.Subgroup

/-!
# Asking for output space, once

The code that asks for space is run by all waves, but only the first lane of the workgroup gets to the
request (`Lowering.requestSpace_brings`).
-/

namespace PrimitiveShader

/-- The thread of lane `i` after a request of the first lane. -/
def Thread.asked (t : Thread) (i : Nat) (space : Allocation) : Thread :=
  if i = 0 then { t with space := some space } else t

theorem Thread.asked_of_ne (t : Thread) {i : Nat} (h : i ≠ 0) (space : Allocation) : t.asked i space = t := if_neg h

theorem Thread.later_asked (p : Program) (t : Thread) (i : Nat) (space : Allocation) :
    Later p t p (t.asked i space) := by
  refine .of_registers (.refl p) ?_
  unfold asked
  split <;> rfl

/-- A request of the only lane that may make one. -/
theorem Emit.wp_allocate {c : Setting} {id : LaneId} {p : Program} {t : Thread}
    {L : Thread → Prop} {Q : Unit → Program → Thread → Prop} {a b : Value} {σ τ : ScalarType}
    {x y : UInt64} (hid : id.index = 0) (hspace : t.space = none) (ha : Knows p t a σ x) (hb : Knows p t b τ y)
    (hQ : ∀ p', p.Within p' → Q () p' { t with space := some ⟨x.toUInt32.toNat, y.toUInt32.toNat⟩ }) :
    Emit.wp c id (effect (.allocate a b)) p Q L t := by
  refine wp_run fun p' hp _ _ => ?_
  simp only [Instr.wp, Thread.request, ha.read, hb.read]
  exact ⟨hid, hspace, hQ p' hp⟩

namespace Lowering

open Emit

variable {c : Setting} {id : Nat} {p : Program} {T : Nat → Thread}

instance {K : Instr → Prop} [Instr.Common K] (wave : WaveWidth) (vertices primitives : Value) :
    Novel K (requestSpace wave vertices primitives) := by
  unfold requestSpace
  infer_instance

/-- Who asks for space does not depend on what is asked for. -/
theorem clears_requestSpace (known : Value → Prop) (wave : WaveWidth) (vertices primitives : Value) :
    Clears known (requestSpace wave vertices primitives) fun _ _ => True := by
  refine .bind (.input fun waveId known₁ _ hwaveId => .bind (.binaryImm hwaveId
    fun isFirst known₂ _ hfirst => .ifThen hfirst (.bind ?_) fun _ _ => trivial))
  exact .elect fun elected known₃ _ helected =>
    .ifThen helected (.straight fun _ => trivial) fun _ _ => trivial

/-- Only the first lane of the workgroup asks for space. -/
theorem requestSpace_brings (hg : c.group.Fits) (hid : id < c.group.numWaves) {wave : WaveWidth}
    {vertices primitives : Value} {σ τ : ScalarType} {x y : UInt64}
    (hv : id = 0 → Knows p (T 0) vertices σ x) (hp : id = 0 → Knows p (T 0) primitives τ y)
    (hspace : id = 0 → (T 0).space = none) : Brings c id (requestSpace wave vertices primitives) p (fun _ p' T' =>
      ∀ l ∈ (c.launched id).lanes,
        Computed p ((T l).asked (c.index id l) ⟨x.toUInt32.toNat, y.toUInt32.toNat⟩) p' (T' l)) T := by
  have hwaves : id < 2 ^ 32 := Nat.lt_of_lt_of_le (hg.setting hid).wave (by decide)
  have hlaneId : ∀ l ∈ (c.launched id).lanes, (c.group.laneId (c.index id l)).wave = id :=
    fun l hl => Setting.index_div (Setting.mem_launched.mp hl).1
  refine .bind (.each hg hid (B := fun l v p₁ t₁ => Computed p (T l) p₁ t₁ ∧ Knows p₁ t₁ v .u32 (UInt64.ofNat id))
    (fun l hl => wp_input ?_) fun waveId p₁ T₁ h₁ => ?_)
  · intro v p₁ t₁ hc hk
    exact ⟨hc, hlaneId l hl ▸ hk⟩
  refine .bind (.each hg hid
    (B := fun l v p₂ t₂ => Computed p₁ (T₁ l) p₂ t₂ ∧ Knows p₂ t₂ v .bool (decide (id = 0)).toUInt64)
    (fun l hl => wp_binaryImm (h₁ l hl).2 rfl fun v p₂ t₂ hc hk => ⟨hc, ?_⟩) fun isFirst p₂ T₂ h₂ => ?_)
  · have heval : BinaryOp.eq.eval .u32 (UInt64.ofNat id) (0 &&& ScalarType.u32.mask) = (decide (id = 0)).toUInt64 := by
      rw [UInt64.zero_and]
      simp only [BinaryOp.eval]
      congr 1
      rw [Bool.eq_iff_iff, beq_iff_eq, ofNat_eq_zero_iff hwaves, decide_eq_true_eq]
    exact heval ▸ hk
  have hsofar : ∀ l ∈ (c.launched id).lanes, Computed p (T l) p₂ (T₂ l) := fun l hl =>
    (h₁ l hl).1.trans (h₂ l hl).1
  by_cases hzero : id = 0
  · -- The first wave elects its first lane, which makes the request.
    subst hzero
    refine .ifThen_taken hid (fun l hl => ⟨_, _, (h₂ l hl).2, by decide⟩) fun p₃ h₃ => ?_
    refine .bind (WaveWidth.elect_brings hid fun elected p₄ T₄ h₄ => ?_)
    refine .each hg hid (B := fun l _ p₅ t₅ => ∀ p₆, p₅.Within p₆ → Computed p
      ((T l).asked (c.index 0 l) ⟨x.toUInt32.toNat, y.toUInt32.toNat⟩) p₆ t₅) (fun l hl => ?_)
      fun _ p₅ T₅ h₅ p₆ h₆ l hl => h₅ l hl p₆ h₆
    have hindex : c.index 0 l = l := by simp [Setting.index, Wave.laneId]
    have hmoved : Computed p (T l) p₄ (T₄ l) :=
      ((hsofar l hl).trans (.of_within h₃)).trans (h₄ l hl).1
    rw [hindex]
    refine wp_ifThen (h₄ l hl).2 (fun hne p₅ h₅ => ?_) fun hz p₅ h₅ p₆ h₆ => ?_
    · have hl0 : l = 0 := by simpa [toUInt64_eq_zero_iff] using hne
      subst hl0
      have hlater := hmoved.toLater.trans h₅
      refine wp_allocate rfl ?_ ((hv rfl).later hlater) ((hp rfl).later hlater) fun p₆ h₆ p₇ h₇ p₈ h₈ => ?_
      · rw [hmoved.space]
        exact hspace rfl
      · exact ⟨⟨((hlater.within.trans h₆).trans h₇.within).trans h₈, hlater.read⟩, hmoved.vars,
          hmoved.outputs, hmoved.view, hmoved.primitives, hmoved.vertices, rfl⟩
    · have hl0 : l ≠ 0 := by simpa [toUInt64_eq_zero_iff] using hz
      rw [Thread.asked_of_ne _ hl0]
      exact hmoved.trans (.of_within (h₅.within.trans h₆))
  · -- The other waves pass.
    have hfalse : (decide (id = 0)).toUInt64 = 0 := by simpa [toUInt64_eq_zero_iff] using hzero
    refine .ifThen_passed hid (fun l hl => ⟨_, hfalse ▸ (h₂ l hl).2⟩) fun p₃ h₃ l hl => ?_
    have hne : c.index id l ≠ 0 := by
      intro heq
      have hdiv := @Setting.index_div c id l (Setting.mem_launched.mp hl).1
      rw [heq, Nat.zero_div] at hdiv
      exact hzero hdiv.symm
    rw [Thread.asked_of_ne _ hne]
    exact (hsofar l hl).trans (.of_within h₃)

end Lowering

end PrimitiveShader
