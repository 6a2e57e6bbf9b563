import PrimitiveShader.Proofs.Emission.Precondition

/-!
# Branches and loops of emitted code

A nested action is run on an empty body, and its code becomes a block of the program around it. The
rules hide the bodies: the nested code starts from some program that has everything defined so far,
and so does the code behind it.
-/

namespace PrimitiveShader.Emit

variable {c : Setting} {id : LaneId} {p : Program} {t : Thread} {L : Thread → Prop} {Q : Unit → Program → Thread → Prop}

theorem wp_place {nodes : List Node} (h : t.Sized c → p.Within c.program →
      ∀ p', p.Within p' → Block.wp c id nodes (Q () p') L t) : Emit.wp c id (place nodes) p Q L t := by
  intro hs u p' hp hw
  cases hp
  rw [List.drop_left]
  exact h hs ⟨hw.definitions, hw.vars⟩ _ .same

/-- The departure from the innermost loop. -/
theorem wp_leave (h : L t) : Emit.wp c id leave p Q L t := by
  refine wp_place fun _ _ p' _ => ?_
  rw [Block.wp_cons]
  unfold Node.wp
  exact h

/-- The block that an action emits keeps the promise of its precondition, wherever it is run. -/
def Blocks (c : Setting) (id : LaneId) (p : Program) (e : Emit Unit) (block : Block) (p' : Program) :
    Prop :=
  ∀ (u : Thread) (R : Program → Thread → Prop) (M : Thread → Prop), u.Sized c →
    (∀ p₀, Later p u p₀ u → Emit.wp c id e p₀ (fun _ p₁ u₁ => R p₁ u₁) M u) →
    Block.wp c id block (fun u₁ => ∃ p₁, p₁.Within p' ∧ R p₁ u₁) M u

variable {e : Emit Unit} {type : ScalarType} {a : UInt64} {cond : Value}

theorem wp_nested {Q : Block → Program → Thread → Prop}
    (h : ∀ block p', p.Within p' → p'.Within c.program → Blocks c id p e block p' → Q block p' t) :
    Emit.wp c id (nested e) p Q L t := by
  intro _ block p' hp hw
  obtain ⟨inner, hinner, rfl, rfl⟩ := nested_eq_ok_iff.mp hp
  rw [List.drop_length, Block.wp_nil]
  have hgrows := e.grows hinner
  refine h _ _ ⟨hgrows.definitions, hgrows.vars⟩ hw fun u R M hs hwp => ?_
  have hblock := hwp { p with body := [] } (.of_registers .same rfl) hs () inner hinner
    ⟨hw.definitions, hw.vars⟩
  rw [List.length_nil, List.drop_zero] at hblock
  exact Block.wp_mono _ hblock (fun v hv => ⟨inner, .same, hv⟩) fun v hv => hv

theorem wp_ifThenElse {e' : Emit Unit} (hc : Knows p t cond type a)
    (hthen : a ≠ 0 → ∀ p₀, Later p t p₀ t → Emit.wp c id e p₀ (fun _ p₁ t₁ => ∀ p₂, Later p₁ t₁ p₂ t₁ → Q () p₂ t₁) L t)
    (helse : a = 0 → ∀ p₀, Later p t p₀ t →
      Emit.wp c id e' p₀ (fun _ p₁ t₁ => ∀ p₂, Later p₁ t₁ p₂ t₁ → Q () p₂ t₁) L t) :
    Emit.wp c id (ifThenElse cond e e') p Q L t := by
  rw [ifThenElse_eq]
  refine wp_bind (wp_nested fun thenBlock p₁ h₁ _ hthenBlock => ?_)
  refine wp_bind (wp_nested fun elseBlock p₂ h₂ _ helseBlock => ?_)
  refine wp_place fun hs hw p₃ h₃ => ?_
  rw [Block.wp_cons]
  unfold Node.wp
  rw [hc.read]
  simp only [Yields]
  split
  · rename_i hzero
    refine Block.wp_mono _ (helseBlock t _ L hs fun p₀ h₀ =>
      helse hzero p₀ ((Later.of_registers h₁ rfl).trans h₀)) (fun u hu => ?_) fun u hu => hu
    obtain ⟨q, hq, hQ⟩ := hu
    rw [Block.wp_nil]
    exact hQ p₃ (.of_registers (hq.trans h₃) rfl)
  · rename_i hne
    refine Block.wp_mono _ (hthenBlock t _ L hs fun p₀ h₀ => hthen hne p₀ h₀) (fun u hu => ?_) fun u hu => hu
    obtain ⟨q, hq, hQ⟩ := hu
    rw [Block.wp_nil]
    exact hQ p₃ (.of_registers (hq.trans (h₂.trans h₃)) rfl)

theorem wp_ifThen (hc : Knows p t cond type a) (hthen : a ≠ 0 → ∀ p₀, Later p t p₀ t →
      Emit.wp c id e p₀ (fun _ p₁ t₁ => ∀ p₂, Later p₁ t₁ p₂ t₁ → Q () p₂ t₁) L t)
    (helse : a = 0 → ∀ p₁, Later p t p₁ t → Q () p₁ t) : Emit.wp c id (ifThen cond e) p Q L t := by
  rw [ifThen_eq]
  refine wp_bind (wp_nested fun block p₁ h₁ _ hblock => ?_)
  refine wp_place fun hs hw p₂ h₂ => ?_
  rw [Block.wp_cons]
  unfold Node.wp
  rw [hc.read]
  simp only [Yields]
  split
  · rename_i hzero
    rw [Block.wp_nil, Block.wp_nil]
    exact helse hzero p₂ (.of_registers (h₁.trans h₂) rfl)
  · rename_i hne
    refine Block.wp_mono _ (hblock t _ L hs fun p₀ h₀ => hthen hne p₀ h₀) (fun u hu => ?_) fun u hu => hu
    obtain ⟨q, hq, hQ⟩ := hu
    rw [Block.wp_nil]
    exact hQ p₂ (.of_registers (hq.trans h₂) rfl)

/-- A loop with an invariant of the thread. -/
theorem wp_loop (I : Thread → Prop) (hI : I t) (hkeep : ∀ u p₀, I u → p.Within p₀ →
      Emit.wp c id e p₀ (fun _ _ u₁ => I u₁) (fun u₁ => ∀ p₁, p.Within p₁ → Q () p₁ u₁) u) :
    Emit.wp c id (loop e) p Q L t := by
  rw [loop_eq]
  refine wp_bind (wp_nested fun block p₁ h₁ _ hblock => ?_)
  refine wp_place fun hs hw p₂ h₂ => ?_
  rw [Block.wp_cons]
  unfold Node.wp
  refine ⟨fun u => u.Sized c ∧ I u, ⟨hs, hI⟩, fun u hu => ?_⟩
  have hbody := hblock u (fun _ u₁ => I u₁) _ hu.1 fun p₀ h₀ => hkeep u p₀ hu.2 h₀.within
  refine Block.wp_mono _ (Block.wp_sized _ hu.1 hbody) (fun v hv => ?_) fun v hv => ?_
  · obtain ⟨hsize, q, -, hI⟩ := hv
    exact ⟨hsize, hI⟩
  · rw [Block.wp_nil]
    exact hv.2 p₂ (h₁.trans h₂)

end PrimitiveShader.Emit
