import PrimitiveShader.Proofs.Emission.Straight

/-!
# Code around a body

A lowering runs the body of its source in a branch of its own, which other code stands around. The code around
it is new (`Block.Encloses`), so every value of the source that is placed at all is placed in that branch, and
as often as the body there places it (`Block.Encloses.count_eq`). What an action emits around a body is put
together from what comes before, the branch, and what comes behind (`Emit.Wraps`).
-/

namespace PrimitiveShader

/-- One branch of the nodes, on `input`, begins with `inner`. All other code is newer than `source`. -/
def Block.Encloses (source P : Program) (input : LaneInput) (inner nodes : Block) : Prop :=
  ∃ (front : Block) (cond : Value) (tail back : Block), nodes = front ++ .branch cond (inner ++ tail) [] :: back ∧
    P.instr cond = .ok (.intrinsic (.input input)) ∧
    front.NewerThan source ∧ tail.NewerThan source ∧ back.NewerThan source

/-- Newer code does not place the values of the source. -/
theorem Block.NewerThan.count_eq_zero {source : Program} {nodes : Block} (h : nodes.NewerThan source)
    {v : Value} (hv : v.index < source.definitions.size) : (Block.values nodes).count v = 0 :=
  List.count_eq_zero.mpr fun hmem => Nat.not_lt.mpr (h v hmem) hv

namespace Block.Encloses

variable {source P P' : Program} {input : LaneInput} {inner nodes more : Block}

theorem within (h : Block.Encloses source P input inner nodes) (hP : P.Within P') :
    Block.Encloses source P' input inner nodes := by
  obtain ⟨front, cond, tail, back, hnodes, hcond, hnew⟩ := h
  exact ⟨front, cond, tail, back, hnodes, hP.instr_eq hcond, hnew⟩

theorem prepend (hmore : more.NewerThan source) (h : Block.Encloses source P input inner nodes) :
    Block.Encloses source P input inner (more ++ nodes) := by
  obtain ⟨front, cond, tail, back, rfl, hcond, hfront, hnew⟩ := h
  exact ⟨more ++ front, cond, tail, back, by simp, hcond, hmore.append hfront, hnew⟩

theorem append (h : Block.Encloses source P input inner nodes) (hmore : more.NewerThan source) :
    Block.Encloses source P input inner (nodes ++ more) := by
  obtain ⟨front, cond, tail, back, rfl, hcond, hfront, htail, hback⟩ := h
  exact ⟨front, cond, tail, back ++ more, by simp, hcond, hfront, htail, hback.append hmore⟩

/-- The values of the source are placed in the branch only. -/
theorem count_eq (h : Block.Encloses source P input inner nodes) {v : Value} (hv : v.index < source.definitions.size) :
    (Block.values nodes).count v = (Block.values inner).count v := by
  obtain ⟨front, cond, tail, back, rfl, -, hfront, htail, hback⟩ := h
  simp only [Block.values_append, Block.values, Node.values, List.append_nil, List.count_append]
  rw [hfront.count_eq_zero hv, htail.count_eq_zero hv, hback.count_eq_zero hv]
  omega

end Block.Encloses

namespace Emit

variable {α β : Type} {source p p' : Program} {input : LaneInput} {R : Block → Prop}

/-- An action on programs with everything that `source` has, which emits new code around a block with the
property `R`. -/
def Wraps (source : Program) (input : LaneInput) (R : Block → Prop) (e : Emit α) : Prop :=
  ∀ p a p', source.Within p → e p = .ok (a, p') →
    ∃ inner, R inner ∧ Block.Encloses source p' input inner (p'.body.drop p.body.length)

namespace Wraps

theorem after {e : Emit α} {k : α → Emit β} [he : Novel (Instr.Runnable true) e] (h : ∀ a, Wraps source input R (k a)) :
    Wraps source input R (e >>= k) := by
  intro p b p'' hw hp
  obtain ⟨a, p', ha, hb⟩ := bind_eq_ok_iff.mp hp
  have hgrows := e.grows ha
  obtain ⟨inner, hinner, hencloses⟩ := h a p' b p'' (hw.trans hgrows.toWithin) hb
  refine ⟨inner, hinner, ?_⟩
  rw [drop_body_eq hgrows ((k a).grows hb)]
  exact hencloses.prepend ((he.newer ha).of_within hw)

theorem before {e : Emit α} {k : α → Emit β} (h : Wraps source input R e)
    [hk : ∀ a, Novel (Instr.Runnable true) (k a)] :
    Wraps source input R (e >>= k) := by
  intro p b p'' hw hp
  obtain ⟨a, p', ha, hb⟩ := bind_eq_ok_iff.mp hp
  obtain ⟨inner, hinner, hencloses⟩ := h p a p' hw ha
  have hgrows := e.grows ha
  have hgrows' := (k a).grows hb
  refine ⟨inner, hinner, ?_⟩
  rw [drop_body_eq hgrows hgrows']
  exact (hencloses.within hgrows'.toWithin).append (((hk a).newer hb).of_within (hw.trans hgrows.toWithin))

theorem branch {e : Emit Unit} (h : ∀ p p', source.Within p → e p = .ok ((), p') →
      ∃ inner tail, p'.body = p.body ++ (inner ++ tail) ∧ R inner ∧ tail.NewerThan source) :
    Wraps source input R (Emit.input input >>= fun cond => Emit.ifThen cond e) := by
  intro p u p'' hw hp
  obtain ⟨cond, p₁, hcond, hif⟩ := bind_eq_ok_iff.mp hp
  obtain ⟨rfl, hgains, hbody⟩ := push_eq_ok hcond
  obtain ⟨p₂, hrun, rfl⟩ := ifThen_eq_ok hif
  have hw₁ : source.Within { p₁ with body := [] } :=
    hw.trans ⟨hgains.definitions, hgains.vars⟩
  obtain ⟨inner, tail, hinner, hR, htail⟩ := h _ p₂ hw₁ hrun
  refine ⟨inner, hR, [.instr ⟨p.definitions.size⟩], _, tail, [], ?_, (e.grows hrun).instr_eq hgains.instr, ?_,
    htail, .nil _⟩
  · rw [hinner, hbody, List.append_assoc, List.drop_left]
    rfl
  · intro v hv
    obtain rfl : v = ⟨_⟩ := by simpa [Block.values, Node.values] using hv
    exact hw.size_le

end Wraps

end Emit

end PrimitiveShader
