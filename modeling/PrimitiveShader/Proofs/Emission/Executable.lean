import PrimitiveShader.Executor.Executable
import PrimitiveShader.Proofs.Emission.Straight

/-!
# Which programs can be made ready to run

Exactly those whose instructions are all defined and not entry points.
-/

namespace PrimitiveShader

namespace Program

variable {program : Program} {executable : Executable}

/-- What a list of values has been looked up as. -/
theorem mem_mapM_instr {values : List Value} {pairs : List (Value × Instr)}
    (h : (values.mapM fun v => do return (v, ← program.instr v) : Except Fault _) = .ok pairs)
    {v : Value} {i : Instr} : (v, i) ∈ pairs ↔ v ∈ values ∧ program.instr v = .ok i := by
  induction values generalizing pairs with
  | nil =>
    cases h
    simp
  | cons w rest ih =>
    rw [List.mapM_cons] at h
    obtain ⟨pair, hpair, h⟩ := except_bind_eq_ok.mp h
    obtain ⟨others, hr, h⟩ := except_bind_eq_ok.mp h
    obtain ⟨j, hw, hj⟩ := except_bind_eq_ok.mp hpair
    cases h
    cases hj
    rw [List.mem_cons, List.mem_cons, ih hr]
    constructor
    · rintro (heq | hmem)
      · cases heq
        exact ⟨.inl rfl, hw⟩
      · exact ⟨.inr hmem.1, hmem.2⟩
    · rintro ⟨rfl | hmem, hi⟩
      · rw [hw] at hi
        cases hi
        exact .inl rfl
      · exact .inr ⟨hmem, hi⟩

/-- A program whose instructions can be run. -/
theorem toExecutable_of_steady (h : Block.Steady program true program.body) :
    program.toExecutable = .ok (.ok ⟨program, (Block.code 0 program.body).toArray⟩) := by
  have hread : ∀ v ∈ _, ∃ pair, (do return (v, ← program.instr v) : Except Fault (Value × Instr)) = .ok pair :=
    fun v hv => by
      obtain ⟨i, hi, -⟩ := h v hv
      exact ⟨(v, i), by rw [hi]; rfl⟩
  obtain ⟨pairs, hpairs⟩ := exists_mapM_eq_ok hread
  have hplaced : program.placed = .ok pairs := hpairs
  simp only [toExecutable, hplaced, bind, Except.bind]
  split
  · rename_i op hsome
    obtain ⟨⟨v, i⟩, hmem, hfound⟩ := List.exists_of_findSome?_eq_some hsome
    obtain ⟨hv, hi⟩ := (mem_mapM_instr hpairs).mp hmem
    obtain ⟨j, hj, hrun⟩ := h v hv
    rw [hi] at hj
    cases hj
    cases i with
    | intrinsic op =>
      have hentry : op.isEntryPoint = false := hrun.entryPoint
      simp [hentry] at hfound
    | _ => cases hfound
  · rfl

/-- What is known of a program that has been made ready to run. -/
theorem toExecutable_eq_ok (h : program.toExecutable = .ok (.ok executable)) :
    executable = ⟨program, (Block.code 0 program.body).toArray⟩ ∧
      ∀ v ∈ Block.values program.body, ∀ i, program.instr v = .ok i → i.isEntryPoint = false := by
  unfold toExecutable at h
  obtain ⟨pairs, hpairs, h⟩ := except_bind_eq_ok.mp h
  dsimp only at h
  split at h
  · cases h
  · rename_i hleft
    cases h
    refine ⟨rfl, fun v hv i hi => ?_⟩
    have hnone := List.findSome?_eq_none_iff.mp hleft _ ((mem_mapM_instr hpairs).mpr ⟨hv, hi⟩)
    cases i with
    | intrinsic op => simpa [Instr.isEntryPoint] using hnone
    | _ => rfl

end Program

/-! ## What ends up in the body -/

/-- The action places some instructions, wherever in the body that is. -/
def Emit.Places {α : Type} (values : List Value) (e : Emit α) : Prop :=
  ∀ (p : Program) (a : α) (p' : Program), e p = .ok (a, p') → ∀ v ∈ values, v ∈ Block.values p'.body

namespace Emit.Places

variable {α β : Type} {values : List Value}

theorem place (nodes : Block) : Places (Block.values nodes) (Emit.place nodes) := by
  intro p a p' hp v hv
  cases hp
  rw [Block.values_append]
  exact List.mem_append_right _ hv

theorem bind_left {e : Emit α} {k : α → Emit β} (h : Places values e) :
    Places values (e >>= k) := by
  intro p b p'' hp v hv
  obtain ⟨a, p', ha, hb⟩ := bind_eq_ok_iff.mp hp
  obtain ⟨rest, hrest⟩ := ((k a).grows hb).body
  rw [← hrest, Block.values_append]
  exact List.mem_append_left _ (h p a p' ha v hv)

theorem bind_right {e : Emit α} {k : α → Emit β} (h : ∀ a, Places values (k a)) : Places values (e >>= k) := by
  intro p b p'' hp v hv
  obtain ⟨a, p', -, hb⟩ := bind_eq_ok_iff.mp hp
  exact h a p' b p'' hb v hv

theorem ifThen {e : Emit Unit} (cond : Value) (h : Places values e) : Places values (Emit.ifThen cond e) := by
  intro p _ p' hp v hv
  obtain ⟨inner, hinner, rfl⟩ := ifThen_eq_ok hp
  have hmem := h _ () inner hinner v hv
  simp [Block.values_append, Block.values, Node.values, hmem]

end Emit.Places

end PrimitiveShader
