import PrimitiveShader.Proofs.Typing.Values
import PrimitiveShader.Proofs.Validity.WellFormed

/-!
# Lanes keep to the types of their program

A lane is sound when it has all registers and variables of its program and their contents fit their
types. An instruction of a valid program keeps it sound (`Lane.Sound.execute`), provided that constants
and ballots fit the types they are given. Whether types matter is left open (`typed`), and so is whether
faults are admitted (`F`): where they are not, the instruction must not ask for a shift by the width of
a register, a query counter that does not exist or an export word that its indices do not fit.
-/

namespace PrimitiveShader

open ScalarType

/-- The instruction keeps to its type: a constant fits, and a ballot has a bit for every lane. -/
def Instr.Typed (wave : WaveWidth) : Instr → Prop
  | .const type a => type.Fits a
  | .intrinsic (.crossLane (.ballot _ type)) => wave.size ≤ type.bits
  | _ => True

/-- The instruction asks for nothing that does not exist. Accesses to shared memory compute an address,
for which types have to matter. -/
def Instr.Total (launch : Launch) (typed : Prop) : Instr → Prop
  | .extract _ offset _ => offset.toNat < 64
  | .intrinsic (.input .packedPrimitive) => launch.Packs
  | .intrinsic (.queryAdd stream _) => stream.toNat < 4
  | .intrinsic (.loadShared _ _ _) => typed
  | .intrinsic (.storeShared _ _ _) => typed
  | _ => True

/-- The lane has the registers and variables of the program, and their contents fit their types. -/
structure Lane.Sound (program : Program) (typed : Prop) (lane : Lane) : Prop
    extends lane.Sized program where
  fits : typed → ∀ v τ a, program.typeOf v = .ok τ → lane.read v = .ok a → τ.Fits a
  fitsVar : typed → ∀ x τ a, program.varType? x = some τ → lane.readVar x = .ok a → τ.Fits a

namespace Lane.Sound

variable {program : Program} {typed F : Prop} {lane : Lane} {value : Value}

theorem start (program : Program) (typed : Prop) : (Lane.start program).Sound program typed where
  toSized := .start program
  fits _ v τ a _ h := by
    have ha : a = 0 := by
      simp only [Lane.start, Lane.read, Array.getElem?_replicate] at h
      grind
    exact ha ▸ fits_zero τ
  fitsVar _ x τ a _ h := by
    have ha : a = 0 := by
      simp only [Lane.start, Lane.readVar, Array.getElem?_replicate] at h
      grind
    exact ha ▸ fits_zero τ

variable {τ : ScalarType} {a : UInt64} {x : Var}

section

variable (h : lane.Sound program typed)
include h

theorem exists_read (ht : program.valueType? value = some τ) : ∃ a, lane.read value = .ok a ∧ (typed → τ.Fits a) := by
  have ht := Program.valueType?_eq_some_iff.mp ht
  obtain ⟨a, ha⟩ := h.toSized.read (Program.lt_of_typeOf ht)
  exact ⟨a, ha, fun hτ => h.fits hτ value τ a ht ha⟩

theorem exists_readVar (ht : program.varType? x = some τ) : ∃ a, lane.readVar x = .ok a ∧ (typed → τ.Fits a) := by
  have hlt : x.index < lane.vars.size := h.vars ▸ Program.lt_of_varType? ht
  have ha : lane.readVar x = .ok lane.vars[x.index] := by simp [Lane.readVar, hlt]
  exact ⟨_, ha, fun hτ => h.fitsVar hτ x τ _ ht ha⟩

theorem write (ha : typed → ∀ τ, program.typeOf value = .ok τ → τ.Fits a) :
    (lane.write value a).Sound program typed where
  toSized := h.toSized.write value a
  fits hτ v τ b ht hb := by
    by_cases hv : v.index = value.index
    · obtain rfl : v = value := by
        cases v
        cases value
        exact congrArg Value.mk hv
      have hab : b = a := by
        simp only [Lane.read, Lane.write, Array.getElem?_setIfInBounds] at hb
        grind
      exact hab ▸ ha hτ τ ht
    · refine h.fits hτ v τ b ht ?_
      simpa [Lane.read, Lane.write, Array.getElem?_setIfInBounds, Ne.symm hv] using hb
  fitsVar := h.fitsVar

theorem writeVar (hx : program.varType? x = some τ) (ha : typed → τ.Fits a) :
    Yields F (fun lane' => lane'.Sound program typed) (lane.writeVar x a) := by
  have hlt : x.index < lane.vars.size := h.vars ▸ Program.lt_of_varType? hx
  unfold Lane.writeVar
  rw [if_pos hlt]
  refine ⟨⟨h.registers, by simpa using h.vars⟩, h.fits, fun hτ y σ b hy hb => ?_⟩
  by_cases hxy : y.index = x.index
  · obtain rfl : y = x := by
      cases y
      cases x
      exact congrArg Var.mk hxy
    obtain rfl : τ = σ := Option.some.inj (hx.symm.trans hy)
    have hab : b = a := by
      simp only [Lane.readVar, Array.getElem?_setIfInBounds] at hb
      grind
    exact hab ▸ ha hτ
  · refine h.fitsVar hτ y σ b hy ?_
    simpa [Lane.readVar, Array.getElem?_setIfInBounds, Ne.symm hxy] using hb

end

/-! ## Instructions -/

section

variable {group : Workgroup} {id : LaneId} {visible : Value → Prop} {d : Definition}
  (hlaunch : group.launch.Valid group.wave) (hid : id.InRange) (h : lane.Sound group.program typed)
  (htyped : typed → d.instr.Typed group.wave) (htotal : F ∨ d.instr.Total group.launch typed)
include hlaunch hid h htyped htotal

theorem compute (ht : group.program.resultType? d.instr = some d.type) (hcomp : d.instr.isComputed) :
    Yields F (fun a => typed → d.type.Fits a) (lane.compute group id d.instr) := by
  obtain ⟨instr, type⟩ := d
  cases instr with
  | const τ a =>
    obtain rfl : τ = type := Option.some.inj ht
    exact htyped
  | undef τ => exact fun _ => fits_zero _
  | unary op a =>
    obtain ⟨τ, hτ, hop⟩ := Option.bind_eq_some_iff.mp ht
    obtain ⟨x, hx, -⟩ := h.exists_read hτ
    simp only [Lane.compute, hx]
    exact fun _ => UnaryOp.fits_eval hop x
  | binary op a b =>
    obtain ⟨τ, hτ, ht⟩ := Option.bind_eq_some_iff.mp ht
    obtain ⟨σ, hσ, hop⟩ := Option.bind_eq_some_iff.mp ht
    obtain ⟨x, hx, hfx⟩ := h.exists_read hτ
    obtain ⟨y, hy, hfy⟩ := h.exists_read hσ
    simp only [Lane.compute, Program.valueType?_eq_some_iff.mp hτ, hx, hy]
    exact fun ht => BinaryOp.fits_eval hop (hfx ht) (hfy ht)
  | select cond a b =>
    obtain ⟨χ, hχ, ht⟩ := Option.bind_eq_some_iff.mp ht
    obtain ⟨τ, hτ, ht⟩ := Option.bind_eq_some_iff.mp ht
    obtain ⟨σ, hσ, ht⟩ := Option.bind_eq_some_iff.mp ht
    obtain ⟨hkind, rfl⟩ : (χ = .bool ∧ τ = σ) ∧ τ = type := by
      simp only [typeWhen] at ht
      grind
    obtain ⟨rfl, rfl⟩ := hkind
    obtain ⟨c, hc, -⟩ := h.exists_read hχ
    obtain ⟨x, hx, hfx⟩ := h.exists_read hτ
    obtain ⟨y, hy, hfy⟩ := h.exists_read hσ
    simp only [Lane.compute, hc]
    change Yields F _ (if c = 0 then lane.read b else lane.read a)
    split
    · rw [hy]
      exact hfy
    · rw [hx]
      exact hfx
  | convert a τ =>
    obtain ⟨σ, hσ, ht⟩ := Option.bind_eq_some_iff.mp ht
    obtain rfl : τ = type := by
      simp only [typeWhen] at ht
      grind
    obtain ⟨x, hx, -⟩ := h.exists_read hσ
    simp only [Lane.compute, hx]
    exact fun _ => fits_convert _ _
  | extract a offset bits =>
    obtain ⟨σ, hσ, ht⟩ := Option.bind_eq_some_iff.mp ht
    obtain rfl : σ = type := by
      simp only [typeWhen] at ht
      grind
    obtain ⟨x, hx, hfx⟩ := h.exists_read hσ
    simp only [Lane.compute, hx]
    change Yields F _ (if offset.toNat < 64 then _ else _)
    split
    · exact fun ht => (hfx ht).extract _ _
    · rename_i hwide
      exact htotal.resolve_right hwide
  | loadVar x =>
    obtain ⟨a, ha, hfa⟩ := h.exists_readVar ht
    simp only [Lane.compute, ha]
    exact hfa
  | storeVar x a => cases hcomp
  | intrinsic op =>
    cases op with
    | input input =>
      obtain rfl : input.type = type := Option.some.inj ht
      refine (LaneInput.fits_eval hlaunch hid fun hpacked => ?_).mono fun _ _ hfits _ => hfits
      subst hpacked
      exact htotal
    | _ => cases hcomp

/-- An instruction that concerns one lane only keeps the lane sound. -/
theorem execute (hd : group.program.Supports visible value d) (hlocal : d.instr.isLaneLocal) :
    Yields F (fun lane' => lane'.Sound group.program typed) (lane.execute group id value d.instr) := by
  by_cases hcomp : d.instr.isComputed
  · rw [Lane.execute_of_isComputed hcomp]
    refine Yields.bind_iff.mpr ((compute hlaunch hid h htyped htotal hd.type hcomp).mono
      fun a _ ha => h.write fun hτ τ ht => ?_)
    obtain rfl : d.type = τ := by
      simpa [Program.typeOf, Program.definition, hd.definition, Except.map] using ht
    exact ha hτ
  · obtain ⟨instr, type⟩ := d
    cases instr with
    | storeVar x a =>
      obtain ⟨τ, hτ, ht⟩ := Option.bind_eq_some_iff.mp hd.type
      obtain ⟨σ, hσ, ht⟩ := Option.bind_eq_some_iff.mp ht
      obtain rfl : τ = σ := by
        simp only [typeWhen] at ht
        grind
      obtain ⟨b, hb, hfb⟩ := h.exists_read hσ
      simp only [Lane.execute, hb]
      exact h.writeVar hτ hfb
    | intrinsic op =>
      cases op with
      | storeOutput slot a =>
        obtain ⟨τ, hτ, -⟩ := Option.bind_eq_some_iff.mp hd.type
        obtain ⟨b, hb, -⟩ := h.exists_read hτ
        simp only [Lane.execute, hb]
        exact ⟨⟨h.registers, h.vars⟩, h.fits, h.fitsVar⟩
      | input => exact absurd rfl hcomp
      | _ => cases hlocal
    | const | undef | unary | binary | select | convert | extract | loadVar =>
      exact absurd rfl hcomp

end

end Lane.Sound

end PrimitiveShader
