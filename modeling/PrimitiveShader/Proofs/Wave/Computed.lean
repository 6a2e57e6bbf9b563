import PrimitiveShader.Proofs.Scalar.Mirror
import PrimitiveShader.Proofs.Validity.Scope
import PrimitiveShader.Proofs.Wave.Spared
import PrimitiveShader.Proofs.Wave.Twin

/-!
# Lanes that agree on what they have computed

Two states of a lane agree when nothing but registers tells them apart that the lane has not set yet
(`Lane.AgreesOn`). Values of type `void` have no contents to agree on, and neither have variables of that type.
An instruction that reads only what has been computed does the same to both, and leaves them in agreement on its
own value as well (`Wave.Alongside.execute`). The one exception is an instruction that reads a register of
another lane, which may be off.
-/

namespace PrimitiveShader

/-! ## Two computations that may fault -/

section

variable {σ α β : Type}

/-- Two values that are related, or one and the same fault. -/
def Both (R : α → α → Prop) : Except Fault α → Except Fault α → Prop
  | .ok a, .ok b => R a b
  | .error f, .error g => f = g
  | _, _ => False

namespace Both

variable {R : α → α → Prop} {Q : β → β → Prop} {r r' : Except Fault α}

theorem mono {R' : α → α → Prop} (h : Both R r r') (hR : ∀ a b, R a b → R' a b) : Both R' r r' := by
  cases r <;> cases r' <;> first | exact h | exact hR _ _ h

theorem of_eq (h : r' = r) (hR : ∀ a, r = .ok a → R a a) : Both R r r' := by
  subst h
  cases r' with
  | ok a => exact hR a rfl
  | error fault => exact rfl

theorem and_eq (h : Both R r r') : Both (fun a b => R a b ∧ r = .ok a) r r' := by
  cases r <;> cases r' <;> first | exact h | exact ⟨h, rfl⟩

theorem bind {k k' : α → Except Fault β} (h : Both (fun a b => Both Q (k a) (k' b)) r r') :
    Both Q (r >>= k) (r' >>= k') := by
  cases r <;> cases r' <;> first | exact h | exact h.elim

/-- A fold over a list, with a relation that knows which elements are done. -/
theorem foldlM {xs : List α} {f f' : β → α → Except Fault β} {I : List α → β → β → Prop}
    (h : ∀ before x after b b', xs = before ++ x :: after → I before b b' →
      Both (I (before ++ [x])) (f b x) (f' b' x)) {b b' : β} (hI : I [] b b') :
    Both (I xs) (xs.foldlM f b) (xs.foldlM f' b') := by
  induction xs generalizing b b' I with
  | nil => exact hI
  | cons x rest ih =>
    rw [List.foldlM_cons, List.foldlM_cons]
    refine .bind ((h [] x rest b b' rfl hI).mono fun b₁ b₁' hI₁ => ?_)
    exact ih (I := fun before => I (x :: before))
      (fun before y after b b' hrest => h (x :: before) y after b b' (by rw [hrest]; rfl)) hI₁

theorem lift {E : σ → σ → Prop} {P : α → σ → α → σ → Prop} {s s' : σ} (h : Both (fun a b => P a s b s') r r') :
    ((Exec.lift r : Exec σ α) s).Twin E P ((Exec.lift r' : Exec σ α) s') := by
  cases r <;> cases r' <;> exact h

end Both

end

/-! ## One lane -/

/-- The lanes agree on the values that have been computed, on the variables, and on the outputs. -/
structure Lane.AgreesOn (program : Program) (ran : Value → Prop) (lane lane' : Lane) : Prop where
  registers : lane'.registers.size = lane.registers.size
  read : ∀ v, ran v → program.valueType? v ≠ some .void → lane'.read v = lane.read v
  vars : lane'.vars.size = lane.vars.size
  readVar : ∀ x, program.varType? x ≠ some .void → lane'.readVar x = lane.readVar x
  outputs : lane'.outputs = lane.outputs

namespace Lane.AgreesOn

variable {program : Program} {ran ran' : Value → Prop} {lane lane' : Lane} {value : Value}

section

variable (h : lane.AgreesOn program ran lane')
include h

theorem mono (hran : ∀ v, ran' v → ran v) : lane.AgreesOn program ran' lane' :=
  ⟨h.registers, fun v hv => h.read v (hran v hv), h.vars, h.readVar, h.outputs⟩

/-- A register can be read on both sides or on neither. -/
theorem read_both (v : Value) : Both (fun _ _ => True) (lane.read v) (lane'.read v) := by
  by_cases hv : v.index < lane.registers.size <;> simp [Lane.read, hv, h.registers, Both]

theorem readVar_both (x : Var) : Both (fun _ _ => True) (lane.readVar x) (lane'.readVar x) := by
  by_cases hx : x.index < lane.vars.size <;> simp [Lane.readVar, hx, h.vars, Both]

/-- A register is set on both sides, to the same unless it has no contents. -/
theorem write {a a' : UInt64} (ha : program.valueType? value ≠ some .void → a' = a) :
    (lane.write value a).AgreesOn program (fun v => ran v ∨ v = value) (lane'.write value a') where
  registers := by simpa [Lane.write] using h.registers
  read v hv hvoid := by
    by_cases hvalue : v = value
    · subst hvalue
      rw [ha hvoid]
      simp only [Lane.read, Lane.write, Array.getElem?_setIfInBounds_self, h.registers]
    · have hindex : value.index ≠ v.index := fun heq => hvalue (by cases v; cases value; cases heq; rfl)
      simp only [Lane.read, Lane.write, Array.getElem?_setIfInBounds_ne hindex]
      exact h.read v (hv.resolve_right hvalue) hvoid
  vars := h.vars
  readVar := h.readVar
  outputs := h.outputs

/-- A variable is set on both sides, to the same unless it has no contents. -/
theorem writeVar {x : Var} {a a' : UInt64} (ha : program.varType? x ≠ some .void → a' = a) :
    Both (fun new new' => new.AgreesOn program ran new') (lane.writeVar x a) (lane'.writeVar x a') := by
  unfold Lane.writeVar
  rw [h.vars]
  split
  · refine ⟨h.registers, h.read, by simpa using h.vars, fun y hy => ?_, h.outputs⟩
    by_cases hxy : x.index = y.index
    · obtain rfl : x = y := by cases x; cases y; cases hxy; rfl
      rw [ha hy]
      simp only [Lane.readVar, Array.getElem?_setIfInBounds_self, h.vars]
    · simp only [Lane.readVar, Array.getElem?_setIfInBounds_ne hxy]
      exact h.readVar y hy
  · exact rfl

/-- There is nothing to agree on in a value without contents. -/
theorem add_void (hvoid : program.valueType? value = some .void) :
    lane.AgreesOn program (fun v => ran v ∨ v = value) lane' where
  registers := h.registers
  read v hv hne := hv.elim (fun hv => h.read v hv hne) fun hv => absurd (hv ▸ hvoid) hne
  vars := h.vars
  readVar := h.readVar
  outputs := h.outputs

end

section

variable {group : Workgroup} {id : LaneId} {visible : Value → Prop} {d : Definition}
  (h : lane.AgreesOn group.program ran lane') (hd : group.program.Supports visible value d)
  (hran : ∀ o ∈ d.instr.operands, ran o)
include h hd hran

/-- An instruction finds the same in its operands, unless it is one that sets a variable. -/
theorem read_operand (hstore : ∀ x a, d.instr ≠ .storeVar x a) {o : Value} (ho : o ∈ d.instr.operands) :
    lane'.read o = lane.read o := by
  refine h.read o (hran o ho) fun hvoid => ?_
  obtain ⟨x, hx⟩ := Instr.exists_storeVar_of_void hvoid hd.type ho
  exact hstore x o hx

/-- An instruction computes the same on both sides, unless its value has no contents. -/
theorem compute (hstore : ∀ x a, d.instr ≠ .storeVar x a) :
    Both (fun a a' => group.program.valueType? value ≠ some .void → a' = a)
      (lane.compute group id d.instr) (lane'.compute group id d.instr) := by
  have hvalue : group.program.valueType? value = some d.type := by
    simp [Program.valueType?, hd.definition]
  have hsame (hvar : ∀ x, d.instr = .loadVar x → lane'.readVar x = lane.readVar x) :
      lane'.compute group id d.instr = lane.compute group id d.instr :=
    Lane.compute_congr (fun o ho => h.read_operand hd hran hstore ho) hvar (fun _ _ => rfl) fun _ => rfl
  by_cases hvoid : d.type = .void
  · -- Only a variable without contents can be different on the two sides.
    by_cases hload : ∃ x, d.instr = .loadVar x
    · obtain ⟨x, hx⟩ := hload
      rw [hx]
      exact (h.readVar_both x).mono fun _ _ _ hne => absurd (hvoid ▸ hvalue) hne
    · exact .of_eq (hsame fun x hx => absurd ⟨x, hx⟩ hload) fun _ _ _ => rfl
  · refine .of_eq (hsame fun x hx => h.readVar x fun hx' => hvoid ?_) fun _ _ _ => rfl
    have htype := hd.type
    rw [hx] at htype
    exact Option.some.inj (htype.symm.trans hx')

/-- An instruction that concerns one lane only leaves the lanes in agreement. -/
theorem execute : Both (fun new new' => new.AgreesOn group.program (fun v => ran v ∨ v = value) new')
      (lane.execute group id value d.instr) (lane'.execute group id value d.instr) := by
  have hvalue : group.program.valueType? value = some d.type := by
    simp [Program.valueType?, hd.definition]
  have htype := hd.type
  have hcomputed (hstore : ∀ x a, d.instr ≠ .storeVar x a) :
      Both (fun new new' => new.AgreesOn group.program (fun v => ran v ∨ v = value) new')
        (do return lane.write value (← lane.compute group id d.instr))
        (do return lane'.write value (← lane'.compute group id d.instr)) :=
    .bind ((h.compute hd hran hstore).mono fun _ _ ha => h.write ha)
  cases hi : d.instr with
  | storeVar x a =>
    rw [hi] at htype hran
    simp only [Program.resultType?, Instr.resultType?, typeWhen, Option.bind_eq_bind, Option.bind_eq_some_iff] at htype
    obtain ⟨τ, hx, σ, ha, hvoid⟩ := htype
    obtain ⟨hsame, hvoid⟩ : τ = σ ∧ d.type = .void := by grind
    have hread : Both (fun b b' => group.program.varType? x ≠ some .void → b' = b) (lane.read a) (lane'.read a) := by
      by_cases hτ : τ = .void
      · exact (h.read_both a).mono fun _ _ _ hne => absurd (hτ ▸ hx) hne
      · refine .of_eq (h.read a (hran a List.mem_cons_self) fun ha' => hτ ?_) fun _ _ _ => rfl
        rw [ha'] at ha
        exact hsame.trans (Option.some.inj ha).symm
    exact .bind (hread.mono fun b b' hb => (h.writeVar hb).mono fun _ _ hnew => hnew.add_void (hvoid ▸ hvalue))
  | intrinsic op =>
    cases op with
    | storeOutput slot a =>
      have hread := h.read_operand hd hran (by simp [hi]) (o := a) (by simp [hi, Instr.operands, Intrinsic.operands])
      rw [hi] at htype
      simp only [Program.resultType?, Instr.resultType?, Intrinsic.resultType?, typeWhen, Option.bind_eq_bind,
        Option.bind_eq_some_iff] at htype
      obtain ⟨τ, ha, hvoid⟩ := htype
      obtain hvoid : d.type = .void := by grind
      refine .bind (.of_eq hread fun b _ => ?_)
      have hnew : Lane.AgreesOn group.program ran { lane with outputs := lane.outputs.insert slot b }
          { lane' with outputs := lane'.outputs.insert slot b } :=
        ⟨h.registers, h.read, h.vars, h.readVar, by rw [h.outputs]⟩
      exact hnew.add_void (hvoid ▸ hvalue)
    | _ =>
      have hstore := hcomputed (by simp [hi])
      rw [hi] at hstore
      exact hstore
  | _ =>
    have hstore := hcomputed (by simp [hi])
    rw [hi] at hstore
    exact hstore

end

end Lane.AgreesOn

/-! ## The lanes of a wave -/

/-- All lanes agree on what each of them has computed. -/
abbrev LanesAgreeOn (program : Program) (ran : Ran) : Array Lane → Array Lane → Prop :=
  LanesRelate fun l => Lane.AgreesOn program (ran l)

namespace LanesAgreeOn

variable {program : Program} {ran : Ran} {lanes lanes' lanes₁ lanes₁' : Array Lane} {k l : Nat} {value : Value}

variable (h : LanesAgreeOn program ran lanes lanes')
include h

/-- What a lane has computed is the same on both sides. -/
theorem read {v : Value} (hran : ran l v)
    (hvoid : program.valueType? v ≠ some .void) : readRegister lanes' l v = readRegister lanes l v :=
  h.readRegister_eq fun _ _ hlane => hlane.read v hran hvoid

theorem serve (hcount : lanes₁.size = lanes.size)
    (hcount' : lanes₁'.size = lanes'.size) (hother : ∀ l, l ≠ k → lanes₁[l]? = lanes[l]?)
    (hother' : ∀ l, l ≠ k → lanes₁'[l]? = lanes'[l]?)
    (hk : ∀ new new', lanes₁[k]? = some new → lanes₁'[k]? = some new' →
      new.AgreesOn program (fun v => ran k v ∨ v = value) new') :
    LanesAgreeOn program (ran.add [k] value) lanes₁ lanes₁' := by
  refine ⟨by rw [hcount', h.count, hcount], fun l lane lane' hl hl' => ?_⟩
  by_cases hlk : l = k
  · subst hlk
    exact (hk lane lane' hl hl').mono fun v hv => hv.imp_right fun hv => hv.2
  · rw [hother l hlk] at hl
    rw [hother' l hlk] at hl'
    exact (h.lane l lane lane' hl hl').mono fun v hv => hv.resolve_right fun hv =>
      hlk (List.mem_singleton.mp hv.1)

theorem writeRegister {a a' : UInt64} (ha : program.valueType? value ≠ some .void → a' = a) :
    LanesAgreeOn program (ran.add [k] value) (writeRegister lanes k value a) (writeRegister lanes' k value a') := by
  refine h.serve (k := k) (by simp [PrimitiveShader.writeRegister]) (by simp [PrimitiveShader.writeRegister])
    (fun l hl => ?_) (fun l hl => ?_) fun new new' hnew hnew' => ?_
  · simp [PrimitiveShader.writeRegister, Array.getElem?_modify, Ne.symm hl]
  · simp [PrimitiveShader.writeRegister, Array.getElem?_modify, Ne.symm hl]
  · simp only [PrimitiveShader.writeRegister, Array.getElem?_modify, ↓reduceIte, Option.map_eq_some_iff] at hnew hnew'
    obtain ⟨lane, hlane, rfl⟩ := hnew
    obtain ⟨lane', hlane', rfl⟩ := hnew'
    exact (h.lane k lane lane' hlane hlane').write ha

theorem modifyM {f f' : Lane → Except Fault Lane} (hf : ∀ lane lane', lane.AgreesOn program (ran k) lane' →
      Both (fun new new' => new.AgreesOn program (fun v => ran k v ∨ v = value) new') (f lane) (f' lane')) :
    Both (LanesAgreeOn program (ran.add [k] value)) (lanes.modifyM k f) (lanes'.modifyM k f') := by
  unfold Array.modifyM
  by_cases hk : k < lanes.size
  · have hk' : k < lanes'.size := h.count.symm ▸ hk
    rw [dif_pos hk, dif_pos hk']
    have hlane := h.lane k _ _ (Array.getElem?_eq_getElem hk) (Array.getElem?_eq_getElem hk')
    refine .bind ((hf _ _ hlane).mono fun new new' hnew => ?_)
    refine h.serve (k := k) (by simp) (by simp) (fun l hl => Array.getElem?_set_ne hk (Ne.symm hl))
      (fun l hl => Array.getElem?_set_ne hk' (Ne.symm hl)) fun lane lane' hlane hlane' => ?_
    simp only [Array.getElem?_set, ↓reduceIte, Option.some.injEq] at hlane hlane'
    exact hlane ▸ hlane' ▸ hnew
  · have hk' : ¬ k < lanes'.size := h.count.symm ▸ hk
    rw [dif_neg hk, dif_neg hk']
    refine h.serve (k := k) rfl rfl (fun _ _ => rfl) (fun _ _ => rfl) fun new _ hnew => ?_
    rw [Array.getElem?_eq_none (Nat.le_of_not_lt hk)] at hnew
    cases hnew

end LanesAgreeOn

/-! ## Waves -/

/-- Whether an intrinsic does something beyond the lanes and nothing to them. -/
def Intrinsic.isEffect : Intrinsic → Bool
  | storeShared _ _ _ | queryAdd _ _ | allocate _ _ | exportPrimitive _ | exportVertex => true
  | _ => false

theorem Intrinsic.void_of_isEffect {op : Intrinsic} {types : Value → Option ScalarType} {type : ScalarType}
    (heffect : op.isEffect) (ht : op.resultType? types = some type) : type = .void := by
  have hwhen {condition : Bool} (h : typeWhen condition .void = some type) : type = .void := by
    grind [typeWhen]
  cases op with
  | exportVertex => exact (Option.some.inj ht).symm
  | storeShared _ _ _ | allocate _ _ =>
    simp only [resultType?, pairType?, Option.bind_eq_bind, Option.bind_eq_some_iff] at ht
    obtain ⟨_, _, _, _, ht⟩ := ht
    exact hwhen ht
  | queryAdd _ _ | exportPrimitive _ =>
    simp only [resultType?, Option.bind_eq_bind, Option.bind_eq_some_iff] at ht
    obtain ⟨_, _, ht⟩ := ht
    exact hwhen ht
  | _ => cases heffect

/-- The waves differ in nothing but registers that a lane has not set yet. -/
abbrev Wave.Alongside (program : Program) (ran : Ran) : Wave → Wave → Prop :=
  Relates fun l => Lane.AgreesOn program (ran l)

/-- Every lane that is on has computed the value, which has contents. -/
def Wave.Has (program : Program) (ran : Ran) (w : Wave) (v : Value) : Prop :=
  (∀ l ∈ w.exec.lanes, ran l v) ∧ program.valueType? v ≠ some .void

namespace Wave.Alongside

variable {program : Program} {group : Workgroup} {ran : Ran} {w w' : Wave} {value : Value}

section

variable {v : Value}

variable (h : w.Alongside program ran w')
include h

/-- Every lane that is on changes its state. -/
theorem updateLanes {f f' : Nat → Lane → Except Fault Lane}
    (hf : ∀ l ∈ w.exec.lanes, ∀ lane lane', lane.AgreesOn program (ran l) lane' →
      Both (fun new new' => new.AgreesOn program (fun v => ran l v ∨ v = value) new') (f l lane) (f' l lane')) :
    Both (Alongside program (ran.add w.exec.lanes value)) (w.updateLanes f) (w'.updateLanes f') := by
  rw [h.same]
  refine .bind (.mono (.foldlM (I := fun before => LanesAgreeOn program (ran.add before value)) ?_ ?_)
    fun lanes lanes' hlanes => ⟨rfl, hlanes⟩)
  · intro before l after lanes lanes' hexec hlanes
    have hl : l ∈ w.exec.lanes := by simp [hexec]
    rw [← Ran.add_append]
    exact LanesAgreeOn.modifyM hlanes fun lane lane' hlane =>
      (hf l hl lane lane' (hlane.mono fun v hv => .inl hv)).mono fun new new' hnew =>
        hnew.mono fun v hv => hv.elim (fun hv => hv.imp_right fun hv => hv.2) .inr
  · rw [Ran.add_nil]
    exact h.lanes

/-- Every lane that is on gets a result of its own, the same on both sides. -/
theorem assign (f : Nat → UInt64) :
    Both (Alongside program (ran.add w.exec.lanes value)) (w.assign value f) (w'.assign value f) :=
  h.updateLanes fun _ _ _ _ hlane => hlane.write fun _ => rfl

variable (hv : w.Has program ran v)
include hv

/-- The lanes that are on have the same there. -/
theorem read {l : Nat}
    (hl : l ∈ w.exec.lanes) : readRegister w'.lanes l v = readRegister w.lanes l v :=
  LanesAgreeOn.read h.lanes (hv.1 l hl) hv.2

theorem maskOf_eq : w'.maskOf v = w.maskOf v :=
  maskOf_congr h.exec_eq fun _ hl => h.read hv hl

theorem sumOf_eq : w'.sumOf v = w.sumOf v :=
  sumOf_congr h.exec_eq fun _ hl => h.read hv hl

end

/-! ### Instructions -/

section

variable (h : w.Alongside group.program ran w')
include h

/-- A cross-lane operation, other than one that reads from a lane that may be off. -/
theorem crossLane {op : CrossLaneOp}
    (hop : ∀ o ∈ op.operands, w.Has group.program ran o) (hon : w.exec.isEmpty = false)
    (hread : ∀ source index, op ≠ .readLane source index) :
    Both (Alongside group.program (ran.add w.exec.lanes value)) (w.crossLane group value op)
      (w'.crossLane group value op) := by
  cases op with
  | ballot predicate type =>
    exact .bind (.of_eq (h.maskOf_eq (hop predicate List.mem_cons_self)) fun mask _ => h.assign _)
  | maskedBitCount mask =>
    have hmask := hop mask List.mem_cons_self
    refine h.updateLanes fun l hl lane lane' hlane => ?_
    exact .bind (.of_eq (hlane.read mask (hmask.1 l hl) hmask.2) fun bits _ => hlane.write fun _ => rfl)
  | readLane source index => exact absurd rfl (hread source index)
  | readFirstLane source =>
    obtain ⟨l, hl, hlowest⟩ := LaneMask.exists_lowest hon
    have hsource := h.read (hop source List.mem_cons_self) hl
    unfold Wave.crossLane
    simp only [h.exec_eq, hlowest, Option.getD_some]
    exact .bind (.of_eq hsource fun data _ => h.assign _)
  | elect =>
    unfold Wave.crossLane
    rw [h.exec_eq]
    exact h.assign _
  | reduceAdd source =>
    refine .bind (.of_eq rfl fun type _ => ?_)
    exact .bind (.of_eq (h.sumOf_eq (hop source List.mem_cons_self)) fun sum _ => h.assign _)

theorem loadShared {addr : Value} (hv : w.Has group.program ran addr)
    (base : UInt32) (type : ScalarType) (s : Shared) :
    (w.loadShared group value addr base type s).Twin (fun s s' => s' = s)
      (fun u t u' t' => u.Alongside group.program (ran.add w.exec.lanes value) u' ∧ t' = t)
      (w'.loadShared group value addr base type s) := by
  rw [h.same]
  refine .bind (.mono (.foldlM (I := fun before lanes s lanes' s' =>
    LanesAgreeOn group.program (ran.add before value) lanes lanes' ∧ s' = s) ?_ ⟨?_, rfl⟩)
    fun lanes t lanes' t' _ _ ⟨hlanes, ht⟩ => ⟨⟨rfl, hlanes⟩, ht⟩)
  · rintro before l after lanes s lanes' _ hexec ⟨hlanes, rfl⟩
    have haddr : readRegister lanes' l addr = readRegister lanes l addr :=
      LanesAgreeOn.read hlanes (.inl (hv.1 l (by simp [hexec]))) hv.2
    rw [haddr]
    refine .bind (.lift fun offset _ => .bind (.lift fun at_ _ => .bind (.refl (fun _ => rfl) fun data t _ => ?_)))
    refine .bind (.refl (fun _ => rfl) fun _ t _ => ⟨?_, rfl⟩)
    rw [← Ran.add_append]
    exact LanesAgreeOn.writeRegister hlanes fun _ => rfl
  · rw [Ran.add_nil]
    exact h.lanes

theorem storeShared_eq {data addr : Value}
    (hdata : w.Has group.program ran data) (haddr : w.Has group.program ran addr) (base : UInt32) :
    w'.storeShared group data addr base = w.storeShared group data addr base := by
  unfold storeShared
  rw [h.exec_eq, h.id_eq]
  refine bind_congr fun type => Exec.forM_congr fun l hl => ?_
  rw [h.read hdata hl, h.read haddr hl]

end

section

variable (h : w.Alongside program ran w')
include h

theorem allocate_eq {vertices primitives : Value}
    (hvertices : w.Has program ran vertices) (hprimitives : w.Has program ran primitives) :
    w'.allocate vertices primitives = w.allocate vertices primitives := by
  unfold allocate
  rw [h.exec_eq, h.id_eq]
  refine Exec.forM_congr fun l hl => ?_
  rw [h.read hvertices hl, h.read hprimitives hl]

theorem exportPrimitives_eq {word : Value} (hword : w.Has program ran word) :
    w'.exportPrimitives group word = w.exportPrimitives group word := by
  unfold exportPrimitives
  rw [h.exec_eq, h.id_eq]
  refine Exec.forM_congr fun l hl => ?_
  rw [h.read hword hl]

theorem exportVertices_eq : w'.exportVertices group = w.exportVertices group := by
  unfold exportVertices
  rw [h.exec_eq, h.id_eq]
  refine Exec.forM_congr fun l hl => ?_
  rw [h.lanes.map_eq (f := Option.map (·.outputs)) fun _ _ hlane => congrArg some hlane.outputs]

/-- There is nothing to agree on in a value without contents. -/
theorem add_void (hvoid : program.valueType? value = some .void)
    (lanes : List Nat) : w.Alongside program (ran.add lanes value) w' where
  same := h.same
  lanes := ⟨h.lanes.count, fun l lane lane' hl hl' =>
    ((h.lanes.lane l lane lane' hl hl').add_void hvoid).mono fun _ hv => hv.imp_right fun hv => hv.2⟩

end

section

variable {visible : Value → Prop} {d : Definition} (h : w.Alongside group.program ran w')
  (hd : group.program.Supports visible value d) (hran : ∀ l ∈ w.exec.lanes, ∀ o ∈ d.instr.operands, ran l o)
include h hd hran

/-- An instruction of one lane, run on every lane that is on. -/
theorem executeLanes : Both (Alongside group.program (ran.add w.exec.lanes value))
      (w.updateLanes fun lane => Lane.execute group (laneId group w.id lane) value d.instr)
      (w'.updateLanes fun lane => Lane.execute group (laneId group w'.id lane) value d.instr) := by
  rw [h.id_eq]
  exact h.updateLanes fun l hl _ _ hlane => hlane.execute hd (hran l hl)

/-- An instruction does the same to both waves, and leaves them in agreement on its value. -/
theorem execute (hon : w.exec.isEmpty = false)
    (hread : ∀ source index, d.instr ≠ .intrinsic (.crossLane (.readLane source index))) (s : Shared) :
    (w.execute group value d.instr s).Twin (fun s s' => s' = s)
      (fun u t u' t' => u.Alongside group.program (ran.add w.exec.lanes value) u' ∧ t' = t)
      (w'.execute group value d.instr s) := by
  have hvalue : group.program.valueType? value = some d.type := by
    simp [Program.valueType?, hd.definition]
  have lanes : ((Exec.lift (w.updateLanes fun lane => Lane.execute group (laneId group w.id lane) value d.instr) :
        Exec Shared Wave) s).Twin (fun s s' => s' = s)
        (fun u t u' t' => u.Alongside group.program (ran.add w.exec.lanes value) u' ∧ t' = t)
        ((Exec.lift (w'.updateLanes fun lane => Lane.execute group (laneId group w'.id lane) value d.instr) :
          Exec Shared Wave) s) :=
    Both.lift ((h.executeLanes hd hran).mono fun _ _ hu => ⟨hu, rfl⟩)
  -- An instruction without a result leaves the lanes alone.
  have effect (hvoid : d.type = .void) {run run' : Exec Shared Unit} (heq : run' = run) :
      ((do run; return w : Exec Shared Wave) s).Twin (fun s s' => s' = s)
        (fun u t u' t' => u.Alongside group.program (ran.add w.exec.lanes value) u' ∧ t' = t)
        ((do run'; return w' : Exec Shared Wave) s) := by
    subst heq
    exact .bind (.refl (fun _ => rfl) fun _ t _ => ⟨h.add_void (hvoid ▸ hvalue) _, rfl⟩)
  have has (hstore : ∀ x a, d.instr ≠ .storeVar x a) (o : Value) (ho : o ∈ d.instr.operands) :
      w.Has group.program ran o := by
    refine ⟨fun l hl => hran l hl o ho, fun hvoid => ?_⟩
    obtain ⟨x, hx⟩ := Instr.exists_storeVar_of_void hvoid hd.type ho
    exact hstore x o hx
  have htype := hd.type
  cases hi : d.instr with
  | intrinsic op =>
    rw [hi] at htype has lanes
    replace has := has (by simp)
    replace htype : op.resultType? group.program.valueType? = some d.type := htype
    cases op with
    | crossLane op =>
      exact Both.lift ((h.crossLane has hon fun source index hop => hread source index (hop ▸ hi)).mono
        fun _ _ hu => ⟨hu, rfl⟩)
    | loadShared addr base type => exact h.loadShared (has addr List.mem_cons_self) base type s
    | storeShared data addr base =>
      refine effect (Intrinsic.void_of_isEffect rfl htype) (h.storeShared_eq ?_ ?_ base)
      · exact has data List.mem_cons_self
      · exact has addr (List.mem_cons_of_mem _ List.mem_cons_self)
    | barrier => rfl
    | queryAdd stream count =>
      refine effect (Intrinsic.void_of_isEffect rfl htype) (queryAdd_congr h.exec_eq (fun _ hl => ?_) stream)
      exact h.read (has count List.mem_cons_self) hl
    | allocate vertices primitives =>
      refine effect (Intrinsic.void_of_isEffect rfl htype) (h.allocate_eq ?_ ?_)
      · exact has vertices List.mem_cons_self
      · exact has primitives (List.mem_cons_of_mem _ List.mem_cons_self)
    | exportPrimitive word =>
      exact effect (Intrinsic.void_of_isEffect rfl htype) (h.exportPrimitives_eq (has word List.mem_cons_self))
    | exportVertex => exact effect (Intrinsic.void_of_isEffect rfl htype) h.exportVertices_eq
    | geometry op => exact ⟨rfl, rfl⟩
    | input input => exact lanes
    | storeOutput slot data => exact lanes
  | const | undef | unary | binary | select | convert | extract | loadVar | storeVar =>
    rw [hi] at lanes
    exact lanes

end

end Wave.Alongside

end PrimitiveShader
