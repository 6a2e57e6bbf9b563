import PrimitiveShader.Proofs.Arithmetic
import PrimitiveShader.Proofs.Emission.Precondition

/-!
# The instructions of emitted code

One rule for each action that emits an instruction: what the thread knows about the operands, and
what it knows afterwards. The rules of arithmetic all follow from one about computed values
(`Emit.wp_computed`).
-/

namespace PrimitiveShader

variable {instr : Instr}

theorem Instr.isLaneLocal_of_isComputed (h : instr.isComputed) : instr.isLaneLocal := by
  cases instr with
  | intrinsic op => cases op <;> first | rfl | cases h
  | storeVar var a => cases h
  | const | undef | unary | binary | select | convert | extract | loadVar => rfl

theorem Lane.execute_of_isComputed {group : Workgroup} {id : LaneId} {value : Value}
    (h : instr.isComputed) (lane : Lane) : lane.execute group id value instr =
      (lane.compute group id instr >>= fun a => pure (lane.write value a)) := by
  cases instr with
  | intrinsic op => cases op <;> first | rfl | cases h
  | storeVar var a => cases h
  | const | undef | unary | binary | select | convert | extract | loadVar => rfl

namespace Emit

variable {c : Setting} {id : LaneId} {p : Program} {t : Thread} {L : Thread → Prop}
  {Q : Value → Program → Thread → Prop} {p' : Program} {τ type : ScalarType}

/-- A register of its own for every instruction. -/
theorem computed_write (h : p.Within p') (a : UInt64) : Computed p t p' (t.write ⟨p.definitions.size⟩ a) where
  within := h
  read v hv := by
    have hne : p.definitions.size ≠ v.index := by omega
    simp [Thread.write, Thread.withLane, Lane.read, Lane.write, hne]
  vars := rfl
  outputs := rfl
  view := rfl
  primitives := rfl
  vertices := rfl
  space := rfl

/-- The value of a new instruction is known. -/
theorem knows_write {a : UInt64} (h : p.Gains instr p') (hw : p'.Within c.program) (hs : t.Sized c)
    (ht : p.resultType? instr = some τ) (hconst : ∀ k, instr.constant? = some k → k = a) :
    Knows p' (t.write ⟨p.definitions.size⟩ a) ⟨p.definitions.size⟩ τ a where
  typeOf := by simpa [ht] using h.typeOf
  read := by
    have hlt : p.definitions.size < t.lane.registers.size := by
      rw [hs.registers]
      exact Nat.lt_of_lt_of_le (Program.lt_of_typeOf h.typeOf) hw.size_le
    simp [Thread.write, Thread.withLane, Lane.read, Lane.write, hlt]
  constant instr' hi := by
    rw [h.instr] at hi
    cases hi
    exact hconst

theorem wp_computed (hi : instr.isComputed) (ht : p.resultType? instr = some τ)
    (h : p.Within c.program → Yields c.faults (fun a => Learns p t τ a Q)
      (t.lane.compute c.group id instr)) : Emit.wp c id (push instr) p Q L t := by
  refine wp_push fun p' hgains hw hs => ?_
  rw [Instr.wp_of_isLaneLocal (Instr.isLaneLocal_of_isComputed hi), Lane.execute_of_isComputed hi]
  refine Yields.bind_iff.mpr ((h (hgains.toWithin.trans hw)).mono fun a ha hQ => ?_)
  refine hQ _ p' _ (computed_write hgains.toWithin a) (knows_write hgains hw hs ht fun k hk => ?_)
  cases instr with
  | const type b =>
    cases hk
    cases ha
    rfl
  | undef | unary | binary | select | convert | extract | loadVar | storeVar | intrinsic => cases hk

/-! ## Arithmetic -/

section

variable {value : UInt64} {op : BinaryOp} {a b cond : Value} {tyA tyB : ScalarType} {x y z : UInt64}

theorem wp_imm (hQ : Learns p t type (value &&& type.mask) Q) : Emit.wp c id (imm type value) p Q L t :=
  wp_computed rfl rfl fun _ => hQ

theorem wp_imm32 {value : Nat} (hv : value < 2 ^ 32) (hQ : Learns p t .u32 (UInt64.ofNat value) Q) :
    Emit.wp c id (imm32 value) p Q L t := by
  refine wp_imm fun v p' t' hc hk => hQ v p' t' hc ?_
  rwa [ofNat_and_mask hv] at hk

theorem wp_undef (hQ : Learns p t type 0 Q) : Emit.wp c id (undef type) p Q L t :=
  wp_computed rfl rfl fun _ => hQ

theorem wp_unary {op : UnaryOp} (ha : Knows p t a tyA x) (hop : op.resultType? tyA = some type)
    (hQ : Learns p t type (op.eval x) Q) : Emit.wp c id (unary op a) p Q L t := by
  refine wp_computed (τ := type) rfl ?_ fun _ => ?_
  · simp [Program.resultType?, Instr.resultType?, Program.valueType?_eq_some_iff.mpr ha.typeOf, hop]
  · simp only [Lane.compute, ha.read]
    exact hQ

theorem wp_binary (ha : Knows p t a tyA x) (hb : Knows p t b tyB y)
    (hop : op.resultType? tyA tyB = some type) (hQ : Learns p t type (op.eval tyA x y) Q) :
    Emit.wp c id (binary op a b) p Q L t := by
  refine wp_computed (τ := type) rfl ?_ fun hw => ?_
  · simp [Program.resultType?, Instr.resultType?, Program.valueType?_eq_some_iff.mpr ha.typeOf,
      Program.valueType?_eq_some_iff.mpr hb.typeOf, hop]
  · have htype : c.group.program.typeOf a = .ok tyA := hw.typeOf_eq ha.typeOf
    simp only [Lane.compute, htype, ha.read, hb.read]
    exact hQ

theorem wp_typeOf {Q : ScalarType → Program → Thread → Prop} (ht : p.typeOf a = .ok type)
    (hQ : Q type p t) : Emit.wp c id (typeOf a) p Q L t := by
  refine wp_bind (wp_get (wp_lift fun type' ht' => ?_))
  rw [ht] at ht'
  cases ht'
  exact hQ

theorem wp_binaryImm (ha : Knows p t a tyA x)
    (hop : op.resultType? tyA tyA = some type) (hQ : ∀ v p' t', Computed p t p' t' →
      Knows p' t' v type (op.eval tyA x (value &&& tyA.mask)) → Q v p' t') :
    Emit.wp c id (binaryImm op a value) p Q L t := by
  refine wp_bind (wp_typeOf ha.typeOf (wp_bind (wp_imm fun b p₁ t₁ h₁ hb => ?_)))
  exact wp_binary (ha.computed h₁) hb hop fun v p₂ t₂ h₂ hv => hQ v p₂ t₂ (h₁.trans h₂) hv

theorem wp_shlImm {shift : Nat} (ha : Knows p t a tyA x) (hint : tyA.isInt) (hs : shift < 2 ^ 32)
    (hQ : ∀ v p' t', Computed p t p' t' →
      Knows p' t' v tyA (BinaryOp.shl.eval tyA x (UInt64.ofNat shift)) → Q v p' t') :
    Emit.wp c id (shlImm a shift) p Q L t := by
  refine wp_bind (wp_imm32 hs fun b p₁ t₁ h₁ hb => ?_)
  refine wp_binary (ha.computed h₁) hb ?_ fun v p₂ t₂ h₂ hv => hQ v p₂ t₂ (h₁.trans h₂) hv
  simp [BinaryOp.resultType?, typeWhen, hint, show ScalarType.u32.isInt = true from rfl]

theorem wp_select (hc : Knows p t cond .bool z) (ha : Knows p t a tyA x) (hb : Knows p t b tyA y) (hne : tyA ≠ .void)
    (hQ : Learns p t tyA (if z = 0 then y else x) Q) :
    Emit.wp c id (select cond a b) p Q L t := by
  refine wp_computed (τ := tyA) rfl ?_ fun _ => ?_
  · simp [Program.resultType?, Instr.resultType?, Program.valueType?_eq_some_iff.mpr ha.typeOf,
      Program.valueType?_eq_some_iff.mpr hb.typeOf, Program.valueType?_eq_some_iff.mpr hc.typeOf, typeWhen, hne]
  · have hcompute : t.lane.compute c.group id (.select cond a b) = .ok (if z = 0 then y else x) := by
      by_cases hz : z = 0
      · simp only [Lane.compute, hc.read, hb.read, hz, ↓reduceIte]
        rfl
      · simp only [Lane.compute, hc.read, ha.read, hz, ↓reduceIte]
        simp [bind, Except.bind, hz]
    rw [hcompute]
    exact hQ

/-- A change of type; a value of that type is taken as it is. -/
theorem wp_convert (ha : Knows p t a tyA x) (hA : tyA ≠ .void) (hne : type ≠ .void)
    (hQ : Learns p t type (if tyA = type then x else type.convert x) Q) :
    Emit.wp c id (convert a type) p Q L t := by
  refine wp_bind (wp_typeOf ha.typeOf ?_)
  by_cases heq : tyA = type
  · subst heq
    simp only [↓reduceIte] at hQ ⊢
    exact wp_pure (hQ a p t (.refl p t) ha)
  · simp only [heq, ↓reduceIte] at hQ ⊢
    refine wp_computed (τ := type) rfl ?_ fun _ => ?_
    · simp [Program.resultType?, Instr.resultType?, Program.valueType?_eq_some_iff.mpr ha.typeOf, typeWhen, hA, hne]
    · simp only [Lane.compute, ha.read]
      exact hQ

theorem wp_extract {offset bits : UInt8} (ha : Knows p t a tyA x) (hint : tyA.isInt)
    (hbits : offset.toNat + bits.toNat ≤ tyA.bits) (hoffset : offset.toNat < 64) (hQ : ∀ v p' t', Computed p t p' t' →
      Knows p' t' v tyA ((x >>> offset.toUInt64) &&& Bits.lowOnes bits.toNat) → Q v p' t') :
    Emit.wp c id (extract a offset bits) p Q L t := by
  refine wp_computed (τ := tyA) rfl ?_ fun _ => ?_
  · simp [Program.resultType?, Instr.resultType?, Program.valueType?_eq_some_iff.mpr ha.typeOf, typeWhen, hint, hbits]
  · simp only [Lane.compute, ha.read]
    change Yields c.faults _ (if offset.toNat < 64 then _ else _)
    rw [if_pos hoffset]
    exact hQ

end

/-! ## Inputs and variables -/

theorem wp_input {input : LaneInput} (h : Yields c.faults
      (fun a => Learns p t input.type a Q) (input.eval c.group id)) : Emit.wp c id (Emit.input input) p Q L t :=
  wp_computed (τ := input.type) rfl rfl fun _ => h

theorem wp_run {Q : Unit → Program → Thread → Prop} (h : ∀ p', p.Within p' → p'.Within c.program → t.Sized c →
      instr.wp c id ⟨p.definitions.size⟩ (Q () p') t) : Emit.wp c id (run instr) p Q L t :=
  wp_bind (wp_push fun p' hgains hw hs =>
    Instr.wp_mono (h p' hgains.toWithin hw hs) fun _ hu => wp_pure hu)

theorem wp_createVar {name : String} {Q : Var → Program → Thread → Prop}
    (hQ : ∀ var p', p.Within p' → var.index = p.vars.size → p'.varType? var = some type → Q var p' t) :
    Emit.wp c id (createVar name type) p Q L t := by
  intro _ var p' hp _
  have hgrows := (createVar name type).grows hp
  cases hp
  rw [List.drop_length, Block.wp_nil]
  exact hQ _ _ hgrows.toWithin rfl (by simp [Program.varType?, Program.var?])

theorem wp_loadVar {var : Var} {x : UInt64} (ht : p.varType? var = some type) (hx : t.lane.readVar var = .ok x)
    (hQ : Learns p t type x Q) : Emit.wp c id (loadVar var) p Q L t := by
  refine wp_computed (τ := type) rfl ht fun _ => ?_
  rw [show t.lane.compute c.group id (.loadVar var) = t.lane.readVar var from rfl, hx]
  exact hQ

end Emit

namespace Thread

/-- A variable is set. -/
def setVar (t : Thread) (var : Var) (a : UInt64) : Thread :=
  { t with lane := { t.lane with vars := t.lane.vars.setIfInBounds var.index a } }

/-- An output is stored. -/
def setOutput (t : Thread) (slot : OutputSlot) (a : UInt64) : Thread :=
  { t with lane := { t.lane with outputs := t.lane.outputs.insert slot a } }

theorem readVar_setVar_of_ne (t : Thread) {var other : Var} (h : var.index ≠ other.index)
    (a : UInt64) : (t.setVar var a).lane.readVar other = t.lane.readVar other := by
  simp [setVar, Lane.readVar, h]

theorem readVar_setVar {t : Thread} {var : Var} (h : var.index < t.lane.vars.size) (a : UInt64) :
    (t.setVar var a).lane.readVar var = .ok a := by
  simp [setVar, Lane.readVar, h]

end Thread

namespace Emit

variable {c : Setting} {id : LaneId} {p : Program} {t : Thread} {L : Thread → Prop} {Q : Unit → Program → Thread → Prop}
  {a : Value} {type : ScalarType} {x : UInt64} {τ : ScalarType} {base : UInt32}

theorem wp_storeVar {var : Var} (ht : p.varType? var = some τ) (ha : t.lane.read a = .ok x)
    (hQ : ∀ p', Later p t p' (t.setVar var x) → (t.setVar var x).lane.readVar var = .ok x → Q () p' (t.setVar var x)) :
    Emit.wp c id (storeVar var a) p Q L t := by
  refine wp_run fun p' hp hw hs => ?_
  have hlt : var.index < t.lane.vars.size := by
    rw [hs.vars]
    exact Nat.lt_of_lt_of_le (Program.lt_of_varType? ht) (hp.trans hw).vars_size_le
  rw [Instr.wp_of_isLaneLocal rfl]
  simp only [Lane.execute, ha]
  change Yields c.faults _ (t.lane.writeVar var x)
  rw [Lane.writeVar, if_pos hlt]
  exact hQ p' (.of_registers hp rfl) (Thread.readVar_setVar hlt x)

theorem wp_storeOutput {slot : OutputSlot} (ha : Knows p t a type x)
    (hQ : ∀ p', Later p t p' (t.setOutput slot x) → Q () p' (t.setOutput slot x)) :
    Emit.wp c id (effect (.storeOutput slot a)) p Q L t := by
  refine wp_run fun p' hp hw hs => ?_
  rw [Instr.wp_of_isLaneLocal rfl]
  simp only [Lane.execute, ha.read]
  exact hQ p' (.of_registers hp rfl)

/-! ## Exports and memory -/

theorem wp_exportPrimitive (ha : Knows p t a type x)
    (hQ : ∀ p', p.Within p' → Q () p' { t with primitives := t.primitives ++ [⟨x.toUInt32⟩] }) :
    Emit.wp c id (effect (.exportPrimitive a)) p Q L t := by
  refine wp_run fun p' hp hw hs => ?_
  simp only [Instr.wp, ha.read]
  exact hQ p' hp

theorem wp_exportVertex (hQ : ∀ p', p.Within p' → Q () p' { t with vertices := t.vertices ++ [t.lane.outputs] }) :
    Emit.wp c id (effect .exportVertex) p Q L t :=
  wp_run fun p' hp _ _ => hQ p' hp

theorem wp_loadShared {Q : Value → Program → Thread → Prop} (ha : Knows p t a .u32 x) (hint : τ.isInt)
    (hlt : base.toNat + x.toNat < 2 ^ 64) (hshare : base.toNat + x.toNat + τ.bytes ≤ c.program.sharedSize)
    (hfree : ∀ j < τ.bytes, c.own (base.toNat + x.toNat + j) = none) (hQ : ∀ v p' t', Computed p t p' t' →
      Knows p' t' v τ (littleEndian t.view (base.toNat + x.toNat) τ.bytes 0) → Q v p' t') :
    Emit.wp c id (intrinsic (.loadShared a base τ)) p Q L t := by
  refine wp_push fun p' hgains hw hs => ?_
  have hresult : p.resultType? (.intrinsic (.loadShared a base τ)) = some τ := by
    simp [Program.resultType?, Instr.resultType?, Intrinsic.resultType?,
      Program.valueType?_eq_some_iff.mpr ha.typeOf, typeWhen, hint]
  simp only [Instr.wp, Thread.loadAccess, ha.read]
  change Yields c.faults _ (Wave.address base x >>= _)
  rw [show Wave.address base x = .ok (base.toNat + x.toNat) from if_pos hlt]
  refine ⟨hshare, hfree, ?_⟩
  exact hQ _ p' _ (computed_write hgains.toWithin _) (knows_write hgains hw hs hresult nofun)

theorem wp_storeShared {b : Value} {y : UInt64} (ha : Knows p t a .u32 x)
    (hb : Knows p t b type y) (hlt : base.toNat + x.toNat < 2 ^ 64)
    (hshare : base.toNat + x.toNat + type.bytes ≤ c.program.sharedSize)
    (hown : ∀ j < type.bytes, c.own (base.toNat + x.toNat + j) = some id.index) (hQ : ∀ p', p.Within p' →
      Q () p' { t with view := overwrite t.view (base.toNat + x.toNat) type.bytes y }) :
    Emit.wp c id (effect (.storeShared b a base)) p Q L t := by
  refine wp_run fun p' hp hw hs => ?_
  have htype : c.program.typeOf b = .ok type := (hp.trans hw).typeOf_eq hb.typeOf
  simp only [Instr.wp, Thread.storeAccess, htype, ha.read, hb.read]
  change Yields c.faults _ (Wave.address base x >>= _)
  rw [show Wave.address base x = .ok (base.toNat + x.toNat) from if_pos hlt]
  exact ⟨hshare, hown, hQ p' hp⟩

/-- A cross-lane operation, of whose result nothing is known. -/
theorem wp_crossLane {Q : Value → Program → Thread → Prop} {op : CrossLaneOp}
    (hop : ∀ v ∈ op.operands, v.index < p.definitions.size) (ht : p.resultType? (.intrinsic (.crossLane op)) = some τ)
    (hQ : ∀ v p' t' a, Computed p t p' t' → Knows p' t' v τ a → Q v p' t') : Emit.wp c id (crossLane op) p Q L t := by
  refine wp_push fun p' hgains hw hs => ?_
  refine ⟨.inr fun v hv => ?_, fun y => ?_⟩
  · exact Nat.lt_of_lt_of_le (hop v hv) (hgains.toWithin.trans hw).size_le
  · exact hQ _ p' _ y (computed_write hgains.toWithin y) (knows_write hgains hw hs ht nofun)

theorem wp_queryAdd {stream : UInt8} (hs : stream.toNat < 4) (ha : Knows p t a type x)
    (hQ : ∀ p', p.Within p' → Q () p' t) : Emit.wp c id (effect (.queryAdd stream a)) p Q L t := by
  refine wp_run fun p' hp _ _ => ?_
  simp only [Instr.wp, Thread.queryCount, hs, ↓reduceIte, ha.read]
  exact hQ p' hp

end Emit

end PrimitiveShader
