import PrimitiveShader.Proofs.Lowering.Geometry.Plan
import PrimitiveShader.Proofs.Lowering.Region
import PrimitiveShader.Proofs.Lowering.Subgroup
import PrimitiveShader.Proofs.Scalar.Run

/-!
# The code that stages vertices

What the events of an invocation do to the bytes of its places (`GeometryPlan.afterEvent`), and one rule
for each action that emits code for an event: the code does to the thread's view what the event is said
to do, and touches nothing else than variables of its own.
-/

namespace PrimitiveShader

/-- Between the two the thread has computed values and set some variables. -/
structure Adjusted (touched : Var → Prop) (p : Program) (t : Thread) (p' : Program) (t' : Thread) :
    Prop extends Later p t p' t' where
  vars : ∀ x : Var, ¬ touched x → t'.lane.readVar x = t.lane.readVar x
  outputs : t'.lane.outputs = t.lane.outputs
  view : t'.view = t.view
  primitives : t'.primitives = t.primitives
  vertices : t'.vertices = t.vertices
  space : t'.space = t.space

namespace Adjusted

variable {touched : Var → Prop} {p p' p'' : Program} {t t' t'' : Thread}

theorem refl (touched : Var → Prop) (p : Program) (t : Thread) : Adjusted touched p t p t :=
  ⟨.refl p t, fun _ _ => rfl, rfl, rfl, rfl, rfl, rfl⟩

section

variable (h : Adjusted touched p t p' t')
include h

theorem trans (h' : Adjusted touched p' t' p'' t'') :
    Adjusted touched p t p'' t'' where
  toLater := h.toLater.trans h'.toLater
  vars x hx := (h'.vars x hx).trans (h.vars x hx)
  outputs := h'.outputs.trans h.outputs
  view := h'.view.trans h.view
  primitives := h'.primitives.trans h.primitives
  vertices := h'.vertices.trans h.vertices
  space := h'.space.trans h.space

theorem mono {touched' : Var → Prop} (hsub : ∀ x, touched x → touched' x) : Adjusted touched' p t p' t' :=
  ⟨h.toLater, fun x hx => h.vars x fun ht => hx (hsub x ht), h.outputs, h.view, h.primitives, h.vertices, h.space⟩

theorem withView (view : Nat → UInt8) :
    Adjusted touched p { t with view } p' { t' with view } :=
  ⟨⟨h.within, h.read⟩, h.vars, h.outputs, rfl, h.primitives, h.vertices, h.space⟩

end

theorem of_within (h : p.Within p') : Adjusted touched p t p' t :=
  ⟨.of_registers h rfl, fun _ _ => rfl, rfl, rfl, rfl, rfl, rfl⟩

theorem setVar {var : Var} (hvar : touched var) {a : UInt64}
    (h : Later p t p' (t.setVar var a)) : Adjusted touched p t p' (t.setVar var a) where
  toLater := h
  vars x hx := Thread.readVar_setVar_of_ne t (fun heq => hx (by
    obtain ⟨i⟩ := var
    obtain ⟨j⟩ := x
    cases heq
    exact hvar)) a
  outputs := rfl
  view := rfl
  primitives := rfl
  vertices := rfl
  space := rfl

theorem restrict (h : Adjusted touched p' t p'' t') (hw : p.Within p') : Adjusted touched p t p t' :=
  ⟨⟨.refl p, fun v hv => h.read v (Nat.lt_of_lt_of_le hv hw.size_le)⟩, h.vars, h.outputs, h.view,
    h.primitives, h.vertices, h.space⟩

end Adjusted

theorem Computed.adjusted {touched : Var → Prop} {p p' : Program} {t t' : Thread}
    (h : Computed p t p' t') : Adjusted touched p t p' t' :=
  ⟨h.toLater, fun x _ => by rw [Lane.readVar, h.vars, ← Lane.readVar], h.outputs, h.view,
    h.primitives, h.vertices, h.space⟩

namespace Lowering

/-! ## The bytes of staged vertices -/

/-- The flags of a vertex, from the contents of a register. -/
def flagsOf (topology : Topology) (before : UInt64) : UInt8 :=
  let completes :=
    if topology.vertexCount - 1 ≤ before.toNat then PrimitiveFlags.completesBit else 0
  let odd := if topology = .triangles ∧ before &&& 1 ≠ 0 then PrimitiveFlags.oddBit else 0
  PrimitiveFlags.liveBit ||| completes ||| odd

namespace GeometryPlan

variable (plan : GeometryPlan)

/-- The place of vertex `n` of invocation `i`. -/
def placeOf (i n : Nat) : Nat := i * plan.config.geometry.maxVerticesOut + n

/-- The bytes after some components of the vertex at `place` have been stored. -/
def withFields (region : Region) (place : Nat) (value : Attribute → UInt64)
    (attributes : List Attribute) (view : Nat → UInt8) : Nat → UInt8 :=
  attributes.foldl (fun view a =>
    overwrite view (region.fieldAddress place plan.stride a.offset) a.type.bytes (value a)) view

/-- The bytes after the components of one stream have been stored. -/
def withComponents (stream : UInt8) (place : Nat) (value : Attribute → UInt64)
    (view : Nat → UInt8) : Nat → UInt8 :=
  match plan.layout.vertexAttributes with
  | some region => plan.withFields region place value (plan.streamAttributes stream) view
  | none => view

/-- The bytes after the flags of a vertex have been stored. -/
def withFlags (stream : UInt8) (place : Nat) (flags : UInt8) (view : Nat → UInt8) : Nat → UInt8 :=
  match plan.flagsRegion stream with
  | .ok region => overwrite view (region.offset + place) 1 flags.toUInt64
  | .error _ => view

/-- The bytes after the flags from number `first` to number `stop` of invocation `i` have been
cleared. -/
def withCleared (stream : UInt8) (i first stop : Nat) (view : Nat → UInt8) : Nat → UInt8 :=
  match plan.flagsRegion stream with
  | .ok region => fun a =>
    if region.offset + plan.placeOf i first ≤ a ∧ a < region.offset + plan.placeOf i stop then 0
    else view a
  | .error _ => view

/-- The bytes after an event of invocation `i`. -/
def afterEvent (i : Nat) (view : Nat → UInt8) : GeometryEvent → Nat → UInt8
  | .vertex stream number before outputs =>
    if plan.config.geometry.usesStream stream ∧
        number.toNat < plan.config.geometry.maxVerticesOut then
      let place := plan.placeOf i number.toNat
      plan.withFlags stream place (flagsOf plan.config.topology before)
        (plan.withComponents stream place (fun a => (outputs.find? a.slot).getD 0) view)
    else view
  | .counts stream vertices _ =>
    if plan.config.geometry.usesStream stream then
      plan.withCleared stream i vertices.toNat plan.config.geometry.maxVerticesOut view
    else view

/-- The bytes after all events of invocation `i`. -/
def afterEvents (i : Nat) (events : List GeometryEvent) (view : Nat → UInt8) : Nat → UInt8 :=
  events.foldl (plan.afterEvent i) view

theorem afterEvents_append (i : Nat) (events : List GeometryEvent) (event : GeometryEvent)
    (view : Nat → UInt8) : plan.afterEvents i (events ++ [event]) view =
      plan.afterEvent i (plan.afterEvents i events view) event := by
  rw [afterEvents, List.foldl_append]
  rfl

end GeometryPlan

/-! ## Where a lane stages its vertices -/

/-- A lane of its own invocation, with places in shared memory. -/
structure GeometryPlan.Seat (plan : GeometryPlan) (c : Setting) (id : LaneId) : Prop
    extends plan.Sound where
  lane : id.index < plan.config.geometry.maxInputPrimitives
  share : c.program.sharedSize = plan.layout.size

/-- A lane of its own invocation, which owns the bytes of its places. -/
structure GeometryPlan.Stage (plan : GeometryPlan) (c : Setting) (id : LaneId) : Prop
    extends plan.Seat c id where
  ownsFields : ∀ region, plan.layout.vertexAttributes = some region →
    ∀ n < plan.config.geometry.maxVerticesOut, ∀ j < plan.stride,
      c.own (region.offset + plan.placeOf id.index n * plan.stride + j) = some id.index
  ownsFlags : ∀ stream region, plan.flagsRegion stream = .ok region →
    ∀ n < plan.config.geometry.maxVerticesOut,
      c.own (region.offset + plan.placeOf id.index n) = some id.index

namespace GeometryPlan

open Emit

variable {plan : GeometryPlan}

theorem placeOf_lt {i n : Nat} (hi : i < plan.config.geometry.maxInputPrimitives)
    (hn : n < plan.config.geometry.maxVerticesOut) : plan.placeOf i n < plan.places := by
  have hmul := Nat.mul_le_mul_right plan.config.geometry.maxVerticesOut (Nat.succ_le_of_lt hi)
  rw [Nat.succ_mul] at hmul
  unfold placeOf places
  omega

namespace Sound

variable {place : Nat} {region : Region}

theorem placeOf_div (h : plan.Sound) (i : Nat) {n : Nat} (hn : n < plan.config.geometry.maxVerticesOut) :
    plan.placeOf i n / plan.config.geometry.maxVerticesOut = i := by
  have hpos := h.positive
  rw [placeOf, Nat.mul_comm, Nat.mul_add_div (by omega), Nat.div_eq_of_lt hn, Nat.add_zero]

variable {program : Program}

/-- The attributes of a place can be accessed. -/
theorem holds_fields (h : plan.Sound) (hshare : program.sharedSize = plan.layout.size) (hplace : place < plan.places)
    (hr : plan.layout.vertexAttributes = some region) : region.Holds program place plan.stride where
  element := by
    have hmul := Nat.mul_le_mul_right plan.stride (Nat.succ_le_of_lt hplace)
    rw [Nat.succ_mul] at hmul
    rwa [h.room region hr]
  inside := by
    rw [hshare]
    exact h.regions.bounded 1 region hr
  small := hshare ▸ h.small

/-- The flags of a place can be accessed. -/
theorem holds_flags (h : plan.Sound) (hshare : program.sharedSize = plan.layout.size)
    (hplace : place < plan.places) {stream : UInt8}
    (hr : plan.flagsRegion stream = .ok region) : region.Holds program place 1 where
  element := by
    rw [h.flags stream region hr, Nat.mul_one]
    omega
  inside := by
    rw [hshare]
    exact h.regions.bounded _ region (flagsRegion_eq_ok hr)
  small := hshare ▸ h.small

/-- The declared maximum is a small number. -/
theorem maxVertices_lt (h : plan.Sound) (hpos : 0 < plan.config.geometry.maxInputPrimitives) :
    plan.config.geometry.maxVerticesOut < 2 ^ 32 := by
  have hle := Nat.le_mul_of_pos_left plan.config.geometry.maxVerticesOut hpos
  have := h.places_le
  unfold places at this
  omega

end Sound

variable {c : Setting} {id : LaneId} {p : Program} {t : Thread} {L : Thread → Prop}

/-! ## Places and flags -/

-- The code of the flags is one long chain of small actions.
set_option synthInstance.maxSize 256

section

variable {K : Instr → Prop} [Instr.Computing K] (a : Value)

instance : Straight K (plan.vertexPlace a) := by
  unfold vertexPlace
  infer_instance

instance : Straight K (plan.vertexFlags a) := by
  unfold vertexFlags
  infer_instance

end

variable {attributes : List Attribute} {region : Region} {n x b : UInt64} {stream : UInt8}
  {Q : Unit → Program → Thread → Prop} {before place vertexCount primitiveCount : Value}

/-- The place of a vertex below the declared maximum. -/
theorem wp_vertexPlace (h : plan.Seat c id) {index : Value}
    {Q : Value → Program → Thread → Prop} (hk : Knows p t index .u32 x)
    (hx : x.toNat < plan.config.geometry.maxVerticesOut) (hQ : ∀ v p' t', Computed p t p' t' →
      Knows p' t' v .u32 (UInt64.ofNat (plan.placeOf id.index x.toNat)) → Q v p' t') :
    Emit.wp c id (plan.vertexPlace index) p Q L t := by
  have hplace := placeOf_lt h.lane hx
  have hplaces := h.places_le
  have hmax := h.maxVertices_lt (Nat.zero_lt_of_lt h.lane)
  have hmul : id.index * plan.config.geometry.maxVerticesOut < 2 ^ 32 := by
    unfold placeOf at hplace
    omega
  refine wp_bind (wp_input fun lane p₁ t₁ h₁ hlane => ?_)
  change Knows p₁ t₁ lane .u32 (UInt64.ofNat id.index) at hlane
  refine wp_bind (wp_binaryImm hlane rfl fun first p₂ t₂ h₂ hfirst => ?_)
  rw [maxVertices, ofNat_and_mask hmax, BinaryOp.eval_mul_ofNat hmul] at hfirst
  refine wp_binary hfirst ((hk.computed h₁).computed h₂) rfl fun v p₃ t₃ h₃ hv => ?_
  refine hQ v p₃ t₃ ((h₁.trans h₂).trans h₃) ?_
  have heval : BinaryOp.add.eval .u32 (UInt64.ofNat (id.index * plan.config.geometry.maxVerticesOut)) x =
      UInt64.ofNat (plan.placeOf id.index x.toNat) := by
    conv => lhs; rw [← @UInt64.ofNat_toNat x]
    rw [BinaryOp.eval_add_ofNat (by unfold placeOf at hplace; omega)]
    rfl
  exact heval ▸ hv

/-- The flags that the code computes, for both answers to both questions. -/
theorem flags_eval (completes odd : Bool) : ScalarType.u8.convert (BinaryOp.or.eval .u32
      (BinaryOp.or.eval .u32 (UInt64.ofNat PrimitiveFlags.liveBit.toNat) (ScalarType.u32.convert completes.toUInt64))
      (BinaryOp.shl.eval .u32 odd.toUInt64 (UInt64.ofNat 1))) =
    (PrimitiveFlags.liveBit ||| (if completes then PrimitiveFlags.completesBit else 0) |||
      if odd then PrimitiveFlags.oddBit else 0).toUInt64 := by
  cases completes <;> cases odd <;> decide

theorem flags_eval_even (completes : Bool) :
    ScalarType.u8.convert (BinaryOp.or.eval .u32 (UInt64.ofNat PrimitiveFlags.liveBit.toNat)
      (ScalarType.u32.convert completes.toUInt64)) =
    (PrimitiveFlags.liveBit ||| (if completes then PrimitiveFlags.completesBit else 0)).toUInt64 := by
  cases completes <;> decide

theorem and_one_eq (x : UInt64) : x &&& 1 = (decide (x &&& 1 ≠ 0)).toUInt64 := by
  have hbit : (x &&& 1).toNat = x.toNat % 2 := by
    rw [UInt64.toNat_and]
    exact Nat.and_two_pow_sub_one_eq_mod x.toNat 1
  rcases Nat.mod_two_eq_zero_or_one x.toNat with h | h
  · have hzero : x &&& 1 = 0 := UInt64.toNat_inj.mp (hbit.trans h)
    rw [hzero]
    rfl
  · have hone : x &&& 1 = 1 := UInt64.toNat_inj.mp (hbit.trans h)
    rw [hone]
    rfl

theorem wp_vertexFlags {Q : Value → Program → Thread → Prop} (hk : Knows p t before .u32 x)
    (hQ : Learns p t .u8 (flagsOf plan.config.topology x).toUInt64 Q) :
    Emit.wp c id (plan.vertexFlags before) p Q L t := by
  have hcount : plan.config.topology.vertexCount - 1 < 2 ^ 32 := by
    cases plan.config.topology <;> decide
  refine wp_bind (wp_binaryImm hk rfl fun completes p₁ t₁ h₁ hcompletes => ?_)
  have hge : BinaryOp.ge.eval .u32 x (UInt64.ofNat (plan.config.topology.vertexCount - 1) &&& ScalarType.u32.mask) =
      (decide (plan.config.topology.vertexCount - 1 ≤ x.toNat)).toUInt64 := by
    rw [ofNat_and_mask hcount, BinaryOp.eval]
    congr 2
    rw [UInt64.le_iff_toNat_le, toNat_ofNat_of_lt hcount]
  rw [hge] at hcompletes
  refine wp_bind (wp_convert hcompletes (by decide) (by decide) fun wide p₂ t₂ h₂ hwide => ?_)
  refine wp_bind (wp_imm32 (by decide) fun live p₃ t₃ h₃ hlive => ?_)
  refine wp_bind (wp_binary hlive (hwide.computed h₃) rfl fun flags p₄ t₄ h₄ hflags => ?_)
  have h₀₄ := ((h₁.trans h₂).trans h₃).trans h₄
  by_cases hthree : plan.config.topology = .triangles
  · have hif : plan.config.topology.vertexCount = 3 := by rw [hthree]; rfl
    simp only [hif, ↓reduceIte]
    refine wp_bind (wp_binaryImm (hk.computed h₀₄) rfl fun odd p₅ t₅ h₅ hodd => ?_)
    have hone : BinaryOp.and.eval .u32 x (1 &&& ScalarType.u32.mask) = (decide (x &&& 1 ≠ 0)).toUInt64 := and_one_eq x
    rw [hone] at hodd
    refine wp_bind (wp_shlImm hodd rfl (by decide) fun moved p₆ t₆ h₆ hmoved => ?_)
    refine wp_bind (wp_binary ((hflags.computed h₅).computed h₆) hmoved rfl fun joined p₇ t₇ h₇ hjoined => ?_)
    refine wp_convert hjoined (by decide) (by decide) fun v p₈ t₈ h₈ hv => ?_
    refine hQ v p₈ t₈ ((((h₀₄.trans h₅).trans h₆).trans h₇).trans h₈) ?_
    simp only [reduceCtorEq, ↓reduceIte] at hv
    rw [flags_eval] at hv
    simpa [flagsOf, hthree] using hv
  · have hif : plan.config.topology.vertexCount ≠ 3 := by
      cases h : plan.config.topology <;> simp_all [Topology.vertexCount]
    simp only [hif, ↓reduceIte, pure_bind]
    refine wp_convert hflags (by decide) (by decide) fun v p₅ t₅ h₅ hv => hQ v p₅ t₅ (h₀₄.trans h₅) ?_
    simp only [reduceCtorEq, ↓reduceIte] at hv
    rw [flags_eval_even] at hv
    simpa [flagsOf, hthree] using hv

/-! ## Components -/

section

variable {K : Instr → Prop} [Instr.Common K] (stream : UInt8) (a b : Value)

instance : Novel K (plan.storeComponents stream a) := by
  unfold storeComponents
  split <;> infer_instance

instance : Novel K (plan.resetComponents stream) := by
  unfold resetComponents
  infer_instance

instance : Novel K (plan.storeVertex stream a b) := by
  unfold storeVertex
  infer_instance

instance : Novel K (plan.stageVertex stream a b) := by
  unfold stageVertex
  infer_instance

end

/-- All components have their variables. -/
def Declared (plan : GeometryPlan) (p : Program) : Prop :=
  ∀ a ∈ plan.attributes, p.varType? a.var = some a.type

theorem Declared.within {p' : Program} (h : plan.Declared p) (hw : p.Within p') : plan.Declared p' :=
  fun a ha => hw.varType?_eq (h a ha)

theorem wp_storeFields (h : plan.Stage c id) (hr : plan.layout.vertexAttributes = some region) {n : Nat}
    (hn : n < plan.config.geometry.maxVerticesOut) {x : Attribute → UInt64}
    (hsub : ∀ a ∈ attributes, a ∈ plan.attributes) (hdecl : plan.Declared p)
    (hplace : Knows p t place .u32 (UInt64.ofNat (plan.placeOf id.index n)))
    (hx : ∀ a ∈ attributes, t.lane.readVar a.var = .ok (x a)) (hQ : ∀ p' t', Computed p { t with
        view := plan.withFields region (plan.placeOf id.index n) x attributes t.view } p' t' →
      Q () p' t') :
    Emit.wp c id (attributes.forM fun component => do
      let value ← Emit.loadVar component.var
      region.store value place plan.stride component.offset) p Q L t := by
  induction attributes generalizing p t with
  | nil => exact wp_pure (hQ p t (.refl p t))
  | cons a rest ih =>
    have ha := hsub a List.mem_cons_self
    change Emit.wp c id (_ >>= fun _ => rest.forM _) p Q L t
    refine wp_bind (wp_bind (wp_loadVar (hdecl a ha) (hx a List.mem_cons_self) fun value p₁ t₁ h₁ hvalue => ?_))
    refine Region.wp_store hvalue (isInt_of_isStaged (h.staged a ha)) (hplace.computed h₁)
      (h.holds_fields h.share (placeOf_lt h.lane hn) hr) (fun hfield j hj => ?_) fun p₂ t₂ h₂ => ?_
    · have hown := h.ownsFields region hr n hn (a.offset + j) (by omega)
      rwa [← Nat.add_assoc] at hown
    · have hmoved := (h₁.withView _).trans h₂
      rw [h₁.view] at hmoved
      refine ih (fun b hb => hsub b (List.mem_cons_of_mem _ hb)) (hdecl.within hmoved.within)
        (hplace.later ⟨hmoved.within, hmoved.read⟩) (fun b hb => ?_) fun p₃ t₃ h₃ => ?_
      · rw [← hx b (List.mem_cons_of_mem _ hb), Lane.readVar, hmoved.vars, ← Lane.readVar]
      · refine hQ p₃ t₃ ((hmoved.withView _).trans ?_)
        rwa [hmoved.view] at h₃

/-- The stores of all components of a stream. -/
theorem wp_storeComponents (h : plan.Stage c id) {n : Nat}
    (hn : n < plan.config.geometry.maxVerticesOut) {x : Attribute → UInt64} (hdecl : plan.Declared p)
    (hplace : Knows p t place .u32 (UInt64.ofNat (plan.placeOf id.index n)))
    (hx : ∀ a ∈ plan.attributes, t.lane.readVar a.var = .ok (x a)) (hQ : ∀ p' t', Computed p { t with
        view := plan.withComponents stream (plan.placeOf id.index n) x t.view } p' t' → Q () p' t') :
    Emit.wp c id (plan.storeComponents stream place) p Q L t := by
  unfold withComponents at hQ
  unfold storeComponents
  split
  · rename_i region hr
    rw [hr] at hQ
    exact wp_storeFields h hr hn (fun a ha => (List.mem_filter.mp ha).1) hdecl hplace
      (fun a ha => hx a ((List.mem_filter.mp ha).1)) hQ
  · rename_i hr
    rw [hr] at hQ
    exact wp_pure (hQ p t (.refl p t))

/-- A variable of one of some components. -/
def IsVarOf (attributes : List Attribute) (x : Var) : Prop := ∃ a ∈ attributes, a.var = x

theorem wp_resetFields (hdecl : ∀ a ∈ attributes, p.varType? a.var = some a.type)
    (hQ : ∀ p' t', Adjusted (IsVarOf attributes) p t p' t' →
      (∀ a ∈ attributes, t'.lane.readVar a.var = .ok 0) → Q () p' t') :
    Emit.wp c id (attributes.forM fun component => do
      let undef ← Emit.undef component.type
      Emit.storeVar component.var undef) p Q L t := by
  induction attributes generalizing p t with
  | nil => exact wp_pure (hQ p t (.refl _ p t) nofun)
  | cons a rest ih =>
    change Emit.wp c id (_ >>= fun _ => rest.forM _) p Q L t
    refine wp_bind (wp_bind (wp_undef fun zero p₁ t₁ h₁ hzero => ?_))
    refine wp_storeVar (h₁.within.varType?_eq (hdecl a List.mem_cons_self)) hzero.read fun p₂ h₂ hread => ?_
    have hw := h₁.within.trans h₂.within
    refine ih (fun b hb => hw.varType?_eq (hdecl b (List.mem_cons_of_mem _ hb)))
      fun p₃ t₃ h₃ hrest => hQ p₃ t₃ ?_ fun b hb => ?_
    · refine (h₁.adjusted.trans (.setVar ⟨a, List.mem_cons_self, rfl⟩ h₂)).trans (h₃.mono ?_)
      rintro x ⟨b, hb, rfl⟩
      exact ⟨b, List.mem_cons_of_mem _ hb, rfl⟩
    · rcases List.mem_cons.mp hb with rfl | hb
      · by_cases hagain : IsVarOf rest b.var
        · obtain ⟨d, hd, hvar⟩ := hagain
          exact hvar ▸ hrest d hd
        · exact (h₃.vars _ hagain).trans hread
      · exact hrest b hb

/-! ## Vertices -/

theorem wp_storeVertex (h : plan.Stage c id) {x : Attribute → UInt64}
    (hdecl : plan.Declared p) (hnumber : Knows p t vertexCount .u32 n)
    (hbefore : Knows p t before .u32 b) (hn : n.toNat < plan.config.geometry.maxVerticesOut)
    (hx : ∀ a ∈ plan.attributes, t.lane.readVar a.var = .ok (x a)) (hQ : ∀ p' t', Computed p { t with
      view := plan.withFlags stream (plan.placeOf id.index n.toNat) (flagsOf plan.config.topology b)
        (plan.withComponents stream (plan.placeOf id.index n.toNat) x t.view) } p' t' → Q () p' t') :
    Emit.wp c id (plan.storeVertex stream vertexCount before) p Q L t := by
  refine wp_bind (wp_vertexPlace h.toSeat hnumber hn fun place p₁ t₁ h₁ hplace => ?_)
  refine wp_bind (wp_storeComponents h hn (hdecl.within h₁.within) hplace
    (fun a ha => by rw [← hx a ha, Lane.readVar, h₁.vars, ← Lane.readVar]) fun p₂ t₂ h₂ => ?_)
  have h₀₂ := (h₁.withView _).trans h₂
  rw [h₁.view] at h₀₂
  have hlater : Later p t p₂ t₂ := ⟨h₀₂.within, h₀₂.read⟩
  refine wp_bind (wp_vertexFlags (hbefore.later hlater) fun flags p₃ t₃ h₃ hflags => ?_)
  refine wp_bind (wp_lift fun region hr => ?_)
  have hplace₃ := (hplace.later ⟨h₂.within, h₂.read⟩).computed h₃
  have haddr : region.fieldAddress (plan.placeOf id.index n.toNat) 1 0 =
      region.offset + plan.placeOf id.index n.toNat := by
    simp only [Region.fieldAddress, Nat.mul_one, Nat.add_zero]
  refine Region.wp_store hflags rfl hplace₃ (h.holds_flags h.share (placeOf_lt h.lane hn) hr)
    (fun _ j hj => ?_) fun p₄ t₄ h₄ => hQ p₄ t₄ ?_
  · obtain rfl : j = 0 := by simp only [ScalarType.bytes] at hj; omega
    rw [haddr]
    exact h.ownsFlags stream region hr n.toNat hn
  · have h₀₃ := h₀₂.trans h₃
    rw [haddr, h₀₃.view] at h₄
    rw [withFlags, hr]
    exact (h₀₃.withView _).trans h₄

theorem wp_stageVertex (h : plan.Stage c id) {x : Attribute → UInt64}
    (hdecl : plan.Declared p) (hnumber : Knows p t vertexCount .u32 n) (hbefore : Knows p t before .u32 b)
    (hx : ∀ a ∈ plan.attributes, t.lane.readVar a.var = .ok (x a))
    (hQ : ∀ p' t', Adjusted (IsVarOf (plan.streamAttributes stream)) p { t with
        view := if n.toNat < plan.config.geometry.maxVerticesOut then
          plan.withFlags stream (plan.placeOf id.index n.toNat) (flagsOf plan.config.topology b)
            (plan.withComponents stream (plan.placeOf id.index n.toNat) x t.view)
          else t.view } p' t' →
      (∀ a ∈ plan.streamAttributes stream, t'.lane.readVar a.var = .ok 0) → Q () p' t') :
    Emit.wp c id (plan.stageVertex stream vertexCount before) p Q L t := by
  have hmax := h.maxVertices_lt (Nat.zero_lt_of_lt h.lane)
  unfold stageVertex
  refine wp_bind (wp_binaryImm hnumber rfl fun inRange p₁ t₁ h₁ hrange => ?_)
  have heval : BinaryOp.lt.eval .u32 n (plan.maxVertices &&& ScalarType.u32.mask) =
      (decide (n.toNat < plan.config.geometry.maxVerticesOut)).toUInt64 := by
    rw [maxVertices, ofNat_and_mask hmax, BinaryOp.eval]
    congr 2
    rw [UInt64.lt_iff_toNat_lt, toNat_ofNat_of_lt hmax]
  rw [heval] at hrange
  -- In range or not, the components are forgotten afterwards.
  have hreset : ∀ p₂ t₂ view, Computed p { t with view } p₂ t₂ →
      (view = if n.toNat < plan.config.geometry.maxVerticesOut then
        plan.withFlags stream (plan.placeOf id.index n.toNat) (flagsOf plan.config.topology b)
          (plan.withComponents stream (plan.placeOf id.index n.toNat) x t.view)
        else t.view) → Emit.wp c id (plan.resetComponents stream) p₂ Q L t₂ := by
    rintro p₂ t₂ _ h₂ rfl
    exact wp_resetFields (fun a ha => hdecl.within h₂.within a ((List.mem_filter.mp ha).1))
      fun p₃ t₃ h₃ => hQ p₃ t₃ (h₂.adjusted.trans h₃)
  refine wp_bind (wp_ifThen hrange (fun hne p₂ h₂ => ?_) fun hz p₂ h₂ => ?_)
  · have hn : n.toNat < plan.config.geometry.maxVerticesOut := by
      simpa [toUInt64_eq_zero_iff] using hne
    have hlater := h₁.toLater.trans h₂
    refine wp_storeVertex h (hdecl.within hlater.within) (hnumber.later hlater) (hbefore.later hlater) hn
      (fun a ha => by rw [← hx a ha, Lane.readVar, h₁.vars, ← Lane.readVar]) fun p₃ t₃ h₃ p₄ h₄ => ?_
    rw [h₁.view] at h₃
    refine hreset p₄ t₃ _ ((((h₁.withView _).trans (.of_within h₂.within)).trans h₃).trans (.of_within h₄.within)) ?_
    rw [if_pos hn]
  · have hn : ¬ n.toNat < plan.config.geometry.maxVerticesOut := by
      simpa [toUInt64_eq_zero_iff] using hz
    exact hreset p₂ t₁ t.view (h₁.trans (.of_within h₂.within)) (by rw [if_neg hn])

/-! ## Counts -/

section

variable {K : Instr → Prop} [Instr.Common K] (stream : UInt8) (region : Region) (index : Var) (a b : Value)

instance : Novel K (plan.clearRound region index) := by
  unfold clearRound
  infer_instance

instance : Novel K (plan.clearFlags stream a) := by
  unfold clearFlags
  infer_instance

instance : Novel K (plan.primitiveSum a) := by
  unfold primitiveSum
  refine @Placing.bind _ _ _ _ _ _ _ fun constant => ?_
  cases constant <;> infer_instance

instance : Novel (Instr.Runnable barriers) (plan.countPrimitives stream a) := by
  unfold countPrimitives
  infer_instance

instance : Novel (Instr.Runnable barriers) (plan.stateCounts stream a b) := by
  unfold stateCounts
  infer_instance

end

section

variable {i : Nat} {view : Nat → UInt8}

theorem withCleared_of_le {first stop : Nat} (h : stop ≤ first) : plan.withCleared stream i first stop view = view := by
  unfold withCleared
  split
  · funext a
    rw [if_neg]
    unfold placeOf
    omega
  · rfl

theorem withCleared_succ (hr : plan.flagsRegion stream = .ok region) {first n : Nat} (h : first ≤ n) :
    overwrite (plan.withCleared stream i first n view) (region.offset + plan.placeOf i n) 1 0 =
      plan.withCleared stream i first (n + 1) view := by
  have hfirst : plan.placeOf i first ≤ plan.placeOf i n := Nat.add_le_add_left h _
  have hnext : plan.placeOf i (n + 1) = plan.placeOf i n + 1 := rfl
  funext a
  simp only [withCleared, hr, overwrite]
  by_cases ha : a = region.offset + plan.placeOf i n
  · rw [if_pos (by omega), if_pos (by omega), ha, Nat.sub_self]
    decide
  · rw [if_neg (by omega)]
    by_cases hbelow : region.offset + plan.placeOf i first ≤ a ∧ a < region.offset + plan.placeOf i n
    · rw [if_pos hbelow, if_pos (by omega)]
    · rw [if_neg hbelow, if_neg (by omega)]

end

/-- The loop has cleared the flags from `first` up to the number in the variable. -/
structure ClearsTo (plan : GeometryPlan) (stream : UInt8) (i : Nat) (index : Var) (first : UInt64)
    (p : Program) (t : Thread) (n : UInt64) (u : Thread) : Prop where
  reads : u.lane.readVar index = .ok n
  first_le : first.toNat ≤ n.toNat
  le_max : n = first ∨ n.toNat ≤ plan.config.geometry.maxVerticesOut
  moved : Adjusted (Eq index) p
    { t with view := plan.withCleared stream i first.toNat n.toNat t.view } p u

/-- A round clears one more flag, or the lane leaves with all of them cleared. -/
theorem wp_clearRound (h : plan.Seat c id) (hr : plan.flagsRegion stream = .ok region)
    (hown : ∀ n < plan.config.geometry.maxVerticesOut,
      c.own (region.offset + plan.placeOf id.index n) = some id.index) {index : Var} {first : UInt64} {u : Thread}
    {p₀ : Program} (hw : p.Within p₀) (htype : p.varType? index = some .u32)
    (hu : plan.ClearsTo stream id.index index first p t n u) : Emit.wp c id (plan.clearRound region index) p₀
      (fun _ _ u₁ => ∃ n₁, plan.config.geometry.maxVerticesOut - n₁.toNat <
        plan.config.geometry.maxVerticesOut - n.toNat ∧ plan.ClearsTo stream id.index index first p t n₁ u₁)
      (fun u₁ => Adjusted (Eq index) p { t with
        view := plan.withCleared stream id.index first.toNat plan.config.geometry.maxVerticesOut t.view } p u₁) u := by
  have hmax := h.maxVertices_lt (Nat.zero_lt_of_lt h.lane)
  refine wp_bind (wp_loadVar (hw.varType?_eq htype) hu.reads fun value p₁ t₁ h₁ hvalue => ?_)
  refine wp_bind (wp_binaryImm hvalue rfl fun done p₂ t₂ h₂ hdone => ?_)
  have heval : BinaryOp.ge.eval .u32 n (plan.maxVertices &&& ScalarType.u32.mask) =
      (decide (plan.config.geometry.maxVerticesOut ≤ n.toNat)).toUInt64 := by
    rw [maxVertices, ofNat_and_mask hmax, BinaryOp.eval]
    congr 2
    rw [UInt64.le_iff_toNat_le, toNat_ofNat_of_lt hmax]
  rw [heval] at hdone
  have h₀₂ := h₁.trans h₂
  refine wp_bind (wp_ifThen hdone (fun hne p₃ h₃ => ?_) fun hz p₃ h₃ => ?_)
  · have hn : plan.config.geometry.maxVerticesOut ≤ n.toNat := by
      simpa [toUInt64_eq_zero_iff] using hne
    refine wp_leave ?_
    have hsame : plan.withCleared stream id.index first.toNat n.toNat t.view =
        plan.withCleared stream id.index first.toNat plan.config.geometry.maxVerticesOut t.view := by
      rcases hu.le_max with rfl | hle
      · rw [withCleared_of_le (Nat.le_refl _), withCleared_of_le hn]
      · rw [Nat.le_antisymm hle hn]
    rw [← hsame]
    exact hu.moved.trans (h₀₂.adjusted.restrict hw)
  · have hn : n.toNat < plan.config.geometry.maxVerticesOut := by
      simpa [toUInt64_eq_zero_iff] using hz
    have hlater : Later p₁ t₁ p₃ t₂ := h₂.toLater.trans h₃
    refine wp_bind (wp_vertexPlace h (hvalue.later hlater) hn fun place p₄ t₄ h₄ hplace => ?_)
    refine wp_bind (wp_imm fun zero p₅ t₅ h₅ hzero => ?_)
    have haddr : region.fieldAddress (plan.placeOf id.index n.toNat) 1 0 =
        region.offset + plan.placeOf id.index n.toNat := by
      simp only [Region.fieldAddress, Nat.mul_one, Nat.add_zero]
    refine wp_bind (Region.wp_store hzero rfl (hplace.computed h₅)
      (h.holds_flags h.share (placeOf_lt h.lane hn) hr) (fun _ j hj => ?_) fun p₆ t₆ h₆ => ?_)
    · obtain rfl : j = 0 := by simp only [ScalarType.bytes] at hj; omega
      rw [haddr]
      exact hown n.toNat hn
    have h₀₅ := ((h₀₂.trans (.of_within h₃.within)).trans h₄).trans h₅
    have hview : t₅.view = plan.withCleared stream id.index first.toNat n.toNat t.view :=
      h₀₅.view.trans hu.moved.view
    rw [UInt64.zero_and, haddr, hview, show ScalarType.u8.bytes = 1 from rfl, withCleared_succ hr hu.first_le] at h₆
    have h₀₆ := (h₀₅.withView _).trans h₆
    have hvalue₆ : Knows p₆ t₆ value .u32 n :=
      hvalue.later ⟨((hlater.within.trans h₄.within).trans h₅.within).trans h₆.within, fun v hv => by
          rw [h₆.read v (Nat.lt_of_lt_of_le hv ((hlater.within.trans h₄.within).trans h₅.within).size_le)]
          exact ((hlater.trans h₄.toLater).trans h₅.toLater).read v hv⟩
    refine wp_bind (wp_binaryImm hvalue₆ rfl fun next p₇ t₇ h₇ hnext => ?_)
    have hsucc : BinaryOp.add.eval .u32 n (1 &&& ScalarType.u32.mask) = UInt64.ofNat (n.toNat + 1) := by
      have hsmall : n.toNat + 1 < 2 ^ 32 := by omega
      rw [← BinaryOp.eval_add_ofNat hsmall, UInt64.ofNat_toNat]
      rfl
    rw [hsucc] at hnext
    have h₀₇ := h₀₆.trans h₇
    refine wp_storeVar ((hw.trans h₀₇.within).varType?_eq htype) hnext.read fun p₈ h₈ hread =>
      ⟨UInt64.ofNat (n.toNat + 1), ?_, hread, ?_, .inr ?_, ?_⟩
    · rw [toNat_ofNat_of_lt (by omega)]
      omega
    · have := hu.first_le
      rw [toNat_ofNat_of_lt (by omega)]
      omega
    · rw [toNat_ofNat_of_lt (by omega)]
      omega
    · rw [toNat_ofNat_of_lt (by omega)]
      have hstep : Adjusted (Eq index) p₀ { u with view := _ } p₈ _ :=
        h₀₇.adjusted.trans (.setVar rfl h₈)
      exact (hu.moved.withView _).trans (hstep.restrict hw)

/-- The flags of the vertices from number `first` on are cleared. -/
theorem wp_clearFlags (h : plan.Stage c id) {first : Value} (hfirst : Knows p t first .u32 x)
    (hQ : ∀ p' t', Adjusted (fun v => p.vars.size ≤ v.index) p { t with
        view := plan.withCleared stream id.index x.toNat plan.config.geometry.maxVerticesOut t.view }
        p' t' → Q () p' t') :
    Emit.wp c id (plan.clearFlags stream first) p Q L t := by
  unfold clearFlags
  refine wp_bind (wp_lift fun region hr => ?_)
  refine wp_bind (wp_createVar fun index p₁ h₁ hindex htype => ?_)
  have hnew : ∀ v : Var, index = v → p.vars.size ≤ v.index := by
    rintro v rfl
    exact Nat.le_of_eq hindex.symm
  refine wp_bind (wp_storeVar htype hfirst.read fun p₂ h₂ hread => ?_)
  have hstart : Adjusted (Eq index) p t p₂ (t.setVar index x) :=
    (Adjusted.of_within h₁).trans (.setVar rfl h₂)
  refine wp_loop (fun u => ∃ n, plan.ClearsTo stream id.index index x p₂ (t.setVar index x) n u)
    ⟨x, hread, Nat.le_refl _, .inl rfl, ?_⟩ ?_
  · rw [withCleared_of_le (Nat.le_refl _)]
    exact .refl _ _ _
  · rintro u p₃ ⟨n, hn⟩ hw
    refine wp_mono (wp_clearRound h.toSeat hr (h.ownsFlags stream region hr) hw (h₂.within.varType?_eq htype) hn)
      (fun _ _ _ hq => hq.imp fun _ h => h.2) fun v hv p₄ hp₄ => hQ p₄ v ?_
    exact ((hstart.withView _).trans (hv.trans (.of_within hp₄))).mono hnew

/-- The sum of the primitive counts, whatever it is. -/
theorem wp_primitiveSum {Q : Value → Program → Thread → Prop} (hk : Knows p t primitiveCount .u32 x)
    (hQ : ∀ v p' t' a, Computed p t p' t' → Knows p' t' v .u32 a → Q v p' t') :
    Emit.wp c id (plan.primitiveSum primitiveCount) p Q L t := by
  refine wp_bind
    (wp_bind (wp_get (wp_bind (wp_lift fun instr _ => wp_pure ?_))))
  cases instr.constant? with
  | some count =>
    refine wp_bind (wp_imm fun active p₁ t₁ h₁ hactive => ?_)
    refine wp_bind (wp_crossLane (τ := plan.config.wave.ballotType) ?_ ?_ fun ballot p₂ t₂ mask h₂ hballot => ?_)
    · simpa [CrossLaneOp.operands] using Program.lt_of_typeOf hactive.typeOf
    · cases plan.config.wave <;> simp [Program.resultType?, Instr.resultType?,
        Intrinsic.resultType?, CrossLaneOp.resultType?,
        Program.valueType?_eq_some_iff.mpr hactive.typeOf, typeWhen, WaveWidth.ballotType]
    have hcount : UnaryOp.bitCount.resultType? plan.config.wave.ballotType = some .u32 := by
      cases plan.config.wave <;> rfl
    refine wp_bind (wp_unary hballot hcount fun lanes p₃ t₃ h₃ hlanes => ?_)
    exact wp_binaryImm hlanes rfl fun v p₄ t₄ h₄ hv =>
      hQ v p₄ t₄ _ (((h₁.trans h₂).trans h₃).trans h₄) hv
  | none =>
    refine wp_crossLane ?_ ?_ hQ
    · simpa [CrossLaneOp.operands] using Program.lt_of_typeOf hk.typeOf
    · simp [Program.resultType?, Instr.resultType?, Intrinsic.resultType?,
        CrossLaneOp.resultType?, Program.valueType?_eq_some_iff.mpr hk.typeOf, typeWhen, ScalarType.isInt]

/-- The query counter is none of the thread's business. -/
theorem wp_countPrimitives (hstream : stream.toNat < 4) (hk : Knows p t primitiveCount .u32 x)
    (hQ : ∀ p' t', Computed p t p' t' → Q () p' t') :
    Emit.wp c id (plan.countPrimitives stream primitiveCount) p Q L t := by
  refine wp_bind (wp_input fun enabled p₁ t₁ h₁ henabled => ?_)
  refine wp_ifThen henabled (fun _ p₂ h₂ => ?_) fun _ p₂ h₂ =>
    hQ p₂ t₁ (h₁.trans (.of_within h₂.within))
  refine wp_bind (wp_primitiveSum ((hk.computed h₁).later h₂) fun sum p₃ t₃ a h₃ hsum => ?_)
  refine wp_bind (wp_crossLane (τ := .bool) (by simp [CrossLaneOp.operands]) rfl fun elected p₄ t₄ b h₄ helected => ?_)
  have h₀₄ := ((h₁.trans (.of_within h₂.within)).trans h₃).trans h₄
  refine wp_ifThen helected (fun _ p₅ h₅ => ?_) fun _ p₅ h₅ p₆ h₆ =>
    hQ p₆ t₄ (h₀₄.trans (.of_within (h₅.within.trans h₆.within)))
  refine wp_queryAdd hstream ((hsum.computed h₄).later h₅) fun p₆ h₆ p₇ h₇ p₈ h₈ => ?_
  exact hQ p₈ t₄ (h₀₄.trans (.of_within (((h₅.within.trans h₆).trans h₇.within).trans h₈.within)))

/-- What becomes of a statement of counts. -/
theorem wp_stateCounts (h : plan.Stage c id) (hstream : stream.toNat < 4)
    (hvertices : Knows p t vertexCount .u32 n) (hprimitives : Knows p t primitiveCount .u32 x)
    (hQ : ∀ p' t', Adjusted (fun v => p.vars.size ≤ v.index) p { t with
        view := plan.withCleared stream id.index n.toNat plan.config.geometry.maxVerticesOut t.view }
        p' t' → Q () p' t') :
    Emit.wp c id (plan.stateCounts stream vertexCount primitiveCount) p Q L t := by
  have hmax := h.maxVertices_lt (Nat.zero_lt_of_lt h.lane)
  have hcount : ∀ p₁ t₁, Adjusted (fun v => p.vars.size ≤ v.index) p { t with
      view := plan.withCleared stream id.index n.toNat plan.config.geometry.maxVerticesOut t.view }
      p₁ t₁ → Emit.wp c id (plan.countPrimitives stream primitiveCount) p₁ Q L t₁ := fun p₁ t₁ h₁ =>
    wp_countPrimitives hstream (hprimitives.later ⟨h₁.within, h₁.read⟩) fun p₂ t₂ h₂ => hQ p₂ t₂ (h₁.trans h₂.adjusted)
  refine wp_bind (wp_bind (wp_get (wp_bind (wp_lift fun instr hinstr => wp_pure ?_))))
  by_cases hconst : instr.constant? = some plan.maxVertices
  · -- A constant that is the declared maximum leaves no flags to clear.
    have hn : n.toNat = plan.config.geometry.maxVerticesOut := by
      rw [← hvertices.constant instr hinstr _ hconst]
      exact toNat_ofNat_of_lt hmax
    simp only [hconst, ↓reduceIte]
    refine hcount p t ?_
    rw [withCleared_of_le (Nat.le_of_eq hn.symm)]
    exact .refl _ p t
  · simp only [hconst, ↓reduceIte]
    exact wp_bind (wp_clearFlags h hvertices hcount)

/-! ## Outputs -/

instance {K : Instr → Prop} [Instr.Common K] (slot : OutputSlot) (a : Value) :
    Novel K (plan.keepOutput slot a) := by
  unfold keepOutput
  split <;> infer_instance

theorem convert_convert {type : ScalarType} (h : isStaged type) (x : UInt64) :
    type.convert (type.convert x) = type.convert x := by
  have hmask (type : ScalarType) : x &&& type.mask &&& type.mask = x &&& type.mask :=
    ScalarType.and_mask_eq (ScalarType.and_mask_lt type x)
  cases type <;> first | exact hmask _ | cases h

theorem wp_keepOutput (hstaged : ∀ a ∈ plan.attributes, isStaged a.type) {slot : OutputSlot}
    {value : Value} {σ : ScalarType} {y : UInt64} (hdecl : plan.Declared p) (hk : Knows p t value σ y) (hσ : σ ≠ .void)
    (hnone : (∀ a ∈ plan.attributes, a.slot ≠ slot) → Q () p t)
    (hsome : ∀ a ∈ plan.attributes, a.slot = slot → ∀ p' t' x, Adjusted (Eq a.var) p t p' t' →
      t'.lane.readVar a.var = .ok x → a.type.convert x = a.type.convert y → Q () p' t') :
    Emit.wp c id (plan.keepOutput slot value) p Q L t := by
  unfold keepOutput
  split
  · rename_i a hfind
    have ha := List.mem_of_find?_eq_some hfind
    have hslot : a.slot = slot := by simpa using List.find?_some hfind
    have hint := hstaged a ha
    have hvoid : a.type ≠ .void := by
      intro hv
      rw [hv] at hint
      cases hint
    refine wp_bind (wp_convert hk hσ hvoid fun v p₁ t₁ h₁ hv => ?_)
    refine wp_storeVar (h₁.within.varType?_eq (hdecl a ha)) hv.read fun p₂ h₂ hread => ?_
    refine hsome a ha hslot p₂ _ _ (h₁.adjusted.trans (.setVar rfl h₂)) hread ?_
    split
    · rfl
    · exact convert_convert hint y
  · rename_i hfind
    exact wp_pure (hnone (by simpa using List.find?_eq_none.mp hfind))

end GeometryPlan

end Lowering

end PrimitiveShader
