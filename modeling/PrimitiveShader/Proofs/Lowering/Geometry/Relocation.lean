import PrimitiveShader.Proofs.Emission.Alike
import PrimitiveShader.Proofs.Lowering.Geometry.Program

/-!
# Bodies staged in different places

Two plans resemble each other if they keep the same components of the same vertices, wherever they keep them
(`GeometryPlan.Resembles`). A body that is staged under both becomes the same code but for the addresses of its
stores, as long as the same of its streams are in use (`GeometryPlan.Resembles.stageBody`). A staged body looks at
nothing beyond a wave.
-/

namespace PrimitiveShader.Lowering

open Emit

/-- The place of an element within a region does not depend on where the region is. -/
instance {source : Program} (region region' : Region) (index : Value) (stride : Nat) :
    Alike source (region.elementAddress index stride) (region'.elementAddress index stride) := by
  unfold Region.elementAddress
  refine @Alike.bind _ _ _ _ _ _ _ _ fun constant => ?_
  cases constant with
  | none => infer_instance
  | some constant =>
    refine Alike.bind_lift fun start start' h h' => ?_
    rw [Region.element_eq_ok h, Region.element_eq_ok h']
    infer_instance

/-- Stores to the same element of two regions. -/
instance {source : Program} (region region' : Region) (value index : Value) (stride field : Nat) :
    Alike source (region.store value index stride field) (region'.store value index stride field) := by
  have hlast (addr : Value) : Alike source
      (do Emit.effect (.storeShared value addr (← region.fieldBase field)))
      (do Emit.effect (.storeShared value addr (← region'.fieldBase field))) :=
    .bind_lift fun base base' _ _ => .run (.store value addr base base') rfl
  unfold Region.store
  infer_instance

/-- Whether an instruction of a geometry program has to do with a stream. -/
def isOfStream (stream : UInt8) : Instr → Bool
  | .intrinsic (.storeOutput slot _) => slot.stream = stream
  | .intrinsic (.geometry (.emitVertex s _ _)) => s = stream
  | .intrinsic (.geometry (.endPrimitive s)) => s = stream
  | .intrinsic (.geometry (.setCounts s _ _)) => s = stream
  | _ => false

namespace GeometryPlan

/-- Plans that keep the same components of the same vertices. -/
structure Resembles (plan plan' : GeometryPlan) : Prop where
  attributes : plan'.attributes = plan.attributes
  stride : plan'.stride = plan.stride
  topology : plan'.config.topology = plan.config.topology
  wave : plan'.config.wave = plan.config.wave
  vertices : plan'.config.geometry.maxVerticesOut = plan.config.geometry.maxVerticesOut
  room : plan'.layout.vertexAttributes.isSome = plan.layout.vertexAttributes.isSome

theorem Resembles.refl (plan : GeometryPlan) : plan.Resembles plan := ⟨rfl, rfl, rfl, rfl, rfl, rfl⟩

namespace Resembles

variable {plan plan' : GeometryPlan} (h : plan.Resembles plan') (source : Program)
include h

theorem maxVertices : plan'.maxVertices = plan.maxVertices := by
  unfold GeometryPlan.maxVertices
  rw [h.vertices]

theorem placeOf_eq (i m : Nat) : plan'.placeOf i m = plan.placeOf i m := by
  unfold placeOf
  rw [h.vertices]

theorem placesOf_eq (launch : Launch) : plan'.placesOf launch = plan.placesOf launch := by
  unfold placesOf
  rw [h.vertices]

theorem streamAttributes (stream : UInt8) : plan'.streamAttributes stream = plan.streamAttributes stream := by
  unfold GeometryPlan.streamAttributes
  rw [h.attributes]

theorem vertexPlace (a : Value) : Alike source (plan.vertexPlace a) (plan'.vertexPlace a) := by
  unfold GeometryPlan.vertexPlace
  rw [h.maxVertices]
  infer_instance

theorem vertexFlags (a : Value) : Alike source (plan.vertexFlags a) (plan'.vertexFlags a) := by
  unfold GeometryPlan.vertexFlags
  rw [h.topology]
  infer_instance

theorem storeComponents (stream : UInt8) (a : Value) :
    Alike source (plan.storeComponents stream a) (plan'.storeComponents stream a) := by
  have hroom := h.room
  unfold GeometryPlan.storeComponents
  rw [h.streamAttributes, h.stride]
  cases hlayout : plan.layout.vertexAttributes with
  | none =>
    rw [hlayout, Option.isSome_none, Option.isSome_eq_false_iff, Option.isNone_iff_eq_none] at hroom
    rw [hroom]
    infer_instance
  | some region =>
    rw [hlayout, Option.isSome_some, Option.isSome_iff_exists] at hroom
    obtain ⟨region', hlayout'⟩ := hroom
    rw [hlayout']
    infer_instance

theorem storeVertex (stream : UInt8) (a b : Value) :
    Alike source (plan.storeVertex stream a b) (plan'.storeVertex stream a b) := by
  have hplace := h.vertexPlace source a
  have hfields := fun place => h.storeComponents source stream place
  have hflags := h.vertexFlags source b
  have hlast (place flags : Value) : Alike source (do (← plan.flagsRegion stream).store flags place 1 0)
      (do (← plan'.flagsRegion stream).store flags place 1 0) :=
    .bind_lift fun _ _ _ _ => inferInstance
  unfold GeometryPlan.storeVertex
  infer_instance

theorem stageVertex (stream : UInt8) (a b : Value) :
    Alike source (plan.stageVertex stream a b) (plan'.stageVertex stream a b) := by
  have hstore := h.storeVertex source stream a b
  unfold GeometryPlan.stageVertex resetComponents
  rw [h.maxVertices, h.streamAttributes]
  infer_instance

theorem clearFlags (stream : UInt8) (a : Value) :
    Alike source (plan.clearFlags stream a) (plan'.clearFlags stream a) := by
  have hplace := fun i => h.vertexPlace source i
  have hround (region region' : Region) (index : Var) :
      Alike source (plan.clearRound region index) (plan'.clearRound region' index) := by
    unfold clearRound
    rw [h.maxVertices]
    infer_instance
  unfold GeometryPlan.clearFlags
  exact Alike.bind_lift fun region region' _ _ => inferInstance

theorem stateCounts (stream : UInt8) (a b : Value) :
    Alike source (plan.stateCounts stream a b) (plan'.stateCounts stream a b) := by
  have hclear := h.clearFlags source stream a
  have hsum : Alike source (plan.primitiveSum b) (plan'.primitiveSum b) := by
    unfold primitiveSum
    rw [h.wave]
    refine @Alike.bind _ _ _ _ _ _ _ _ fun constant => ?_
    cases constant <;> infer_instance
  have hcount : Alike source (plan.countPrimitives stream b) (plan'.countPrimitives stream b) := by
    unfold countPrimitives
    rw [h.wave]
    infer_instance
  unfold GeometryPlan.stateCounts
  rw [h.maxVertices]
  infer_instance

theorem keepOutput (slot : OutputSlot) (a : Value) :
    Alike source (plan.keepOutput slot a) (plan'.keepOutput slot a) := by
  unfold GeometryPlan.keepOutput
  rw [h.attributes]
  cases plan.attributes.find? (·.slot = slot) <;> infer_instance

end Resembles

/-- An instruction of the source that an invocation runs on its own, and whose streams are in use under both plans
or under neither. -/
def Resembles.Admits (plan plan' : GeometryPlan) (source : Program) (value : Value) : Prop :=
  ∃ instr, source.instr value = .ok instr ∧ instr.isScalar ∧ ∀ stream, isOfStream stream instr →
    plan'.config.geometry.usesStream stream = plan.config.geometry.usesStream stream

namespace Resembles

variable {value : Value} {plan plan' : GeometryPlan} {source : Program}

theorem stageAs (h : plan.Resembles plan') {instr : Instr} (hi : source.instr value = .ok instr)
    (hscalar : instr.isScalar) (hstreams : ∀ stream, isOfStream stream instr →
      plan'.config.geometry.usesStream stream = plan.config.geometry.usesStream stream) :
    Alike source (plan.stageAs value instr) (plan'.stageAs value instr) := by
  have hplace (hstaging : instr.isStaging) : Alike source (Emit.place [.instr value]) (Emit.place [.instr value]) :=
    .place (.instr hi hstaging)
  cases instr with
  | intrinsic op =>
    cases op with
    | storeOutput slot data => exact h.keepOutput source slot data
    | geometry op =>
      cases op with
      | endPrimitive stream => exact .pure ()
      | emitVertex stream number before =>
        have hvertex := h.stageVertex source stream number before
        simp only [GeometryPlan.stageAs, hstreams stream (by simp [isOfStream])]
        infer_instance
      | setCounts stream vertices primitives =>
        have hcounts := h.stateCounts source stream vertices primitives
        simp only [GeometryPlan.stageAs, hstreams stream (by simp [isOfStream])]
        infer_instance
    | input | queryAdd => exact hplace rfl
    | _ => cases hscalar
  | _ => exact hplace rfl

theorem stageInstr (h : plan.Resembles plan') (hv : Admits plan plan' source value) :
    Alike source (plan.stageInstr value) (plan'.stageInstr value) where
  alike hp hq hpq h₁ h₂ := by
    obtain ⟨instr, hi, hscalar, hstreams⟩ := hv
    exact (h.stageAs hi hscalar hstreams).alike hp hq hpq (stageInstr_eq_ok hp hi h₁) (stageInstr_eq_ok hq hi h₂)

mutual

theorem stageNode (h : plan.Resembles plan') : ∀ node : Node, (∀ v ∈ node.values, Admits plan plan' source v) →
    Alike source (plan.stageNode node) (plan'.stageNode node)
  | .instr value, hvalues => by
    unfold GeometryPlan.stageNode
    exact h.stageInstr (hvalues value (by simp [Node.values]))
  | .branch cond thenBlock elseBlock, hvalues => by
    have := stageBlock h thenBlock fun v hv => hvalues v (by simp [Node.values, hv])
    have := stageBlock h elseBlock fun v hv => hvalues v (by simp [Node.values, hv])
    unfold GeometryPlan.stageNode
    infer_instance
  | .loop body, hvalues => by
    have := stageBlock h body fun v hv => hvalues v (by simp [Node.values, hv])
    unfold GeometryPlan.stageNode
    infer_instance
  | .leave, _ => by
    unfold GeometryPlan.stageNode
    infer_instance

theorem stageBlock (h : plan.Resembles plan') : ∀ block : List Node,
    (∀ v ∈ Block.values block, Admits plan plan' source v) →
    Alike source (plan.stageBlock block) (plan'.stageBlock block)
  | [], _ => by
    unfold GeometryPlan.stageBlock
    infer_instance
  | node :: rest, hvalues => by
    have := stageNode h node fun v hv => hvalues v (by simp [Block.values, hv])
    have := stageBlock h rest fun v hv => hvalues v (by simp [Block.values, hv])
    unfold GeometryPlan.stageBlock
    infer_instance

end

/-- A body becomes the same code but for the addresses of its stores. -/
theorem stageBody (h : plan.Resembles plan') {body : Block}
    (hvalues : ∀ v ∈ Block.values body, Admits plan plan' source v) :
    Alike source (plan.stageBody body) (plan'.stageBody body) := by
  have := h.stageBlock body hvalues
  unfold GeometryPlan.stageBody
  infer_instance

end Resembles

variable {plan : GeometryPlan} {source : Program}

theorem Resembles.front {plan' : GeometryPlan} (h : plan.Resembles plan') {body : Block}
    (hvalues : ∀ v ∈ Block.values body, Resembles.Admits plan plan' source v) :
    Alike source (plan.front body) (plan'.front body) := by
  have := h.stageBody hvalues
  unfold GeometryPlan.front
  infer_instance

/-- Every instruction of a body that invocations run on their own is admitted. -/
theorem admits_of_scalar (hvalid : source.validate = .ok ()) (hscalar : Block.All source (·.isScalar) source.body) :
    ∀ v ∈ Block.values source.body, Resembles.Admits plan plan source v := fun v hv => by
  obtain ⟨i, hi⟩ := Program.exists_instr_of_validate hvalid hv
  exact ⟨i, hi, hscalar v hv i hi, fun _ _ => rfl⟩

/-- A staged body looks at nothing beyond a wave. -/
theorem staging_stageBody {p p' : Program} {u : Unit}
    (hvalid : source.validate = .ok ()) (hscalar : Block.All source (·.isScalar) source.body)
    (hw : source.Within p) (h : plan.stageBody source.body p = .ok (u, p')) :
    Block.Staging p' (p'.body.drop p.body.length) :=
  (((Resembles.refl plan).stageBody (admits_of_scalar hvalid hscalar)).alike hw hw (.refl p) h h).2.2

end GeometryPlan

end PrimitiveShader.Lowering
