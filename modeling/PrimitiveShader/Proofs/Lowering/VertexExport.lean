import PrimitiveShader.Proofs.Lowering.InputPrimitive
import PrimitiveShader.Proofs.Memory.Words

/-!
# Exports of vertex and tessellation programs

The lane of an input primitive exports one word, and if primitive numbers are relayed it leaves its
number at the place of the provoking vertex. The lane of an input vertex exports its outputs, with the
primitive number among them if that is asked for.
-/

namespace PrimitiveShader.Lowering.VertexPlan

open Emit

variable {plan : VertexPlan} {c : Setting} {id : LaneId} {p : Program} {t : Thread}
  {L : Thread → Prop} {Q : Unit → Program → Thread → Prop} {prim : InputPrimitive} {var : Option Var}

instance {K : Instr → Prop} [Instr.Common K] (word : Value) : Novel K (plan.exportWord word) := by
  unfold exportWord
  cases plan.relay <;> infer_instance

instance {K : Instr → Prop} [Instr.Common K] : Novel K (plan.exportPrimitive var) := by
  unfold exportPrimitive
  cases var <;> infer_instance

instance {K : Instr → Prop} [Instr.Common K] : Novel K plan.exportVertex := by
  unfold exportVertex
  cases plan.relay <;> infer_instance

/-- The place of the primitive's provoking vertex in the relay. -/
def relayPlace (plan : VertexPlan) (prim : InputPrimitive) : Nat :=
  (prim.half plan.config.provokingIndex).toNat

/-- The lane of a primitive owns the place of the provoking vertex in the relay. -/
def OwnsRelay (plan : VertexPlan) (c : Setting) (id : LaneId) (prim : InputPrimitive) : Prop :=
  ∀ relay, plan.relay = some relay → relay.Holds c.program (plan.relayPlace prim) 4 ∧
    ∀ j < 4, c.own (relay.fieldAddress (plan.relayPlace prim) 4 0 + j) = some id.index

/-- The bytes of memory once a number has been left at the primitive's place in the relay. -/
def relayed (plan : VertexPlan) (prim : InputPrimitive) (number : UInt64) (view : Nat → UInt8) : Nat → UInt8 :=
  match plan.relay with
  | none => view
  | some relay => overwrite view (relay.fieldAddress (plan.relayPlace prim) 4 0) 4 number

/-- A word is the one of the primitive, if that can be packed. -/
def IsWord (plan : VertexPlan) (launch : Launch) (prim : InputPrimitive) (w : ExportWord) : Prop :=
  plan.Packs launch prim → w = plan.word prim

/-- Where the word comes from: it is in a variable, or it can be packed now. -/
def HasWord (plan : VertexPlan) (c : Setting) (p : Program) (t : Thread) (prim : InputPrimitive) :
    Option Var → Prop
  | some x => p.varType? x = some .u32 ∧
      ∃ w : ExportWord, t.lane.readVar x = .ok w.bits.toUInt64 ∧ plan.IsWord c.group.launch prim w
  | none => c.faults ∨ plan.Packs c.group.launch prim

/-- The number of the lane's primitive. -/
def primitiveIdOf (group : Workgroup) (id : LaneId) : UInt64 :=
  match group.program.stage, group.launch.primitive? id.index with
  | .tessEval, _ => (group.launch.patchIds[id.index]?.getD 0).toUInt64
  | _, some p => p.id.toUInt64
  | _, none => 0

theorem primitiveId_eval (group : Workgroup) (id : LaneId) :
    LaneInput.primitiveId.eval group id = .ok (primitiveIdOf group id) := by
  simp only [primitiveIdOf, LaneInput.eval]
  cases group.program.stage <;> cases group.launch.primitive? id.index <;> rfl

variable {i : Nat} {group : Workgroup}

/-- In vertex programs it is the number of the lane's primitive. -/
theorem primitiveIdOf_vertex (h : group.program.stage = .vertex)
    (hprim : group.launch.primitive? i = some prim) : primitiveIdOf group (group.laneId i) = prim.id.toUInt64 := by
  simp only [primitiveIdOf, h, Workgroup.laneId, hprim]

theorem wp_primitiveId {Q : Value → Program → Thread → Prop}
    (hQ : Learns p t .u32 (primitiveIdOf c.group id) Q) : Emit.wp c id (Emit.input .primitiveId) p Q L t := by
  refine wp_input ?_
  rw [primitiveId_eval]
  exact hQ

/-- The relay is written if there is one, and the word is exported. -/
theorem wp_exportWord {word : Value} {w : ExportWord}
    (hprim : c.group.launch.primitive? id.index = some prim) (hrelay : plan.OwnsRelay c id prim)
    (hword : Knows p t word .u32 w.bits.toUInt64) (hQ : ∀ p' t', Computed p { t with
        view := plan.relayed prim (primitiveIdOf c.group id) t.view
        primitives := t.primitives ++ [w] } p' t' → Q () p' t') :
    Emit.wp c id (plan.exportWord word) p Q L t := by
  have hbits : w.bits.toUInt64.toUInt32 = w.bits := UInt32.toUInt32_toUInt64 w.bits
  unfold exportWord
  unfold relayed at hQ
  cases hr : plan.relay with
  | none =>
    simp only [hr] at hQ
    refine wp_exportPrimitive hword fun p' hp => ?_
    rw [hbits]
    exact hQ p' _ (.of_within hp)
  | some relay =>
    simp only [hr] at hQ
    obtain ⟨hholds, hown⟩ := hrelay relay hr
    refine wp_bind (wp_inputVertex hprim fun provoking p₁ t₁ h₁ hprovoking => ?_)
    refine wp_bind (wp_primitiveId fun number p₂ t₂ h₂ hnumber => ?_)
    rw [← show UInt64.ofNat (plan.relayPlace prim) = prim.half _ from UInt64.ofNat_toNat] at hprovoking
    refine wp_bind (Region.wp_store hnumber rfl (hprovoking.computed h₂) hholds (fun _ => hown) fun p₃ t₃ h₃ => ?_)
    have h₁₂ := h₁.trans h₂
    refine wp_exportPrimitive ((hword.computed h₁₂).later ⟨h₃.within, h₃.read⟩) fun p' hp => ?_
    rw [hbits]
    rw [h₁₂.view] at h₃
    exact hQ p' _ ((((h₁₂.withView _).trans h₃).withPrimitives [w]).trans (.of_within hp))

/-- The export of a lane without an input primitive. -/
theorem wp_exportPrimitive_none (hprim : c.group.launch.primitive? id.index = none)
    (hQ : ∀ p' t', Computed p t p' t' → Q () p' t') : Emit.wp c id (plan.exportPrimitive var) p Q L t := by
  unfold exportPrimitive
  refine wp_bind (wp_input ?_)
  simp only [LaneInput.eval, hprim]
  intro v p₁ t₁ h₁ hv
  exact wp_ifThen hv (fun hne => absurd rfl hne) fun _ p₂ h₂ =>
    hQ p₂ t₁ (h₁.trans (.of_within h₂.within))

/-- The export of a lane with an input primitive. -/
theorem wp_exportPrimitive_some (hprim : c.group.launch.primitive? id.index = some prim)
    (hrelay : plan.OwnsRelay c id prim) (hword : plan.HasWord c p t prim var)
    (hQ : ∀ p' t' w, plan.IsWord c.group.launch prim w → Computed p { t with
        view := plan.relayed prim (primitiveIdOf c.group id) t.view
        primitives := t.primitives ++ [w] } p' t' → Q () p' t') :
    Emit.wp c id (plan.exportPrimitive var) p Q L t := by
  unfold exportPrimitive
  refine wp_bind (wp_input ?_)
  simp only [LaneInput.eval, hprim]
  intro v p₁ t₁ h₁ hv
  refine wp_ifThen hv (fun _ p₂ h₂ => ?_) fun hz => absurd hz (show ¬ true.toUInt64 = 0 by decide)
  have h₁₂ : Computed p t p₂ t₁ := h₁.trans (.of_within h₂.within)
  -- Behind the word, wherever it comes from, the two cases are the same.
  have hrest : ∀ word p₃ t₃ w, Computed p t p₃ t₃ → Knows p₃ t₃ word .u32 w.bits.toUInt64 →
      plan.IsWord c.group.launch prim w → Emit.wp c id (plan.exportWord word) p₃
        (fun _ p₄ t₄ => ∀ p₅, Later p₄ t₄ p₅ t₄ → Q () p₅ t₄) L t₃ := by
    intro word p₃ t₃ w h₃ hknows hw
    refine wp_exportWord hprim hrelay hknows fun p₄ t₄ h₄ p₅ h₅ => ?_
    rw [h₃.view] at h₄
    have hsent := (h₃.withView (plan.relayed prim (primitiveIdOf c.group id) t.view)).withPrimitives [w]
    exact hQ p₅ t₄ w hw ((hsent.trans h₄).trans (.of_within h₅.within))
  cases var with
  | some x =>
    obtain ⟨htype, w, hread, hw⟩ := hword
    refine wp_bind (wp_loadVar (h₁₂.within.varType?_eq htype) (x := w.bits.toUInt64) ?_
      fun word p₃ t₃ h₃ hknows => hrest word p₃ t₃ w (h₁₂.trans h₃) hknows hw)
    rw [← hread]
    unfold Lane.readVar
    rw [h₁₂.vars]
  | none =>
    exact wp_bind (wp_primitiveWord hprim hword fun word p₃ t₃ w h₃ hknows hw =>
      hrest word p₃ t₃ w (h₁₂.trans h₃) hknows hw)

/-- A number is the one of the lane. If there is a relay, it is the number of the primitive whose provoking vertex
is the one of the lane, if there is such a primitive. -/
structure IsNumber (plan : VertexPlan) (group : Workgroup) (id : LaneId) (a : UInt64) : Prop where
  own : plan.relay = none → a = primitiveIdOf group id
  relayed : ∀ i prim, plan.relay.isSome → group.launch.primitive? i = some prim → plan.relayPlace prim = id.index →
    a = primitiveIdOf group (group.laneId i) &&& Bits.lowOnes 32

/-- What a lane exports for its vertex: its outputs, with the primitive number if that is asked for. -/
def IsVertex (plan : VertexPlan) (group : Workgroup) (id : LaneId) (outputs : SlotTable UInt64)
    (vertex : SlotTable UInt64) : Prop :=
  if plan.config.exportPrimitiveId then
    ∃ a, plan.IsNumber group id a ∧ vertex = outputs.insert primitiveIdSlot a
  else vertex = outputs

/-- The number of the primitive of lane `i`, if there is one, is at its place in the relay. -/
def Noted (plan : VertexPlan) (group : Workgroup) (i : Nat) (view : Nat → UInt8) : Prop :=
  ∀ relay prim, plan.relay = some relay → group.launch.primitive? i = some prim →
    littleEndian view (relay.fieldAddress (plan.relayPlace prim) 4 0) 4 0 =
      primitiveIdOf group (group.laneId i) &&& Bits.lowOnes 32

theorem noted_relayed (plan : VertexPlan) (hprim : group.launch.primitive? i = some prim) (view : Nat → UInt8) :
    plan.Noted group i (plan.relayed prim (primitiveIdOf group (group.laneId i)) view) := by
  intro relay prim' hr hprim'
  cases hprim.symm.trans hprim'
  simp only [relayed, hr]
  exact littleEndian_overwrite view _ (by decide) _

/-- The place of the lane's vertex in the relay can be read, and all numbers are in place. -/
structure ReadsRelay (plan : VertexPlan) (c : Setting) (id : LaneId) (view : Nat → UInt8) : Prop where
  place : ∀ relay, plan.relay = some relay → relay.Holds c.program id.index 4 ∧
    ∀ j < 4, c.own (relay.fieldAddress id.index 4 0 + j) = none
  noted : ∀ i, plan.Noted c.group i view

/-- The export of a lane with an input vertex. -/
theorem wp_exportVertex (hrelay : plan.ReadsRelay c id t.view)
    (hQ : ∀ p' t' vertex, plan.IsVertex c.group id t.lane.outputs vertex →
      t'.vertices = t.vertices ++ [vertex] → t'.primitives = t.primitives → t'.space = t.space → Q () p' t') :
    Emit.wp c id plan.exportVertex p Q L t := by
  unfold exportVertex
  by_cases hid : plan.config.exportPrimitiveId = true
  · have hrest : ∀ v p₁ t₁ a, Computed p t p₁ t₁ → Knows p₁ t₁ v .u32 a → plan.IsNumber c.group id a → Emit.wp c id (do
          Emit.effect (.storeOutput primitiveIdSlot v)
          Emit.effect .exportVertex) p₁ Q L t₁ := by
      intro v p₁ t₁ a h₁ hv ha
      refine wp_bind (wp_storeOutput hv fun p₂ _ => Emit.wp_exportVertex fun p₃ _ => ?_)
      refine hQ p₃ _ (t.lane.outputs.insert primitiveIdSlot a) ?_ ?_ h₁.primitives h₁.space
      · simp only [IsVertex, hid, ↓reduceIte]
        exact ⟨a, ha, rfl⟩
      · simp only [Thread.setOutput, h₁.outputs, h₁.vertices]
    simp only [hid, ↓reduceIte]
    cases hr : plan.relay with
    | none =>
      exact wp_bind (wp_primitiveId fun v p₁ t₁ h₁ hv => hrest v p₁ t₁ _ h₁ hv ⟨fun _ => rfl, by simp [hr]⟩)
    | some relay =>
      obtain ⟨hholds, hfree⟩ := hrelay.place relay hr
      refine wp_bind (wp_input ?_)
      intro lane p₁ t₁ h₁ hlane
      refine wp_bind (Region.wp_load hlane hholds rfl (fun _ => hfree) fun v p₂ t₂ h₂ hv =>
        hrest v p₂ t₂ _ (h₁.trans h₂) hv ⟨by simp [hr], fun i prim _ hprim hplace => ?_⟩)
      rw [h₁.view, ← hplace]
      exact hrelay.noted i relay prim hr hprim
  · simp only [hid, Bool.false_eq_true, ↓reduceIte]
    refine Emit.wp_exportVertex fun p₁ _ => hQ p₁ _ t.lane.outputs ?_ rfl rfl rfl
    simp [IsVertex, hid]

end PrimitiveShader.Lowering.VertexPlan
