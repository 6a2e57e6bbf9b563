import PrimitiveShader.Proofs.Lowering.VertexExport
import PrimitiveShader.Proofs.Scalar.Placement

/-!
# Runs of lowered vertex and tessellation programs

Whether the primitives are exported before the body or after it, every lane with an input primitive
exports its word and every lane with an input vertex exports the outputs of an invocation of the source
(`VertexPlan.wholeProgram_plays`). The two orders are the same around the barrier of the relay: what is
in front of it exports the primitives, and what is behind it exports the vertices.
-/

namespace PrimitiveShader.Lowering.VertexPlan

open Emit

/-- What the code relies on if primitive numbers are relayed. -/
structure Relays (plan : VertexPlan) (group : Workgroup) (relay : Region) : Prop where
  holds : ∀ n < group.launch.inputVertices, relay.Holds group.program n 4
  provoking : ∀ i prim, group.launch.primitive? i = some prim →
    (prim.half plan.config.provokingIndex).toNat < group.launch.inputVertices
  distinct : ∀ i j prim prim', group.launch.primitive? i = some prim →
    group.launch.primitive? j = some prim' →
    prim.half plan.config.provokingIndex = prim'.half plan.config.provokingIndex → i = j

/-- What the lowered program relies on: its source, its launch, and the faults that are admitted. -/
structure Suits (plan : VertexPlan) (source group : Workgroup) (faults : Prop) : Prop
    extends group.Hosts source where
  fits : group.Fits
  launched : group.launch.Valid group.wave
  valid : source.program.validate = .ok ()
  stays : Block.All source.program Instr.Stays source.program.body
  panics : ∀ i < source.launch.inputVertices, ∀ fault, source.Invokes i (.faulted fault) → faults
  packs : faults ∨ ∀ i prim, source.launch.primitive? i = some prim → plan.Packs source.launch prim
  relays : ∀ relay, plan.relay = some relay → plan.Relays group relay

/-- The place of a provoking vertex in the relay belongs to the lane of its primitive. -/
def relayOwner (plan : VertexPlan) (launch : Launch) : Ownership := fun a =>
  match plan.relay with
  | none => none
  | some relay =>
    if relay.offset ≤ a then
      launch.primitives.findIdx? fun prim =>
        (prim.half plan.config.provokingIndex).toNat == (a - relay.offset) / 4
    else none

/-! ## What the lanes have done -/

/-- The words that lane `i` exports. -/
def Words (plan : VertexPlan) (launch : Launch) (i : Nat) (words : List ExportWord) : Prop :=
  match launch.primitive? i with
  | none => words = []
  | some prim => ∃ w, plan.IsWord launch prim w ∧ words = [w]

/-- The vertices that lane `i` exports: the outputs of an invocation of the source. -/
def Vertices (plan : VertexPlan) (source : Workgroup) (i : Nat) (vertices : List (SlotTable UInt64)) :
    Prop :=
  if i < source.launch.inputVertices then
    ∃ inv vertex, source.Invokes i (.next inv) ∧
      plan.IsVertex source (source.laneId i) inv.lane.outputs vertex ∧ vertices = [vertex]
  else vertices = []

/-- The space of the workgroup. -/
def Asked (launch : Launch) (i : Nat) (t : Thread) : Prop :=
  i = 0 → t.space = some ⟨launch.inputVertices, launch.primitives.size⟩

/-- What lane `i` has done in the end. -/
structure Exports (plan : VertexPlan) (source : Workgroup) (i : Nat) (t : Thread) : Prop where
  space : Asked source.launch i t
  primitives : plan.Words source.launch i t.primitives
  vertices : plan.Vertices source i t.vertices

/-- Lane `i` has exported nothing, and the space has been asked for. -/
structure Begun (source : Workgroup) (i : Nat) (t : Thread) : Prop extends
    Idle source.program t where
  space : Asked source.launch i t

/-- Lane `i` has exported its primitive and nothing else. -/
structure Sent (plan : VertexPlan) (source : Workgroup) (i : Nat) (t : Thread) : Prop where
  space : Asked source.launch i t
  primitives : plan.Words source.launch i t.primitives
  vertices : t.vertices = []

variable {plan : VertexPlan} {source group : Workgroup} {faults : Prop} {i : Nat} {t t' : Thread} {p p' : Program}
  {own : Ownership} {L : Thread → Prop} {vertices : List (SlotTable UInt64)} {T : Nat → Thread}
  {Q : Unit → Program → Thread → Prop}

theorem Vertices.of_le (h : plan.Vertices source i vertices)
    (hi : source.launch.inputVertices ≤ i) : vertices = [] := by
  rwa [Vertices, if_neg (Nat.not_lt.mpr hi)] at h

theorem Begun.computed (h : Begun source i t) (hw : source.program.Within p)
    (hc : Computed p t p' t') : Begun source i t' where
  toIdle := h.toIdle.computed hw hc
  space hi := hc.space.trans (h.space hi)

theorem Sent.congr (h : plan.Sent source i t) (hspace : t'.space = t.space)
    (hprims : t'.primitives = t.primitives) (hverts : t'.vertices = t.vertices) : plan.Sent source i t' :=
  ⟨fun hi => hspace.trans (h.space hi), hprims ▸ h.primitives, hverts.trans h.vertices⟩

/-- A lane without an input vertex is done. -/
theorem Sent.exports (h : plan.Sent source i t) (hi : ¬ i < source.launch.inputVertices) : plan.Exports source i t := by
  refine ⟨h.space, h.primitives, ?_⟩
  rw [Vertices, if_neg hi]
  exact h.vertices

/-! ## Single steps -/

section

variable (h : plan.Suits source group faults)
include h

/-- The lane of a primitive owns the place of the provoking vertex. -/
theorem Suits.ownsRelay {prim : InputPrimitive}
    (hprim : group.launch.primitive? i = some prim) :
    plan.OwnsRelay ⟨group, plan.relayOwner group.launch, faults⟩ (group.laneId i) prim := by
  intro relay hr
  have hrelay := h.relays relay hr
  refine ⟨hrelay.holds _ (hrelay.provoking i prim hprim), fun j hj => ?_⟩
  unfold relayPlace
  have hplace : (relay.fieldAddress (prim.half plan.config.provokingIndex).toNat 4 0 + j -
      relay.offset) / 4 = (prim.half plan.config.provokingIndex).toNat := by
    unfold Region.fieldAddress
    omega
  have hle : relay.offset ≤ relay.fieldAddress (prim.half plan.config.provokingIndex).toNat 4 0 + j := by
    unfold Region.fieldAddress
    omega
  simp only [relayOwner, hr, hle, ↓reduceIte, hplace]
  obtain ⟨hi, hget⟩ := Array.getElem?_eq_some_iff.mp hprim
  change _ = some i
  rw [Array.findIdx?_eq_some_iff_getElem]
  refine ⟨hi, by simp [hget], fun k hk heq => ?_⟩
  have hk' : k < group.launch.primitives.size := Nat.lt_trans hk hi
  have hsame := hrelay.distinct k i _ prim (Array.getElem?_eq_getElem hk') hprim
    (UInt64.toNat_inj.mp (by simpa using heq))
  omega

theorem Suits.wp_exportPrimitive {var : Option Var} (hspace : Asked source.launch i t)
    (hprims : t.primitives = []) (hverts : t.vertices = []) (hword : ∀ prim, group.launch.primitive? i = some prim →
      plan.HasWord ⟨group, plan.relayOwner group.launch, faults⟩ p t prim var)
    (hQ : ∀ p' t' u, Computed p u p' t' → u.lane = t.lane → plan.Sent source i t' →
      plan.Noted group i t'.view → Q () p' t') : Emit.wp ⟨group, plan.relayOwner group.launch, faults⟩ (group.laneId i)
      (plan.exportPrimitive var) p Q L t := by
  cases hprim : group.launch.primitive? i with
  | none =>
    refine wp_exportPrimitive_none hprim fun p' t' hc => ?_
    refine hQ p' t' t hc rfl ⟨fun hi => hc.space.trans (hspace hi), ?_, hc.vertices.trans hverts⟩
      fun _ _ _ hprim' => nomatch hprim.symm.trans hprim'
    rw [Words, ← h.launch, hprim]
    exact hc.primitives.trans hprims
  | some prim =>
    refine wp_exportPrimitive_some hprim (h.ownsRelay hprim) (hword prim hprim) fun p' t' w hw hc => ?_
    refine hQ p' t' _ hc rfl ⟨fun hi => hc.space.trans (hspace hi), ?_, hc.vertices.trans hverts⟩
      (hc.view ▸ plan.noted_relayed hprim t.view)
    rw [Words, ← h.launch, hprim]
    refine ⟨w, hw, ?_⟩
    rw [hc.primitives, hprims]
    rfl

/-- Code for the lanes with an input vertex. -/
theorem Suits.wp_ifVertex {e : Emit Unit}
    (hQ : ∀ p₁ t₁, Computed p t p₁ t₁ → (i < source.launch.inputVertices → ∀ p₂, p₁.Within p₂ →
        Emit.wp ⟨group, own, faults⟩ (group.laneId i) e p₂ (fun _ p₃ t₃ => ∀ p₄, p₃.Within p₄ → Q () p₄ t₃) L t₁) ∧
      (¬ i < source.launch.inputVertices → ∀ p₂, p₁.Within p₂ → Q () p₂ t₁)) :
    Emit.wp ⟨group, own, faults⟩ (group.laneId i)
      (Emit.input .hasInputVertex >>= fun hasVertex => Emit.ifThen hasVertex e) p Q L t := by
  refine wp_bind (wp_input ?_)
  intro hasVertex p₁ t₁ h₁ hk
  change Knows p₁ t₁ hasVertex .bool (decide (i < group.launch.inputVertices)).toUInt64 at hk
  obtain ⟨hwith, hwithout⟩ := hQ p₁ t₁ h₁
  rw [← h.launch] at hwith hwithout
  refine wp_ifThen hk (fun hne p₂ h₂ => ?_) fun hz p₂ h₂ => ?_
  · have hi : i < group.launch.inputVertices := by
      simpa [toUInt64_eq_zero_iff] using hne
    exact wp_mono (hwith hi p₂ h₂.within) (fun _ _ _ hq p₄ h₄ => hq p₄ h₄.within) fun _ hl => hl
  · have hi : ¬ i < group.launch.inputVertices := by
      simpa [toUInt64_eq_zero_iff] using hz
    exact hwithout hi p₂ h₂.within

end

/-- The primitive number is the one of the source. -/
theorem IsNumber.hosts {id : LaneId} {a : UInt64} (h : group.Hosts source) (ha : plan.IsNumber group id a) :
    plan.IsNumber source id a := by
  have hnumber (id : LaneId) : primitiveIdOf group id = primitiveIdOf source id := by
    simp only [primitiveIdOf, h.stage, h.launch]
  refine ⟨fun hr => (ha.own hr).trans (hnumber id), fun i prim hr hprim hplace => ?_⟩
  rw [ha.relayed i prim hr (h.launch ▸ hprim) hplace, hnumber]
  unfold Workgroup.laneId
  rw [h.wave]

section

variable (h : plan.Suits source group faults)
include h

/-- The export of a vertex, with the outputs of an invocation. -/
theorem Suits.wp_exportVertex {inv : Invocation} (hi : i < source.launch.inputVertices) (hsent : plan.Sent source i t)
    (hnoted : ∀ j, plan.Noted group j t.view) (hinv : source.Invokes i (.next inv))
    (houtputs : t.lane.outputs = inv.lane.outputs) :
    Emit.wp ⟨group, fun _ => none, faults⟩ (group.laneId i) plan.exportVertex p
      (fun _ _ => plan.Exports source i) L t := by
  have hid : group.laneId i = source.laneId i := by
    unfold Workgroup.laneId
    rw [h.wave]
  refine VertexPlan.wp_exportVertex ⟨fun relay hr => ⟨?_, fun _ _ => rfl⟩, hnoted⟩
    fun p' t' vertex hvertex hverts hprims hspace => ⟨?_, ?_, ?_⟩
  · exact (h.relays relay hr).holds i (by rwa [h.launch])
  · exact fun hzero => hspace.trans (hsent.space hzero)
  · rw [hprims]
    exact hsent.primitives
  · rw [Vertices, if_pos hi]
    refine ⟨inv, vertex, hinv, ?_, ?_⟩
    · rw [houtputs, hid] at hvertex
      unfold IsVertex at hvertex ⊢
      split
      · rename_i hexport
        rw [if_pos hexport] at hvertex
        exact hvertex.imp fun _ ha => ⟨ha.1.hosts h.toHosts, ha.2⟩
      · rename_i hexport
        rwa [if_neg hexport] at hvertex
    · rw [hverts, hsent.vertices]
      rfl

/-! ## Both sides of the barrier -/

/-- Behind the barrier all numbers are in place. -/
theorem Suits.noted_of_meet {view : Nat → UInt8} (hT : ∀ i < group.launch.numLanes, plan.Noted group i (T i).view)
    (hagree : ∀ i < group.launch.numLanes, ∀ a, plan.relayOwner group.launch a = none ∨
      plan.relayOwner group.launch a = some i → (T i).view a = view a) (i : Nat) : plan.Noted group i view := by
  intro relay prim hr hprim
  have hi : i < group.launch.numLanes :=
    Nat.lt_of_lt_of_le (Array.getElem?_eq_some_iff.mp hprim).1 h.launched.primitives
  rw [← hT i hi relay prim hr hprim]
  exact littleEndian_congr fun j _ hj =>
    (hagree i hi _ (.inr ((h.ownsRelay hprim relay hr).2 j (by omega)))).symm

/-- What is in front of the barrier exports the primitives, and what is behind it the vertices. -/
theorem Suits.plays_around (hsource : source.program.Within p)
    {send finish : Emit Unit} [Steady source.program false send] [Steady source.program false finish] {M : Promise}
    (hsend : ∀ i < group.launch.numLanes, ∀ t, Begun source i t →
      Emit.wp ⟨group, plan.relayOwner group.launch, faults⟩ (group.laneId i) send p
        (fun _ _ u => M i u ∧ plan.Noted group i u.view) (fun _ => faults) t)
    (hfinish : ∀ i < group.launch.numLanes, ∀ t view p', source.program.Within p' → M i t →
      (∀ j, plan.Noted group j view) → Emit.wp ⟨group, fun _ => none, faults⟩ (group.laneId i) finish p'
        (fun _ _ => plan.Exports source i) (fun _ => faults) (t.see view)) :
    Emit.Plays group faults (fun T => ∀ i < group.launch.numLanes, plan.Exports source i (T i))
      (plan.relayOwner group.launch) (fun i t => Begun source i t)
      (send >>= fun _ => plan.relayBarrier >>= fun _ => finish) p := by
  unfold relayBarrier
  cases hr : plan.relay with
  | none =>
    have hown : plan.relayOwner group.launch = fun _ => none := by
      funext a
      simp [relayOwner, hr]
    simp only [Option.isSome_none, Bool.false_eq_true, ↓reduceIte, pure_bind]
    refine .each hsource h.fits hsend fun _ p' _ hsource' => ?_
    rw [hown]
    exact .finish hsource' h.fits (fun i hi t ht => hfinish i hi t t.view p' hsource' ht.1
      fun _ _ _ hr' => nomatch hr.symm.trans hr') fun T hT => hT
  | some relay =>
    simp only [Option.isSome_some, ↓reduceIte]
    refine .each hsource h.fits hsend fun _ p' _ hsource' => ?_
    refine .barrier (fun _ _ _ => none) fun T view p₁ hw hT hagree => ?_
    have hnoted := h.noted_of_meet (fun i hi => (hT i hi).2) hagree
    refine .finish (hsource'.trans hw) h.fits (fun i hi t ht => ?_) fun T hT => hT
    rw [ht]
    exact hfinish i hi (T i) view p₁ (hsource'.trans hw) (hT i hi).1 hnoted

/-- The lanes export the primitives, and then those with a vertex run the body and export it. -/
theorem Suits.exportThenRun_plays (hsource : source.program.Within p) :
    Emit.Plays group faults (fun T => ∀ i < group.launch.numLanes, plan.Exports source i (T i))
      (plan.relayOwner group.launch) (fun i t => Begun source i t) (plan.exportThenRun source.program.body) p := by
  have hsteady := Steady.placeBody h.valid h.stays false
  unfold exportThenRun
  refine h.plays_around hsource (M := fun i t => plan.Sent source i t ∧ Fresh source.program t) (fun i hi t ht => ?_)
    fun i hi t view p₁ hsource₁ hmid hnoted => ?_
  · refine h.wp_exportPrimitive ht.space ht.primitives ht.vertices (fun prim hprim => ?_)
      fun p' t' u hc hu hsent hnoted => ⟨⟨hsent, ?_⟩, hnoted⟩
    · rw [h.launch] at hprim
      exact h.packs.imp (fun hf => hf) fun hpacks => h.launch ▸ hpacks i prim hprim
    · refine Fresh.computed ?_ hsource hc
      obtain ⟨⟨hsized, hread, hvar⟩, houtputs⟩ := ht.toFresh
      exact ⟨⟨hsized, hu ▸ hread, hu ▸ hvar⟩, hu ▸ houtputs⟩
  · refine h.wp_ifVertex fun p₂ t₂ h₂ => ⟨fun hi' p₃ _ => ?_, fun hi' p₃ _ => ?_⟩
    · have hfresh : Fresh source.program t₂ := (hmid.2.see view).computed hsource₁ h₂
      refine wp_bind (wp_placeBody h.toHosts h.valid h.stays (h.panics i hi') hfresh fun p₄ t₄ inv _ hinv htracks => ?_)
      have hsent := hmid.1.congr (htracks.space.trans h₂.space) (htracks.primitives.trans h₂.primitives)
        (htracks.vertices.trans h₂.vertices)
      have hview : t₄.view = view := htracks.view.trans h₂.view
      exact wp_mono (h.wp_exportVertex hi' hsent (hview ▸ hnoted) hinv htracks.outputs) (fun _ _ _ he _ _ => he)
        fun _ hl => hl
    · exact Sent.exports (hmid.1.congr h₂.space h₂.primitives h₂.vertices) hi'

end

/-! ## The word is carried past the body -/

instance {K : Instr → Prop} [Instr.Common K] (var : Var) : Novel K (plan.packAhead var) := by
  unfold packAhead
  infer_instance

/-- The variable `var` carries the word of the lane's primitive, if there is one. -/
def Carries (plan : VertexPlan) (group : Workgroup) (i : Nat) (var : Var) (t : Thread) : Prop :=
  ∀ prim, group.launch.primitive? i = some prim → ∃ w : ExportWord,
    t.lane.readVar var = .ok w.bits.toUInt64 ∧ plan.IsWord group.launch prim w

section

variable (h : plan.Suits source group faults)
include h

theorem Suits.wp_packAhead {var : Var} (hsource : source.program.Within p)
    (hvar : source.program.vars.size ≤ var.index) (htype : p.varType? var = some .u32) (ht : Begun source i t)
    (hQ : ∀ p' t', p.Within p' → Begun source i t' → plan.Carries group i var t' → Q () p' t') :
    Emit.wp ⟨group, own, faults⟩ (group.laneId i) (plan.packAhead var) p Q L t := by
  refine wp_bind (wp_input ?_)
  intro hasPrimitive p₁ t₁ h₁ hk
  have hbegun : Begun source i t₁ := ht.computed hsource h₁
  refine wp_ifThen hk (fun hne p₂ h₂ => ?_) fun hz p₂ h₂ => ?_
  · obtain ⟨prim, hprim⟩ : ∃ prim, group.launch.primitive? i = some prim := by
      simpa [toUInt64_eq_zero_iff, Workgroup.laneId, Option.ne_none_iff_exists'] using hne
    have hpacks : faults ∨ plan.Packs group.launch prim := by
      rw [h.launch] at hprim ⊢
      exact h.packs.imp (fun hf => hf) fun hpacks => hpacks i prim hprim
    refine wp_bind (wp_primitiveWord hprim hpacks fun word p₃ t₃ w h₃ hword hw => ?_)
    have h₀₂ := h₁.within.trans h₂.within
    have h₀₃ := h₀₂.trans h₃.within
    have hbegun₃ := hbegun.computed (hsource.trans h₀₂) h₃
    refine wp_storeVar (h₀₃.varType?_eq htype) hword.read fun p₄ h₄ hread p₅ h₅ => ?_
    refine hQ p₅ _ ((h₀₃.trans h₄.within).trans h₅.within) ⟨⟨?_, hbegun₃.primitives,
      hbegun₃.vertices⟩, hbegun₃.space⟩ fun prim' hprim' => ?_
    · exact hbegun₃.toFresh.later (hsource.trans h₀₃) h₄ (fun x hx => Thread.readVar_setVar_of_ne _ (by omega) _) rfl
    · rw [hprim] at hprim'
      cases hprim'
      exact ⟨w, hread, hw⟩
  · refine hQ p₂ t₁ (h₁.within.trans h₂.within) hbegun fun prim hprim => ?_
    have hnone : group.launch.primitive? i = none := by
      simpa [toUInt64_eq_zero_iff, Workgroup.laneId] using hz
    rw [hnone] at hprim
    cases hprim

/-- The word is packed, the body is run, and the word is exported. -/
theorem Suits.wp_runAndSend (hsource : source.program.Within p)
    (ht : Begun source i t) : Emit.wp ⟨group, plan.relayOwner group.launch, faults⟩ (group.laneId i)
      (plan.runAndSend source.program.body) p (fun _ _ u => (plan.Sent source i u ∧ (i < source.launch.inputVertices →
        ∃ inv, source.Invokes i (.next inv) ∧ u.lane.outputs = inv.lane.outputs)) ∧ plan.Noted group i u.view) L t := by
  refine wp_bind (wp_createVar fun var p₁ h₁ hindex htype => ?_)
  have hvar : source.program.vars.size ≤ var.index := hindex ▸ hsource.vars_size_le
  refine wp_bind (h.wp_packAhead (hsource.trans h₁) hvar htype ht fun p₂ t₂ h₂ hbegun hcarries => ?_)
  have hsource₂ := (hsource.trans h₁).trans h₂
  -- Behind the body, which leaves the variable alone, the word is exported.
  have hexport : ∀ p₃ t₃, p₂.Within p₃ → t₂.Bystander source.program t₃ → (i < source.launch.inputVertices →
        ∃ inv, source.Invokes i (.next inv) ∧ t₃.lane.outputs = inv.lane.outputs) →
      Emit.wp ⟨group, plan.relayOwner group.launch, faults⟩ (group.laneId i) (plan.exportPrimitive (some var)) p₃
        (fun _ _ u => (plan.Sent source i u ∧ (i < source.launch.inputVertices →
          ∃ inv, source.Invokes i (.next inv) ∧ u.lane.outputs = inv.lane.outputs)) ∧
          plan.Noted group i u.view) L t₃ := by
    intro p₃ t₃ h₃ hby hended
    refine h.wp_exportPrimitive (fun hi => hby.space.trans (hbegun.space hi))
      (hby.primitives.trans hbegun.primitives) (hby.vertices.trans hbegun.vertices)
      (fun prim hprim => ⟨(h₂.trans h₃).varType?_eq htype, ?_⟩) fun p₄ t₄ u h₄ hu hsent hnoted =>
        ⟨⟨hsent, fun hi => ?_⟩, hnoted⟩
    · obtain ⟨w, hread, hw⟩ := hcarries prim hprim
      exact ⟨w, (hby.vars var hvar).trans hread, hw⟩
    · obtain ⟨inv, hinv, houtputs⟩ := hended hi
      exact ⟨inv, hinv, by rw [h₄.outputs, hu, houtputs]⟩
  rw [← bind_assoc]
  refine wp_bind (h.wp_ifVertex fun p₃ t₃ h₃ => ⟨fun hi p₄ h₄ => ?_, fun hi p₄ h₄ => ?_⟩)
  · refine wp_placeBody h.toHosts h.valid h.stays (h.panics i hi) (hbegun.toFresh.computed hsource₂ h₃)
      fun p₅ t₅ inv h₅ hinv htracks p₆ h₆ => ?_
    refine hexport p₆ t₅ (((h₃.within.trans h₄).trans h₅).trans h₆)
      (h₃.toQuiet.bystander.trans htracks.toBystander) fun _ => ⟨inv, hinv, htracks.outputs⟩
  · exact hexport p₄ t₃ (h₃.within.trans h₄) h₃.toQuiet.bystander fun hi' => absurd hi' hi

/-- The lanes with a vertex run the body, all lanes export the primitives, and then the vertices are
exported. -/
theorem Suits.runThenExport_plays (hsource : source.program.Within p) :
    Emit.Plays group faults (fun T => ∀ i < group.launch.numLanes, plan.Exports source i (T i))
      (plan.relayOwner group.launch) (fun i t => Begun source i t) (plan.runThenExport source.program.body) p := by
  have hsteady := Steady.placeBody h.valid h.stays false
  have hsend : Steady source.program false (plan.runAndSend source.program.body) := by
    unfold runAndSend
    infer_instance
  unfold runThenExport
  refine h.plays_around hsource (fun i hi t ht => h.wp_runAndSend hsource ht)
    fun i hi t view p₁ hsource₁ hmid hnoted => ?_
  obtain ⟨hsent, hended⟩ := hmid
  refine h.wp_ifVertex fun p₂ t₂ h₂ => ⟨fun hi' p₃ _ => ?_, fun hi' p₃ _ => ?_⟩
  · obtain ⟨inv, hinv, houtputs⟩ := hended hi'
    have hview : t₂.view = view := h₂.view
    exact wp_mono (h.wp_exportVertex hi' (hsent.congr h₂.space h₂.primitives h₂.vertices) (hview ▸ hnoted) hinv
      (h₂.outputs.trans houtputs)) (fun _ _ _ he _ _ => he) fun _ hl => hl
  · exact Sent.exports (hsent.congr h₂.space h₂.primitives h₂.vertices) hi'

end

/-! ## The whole program -/

/-- All of it can be run, if the body can. -/
theorem steady_wholeProgram {program : Program} {body : Block} [Steady program true (Emit.place body)]
    (early : Bool) : Steady program true (plan.wholeProgram early body) := by
  have hbarrier : Steady program true plan.relayBarrier := by
    unfold relayBarrier
    infer_instance
  have hearly : Steady program true (plan.exportThenRun body) := by
    unfold exportThenRun
    infer_instance
  have hsend : Steady program true (plan.runAndSend body) := by
    unfold runAndSend
    infer_instance
  have hlate : Steady program true (plan.runThenExport body) := by
    unfold runThenExport
    infer_instance
  unfold wholeProgram
  infer_instance

/-- The lanes export what they have, whatever the order. -/
theorem Suits.wholeProgram_plays (h : plan.Suits source group faults) (early : Bool) :
    Emit.Plays group faults (fun T => ∀ i < group.launch.numLanes, plan.Exports source i (T i))
      (plan.relayOwner group.launch) (fun _ t => ∃ view, t = Thread.start group.program view)
      (plan.wholeProgram early source.program.body) { source.program with body := [] } := by
  have hsource : source.program.Within { source.program with body := [] } := .same
  have hsmall := h.launched.numLanes_le
  have hvertices := h.launched.vertices
  have hprimitives := h.launched.primitives
  let numVertices := UInt64.ofNat group.launch.inputVertices
  let numPrimitives := UInt64.ofNat group.launch.primitives.size
  unfold wholeProgram
  refine .each hsource h.fits (M := fun v p₁ _ t₁ => Idle source.program t₁ ∧ t₁.space = none ∧
    Knows p₁ t₁ v .u32 numVertices) (fun i _ t ht => ?_) fun vertices p₁ _ hsource₁ => ?_
  · obtain ⟨view, rfl⟩ := ht
    exact wp_input fun v p₁ t₁ h₁ hv => ⟨(Idle.start h.within view).computed hsource h₁, h₁.space, hv⟩
  refine .each hsource₁ h.fits (M := fun v p₂ _ t₂ => Idle source.program t₂ ∧ t₂.space = none ∧
    Knows p₂ t₂ vertices .u32 numVertices ∧ Knows p₂ t₂ v .u32 numPrimitives)
    (fun i _ t ht => ?_) fun primitives p₂ _ hsource₂ => ?_
  · obtain ⟨hidle, hspace, hv⟩ := ht
    exact wp_input fun v p₂ t₂ h₂ hp =>
      ⟨hidle.computed hsource₁ h₂, h₂.space.trans hspace, hv.computed h₂, hp⟩
  refine .bind hsource₂ (M := fun _ _ i t₃ => Begun source i t₃) (fun id hid T hT => ?_) fun _ p₃ _ hsource₃ => ?_
  · have hfirst : id = 0 → 0 ∈ (Setting.launched ⟨group, plan.relayOwner group.launch, faults⟩ id).lanes := by
      rintro rfl
      exact Setting.zero_mem_launched h.launched.lanes
    refine (requestSpace_brings h.fits hid (fun hz => (hT 0 (hfirst hz)).2.2.1)
      (fun hz => (hT 0 (hfirst hz)).2.2.2) fun hz => (hT 0 (hfirst hz)).2.1).mono fun _ p₃ T₃ h₃ l hl => ?_
    have hc := h₃ l hl
    rw [toNat_toUInt32_ofNat (by omega), toNat_toUInt32_ofNat (by omega)] at hc
    refine ⟨((hT l hl).1.asked _ _).computed hsource₂ hc, fun hzero => ?_⟩
    rw [hc.space, hzero, ← h.launch]
    rfl
  · cases early with
    | true => exact h.exportThenRun_plays hsource₃
    | false => exact h.runThenExport_plays hsource₃

theorem roomy_of_exports (hlanes : 1 ≤ group.launch.numLanes)
    (h : ∀ i < group.launch.numLanes, plan.Exports source i (T i)) : group.Roomy T := by
  refine ⟨_, (h 0 hlanes).space rfl, fun i hi => ⟨fun hne => ?_, fun hne => ?_⟩⟩
  · have hwords := (h i hi).primitives
    unfold Words at hwords
    cases hprim : source.launch.primitive? i with
    | none =>
      rw [hprim] at hwords
      exact absurd hwords hne
    | some prim => exact (Array.getElem?_eq_some_iff.mp hprim).1
  · exact Nat.lt_of_not_le fun hle => hne ((h i hi).vertices.of_le hle)

end PrimitiveShader.Lowering.VertexPlan
