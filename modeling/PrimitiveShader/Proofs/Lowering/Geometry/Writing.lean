import PrimitiveShader.Proofs.Lowering.Geometry.Staging
import PrimitiveShader.Proofs.Lowering.Writing

/-!
# The code of geometry programs is well-formed

What becomes of an emitted vertex, of a statement of counts and of a stored output, and the code behind
the body, given a plan whose regions have room for what is done with them.
-/

namespace PrimitiveShader.Lowering.GeometryPlan

open Emit

/-- The regions have room for the vertices and flags of the active streams. -/
structure Provides (plan : GeometryPlan) : Prop where
  stream : plan.config.geometry.usesStream 0
  flags : ∀ stream, plan.config.geometry.usesStream stream →
    ∃ region, plan.flagsRegion stream = .ok region ∧ region.Fits 1 0 ScalarType.u8.bytes
  fields : ∀ region, plan.layout.vertexAttributes = some region → ∀ a ∈ plan.attributes,
    region.Fits plan.stride a.offset a.type.bytes
  ints : ∀ a ∈ plan.attributes, a.type.isInt

variable {plan : GeometryPlan} {inLoop : Bool} {s : Scope} {Q : Unit → Scope → Prop}

/-! ## Staging -/

theorem writes_vertexPlace {index : Value} {Q : Value → Scope → Prop} (hi : s.Has index .u32)
    (hQ : ∀ v s', s.Later [] s' → s'.Has v .u32 → (∃ a b, s'.program.instr v = .ok (.binary .add a b)) → Q v s') :
    Writes inLoop (plan.vertexPlace index) s Q := by
  refine .bind (.input fun lane s₁ h₁ hlane _ => ?_)
  refine .bind (.binaryImm hlane rfl fun start s₂ h₂ hstart _ => ?_)
  have h₁₂ := h₁.trans h₂
  exact .binary hstart (hi.later h₁₂) rfl fun v s₃ h₃ hv hinstr =>
    hQ v s₃ (h₁₂.trans h₃) hv ⟨_, _, hinstr⟩

variable {instr : Instr} {stream : UInt8} {before a place b count lane : Value}

theorem writes_vertexFlags {Q : Value → Scope → Prop} (hb : s.Has before .u32)
    (hQ : s.Gives .u8 Q) : Writes inLoop (plan.vertexFlags before) s Q := by
  refine .bind (.binaryImm hb rfl fun completes s₁ h₁ hcompletes _ => ?_)
  refine .bind (.convert hcompletes (by decide) (by decide) fun completes s₂ h₂ hcompletes _ => ?_)
  refine .bind (.imm fun live s₃ h₃ hlive _ => ?_)
  refine .bind (.binary hlive (hcompletes.later h₃) rfl fun flags s₄ h₄ hflags _ => ?_)
  have h₁₄ := h₁.trans (h₂.trans (h₃.trans h₄))
  have hbyte (flags : Value) (s₅ : Scope) (h₅ : s.Later [] s₅) (hflags : s₅.Has flags .u32) :
      Writes inLoop (Emit.convert flags .u8) s₅ Q :=
    Writes.convert hflags (by decide) (by decide) fun v s' h hv _ => hQ v s' (h₅.trans h) hv
  dsimp only
  split
  · refine .bind (.binaryImm (hb.later h₁₄) rfl fun odd s₅ h₅ hodd _ => ?_)
    refine .bind (.shlImm hodd rfl fun odd s₆ h₆ hodd => ?_)
    refine .bind (.binary (hflags.later (h₅.trans h₆)) hodd rfl fun flags s₇ h₇ hflags _ => ?_)
    exact hbyte flags s₇ (h₁₄.trans (h₅.trans (h₆.trans h₇))) hflags
  · exact hbyte flags s₄ h₁₄ hflags

theorem mem_streamAttributes {a : Attribute} (h : a ∈ plan.streamAttributes stream) : a ∈ plan.attributes :=
  (List.mem_filter.mp h).1

/-- The components of a vertex go to its place. -/
theorem writes_storeFields {region : Region}
    (hplan : plan.Provides) (hregion : plan.layout.vertexAttributes = some region)
    (hvars : plan.Declared s.program) (hp : s.Has place .u32)
    (hi : s.program.instr place = .ok (.binary .add a b)) (hQ : s.Then Q) :
    Writes inLoop ((plan.streamAttributes stream).forM fun component => do
      let value ← Emit.loadVar component.var
      region.store value place plan.stride component.offset) s Q := by
  refine .forM (fun component hmem s₁ h₁ => ?_) hQ
  have hmem := mem_streamAttributes hmem
  refine .bind (.loadVar (hvars.within h₁.within component hmem) fun value s₂ h₂ hvalue _ => ?_)
  have h₁₂ := h₁.trans h₂
  exact Region.writes_store (hplan.fields region hregion component hmem) (hplan.ints component hmem)
    hvalue (hp.later h₁₂) (h₁₂.within.instr_eq hi) nofun fun s₃ h₃ => h₂.trans h₃

/-- The variables of the components are set back. -/
theorem writes_forget (hvars : plan.Declared s.program) (hQ : s.Then Q) :
    Writes inLoop ((plan.streamAttributes stream).forM fun component => do
      let undef ← Emit.undef component.type
      Emit.storeVar component.var undef) s Q := by
  refine .forM (fun component hmem s₁ h₁ => ?_) hQ
  refine .bind (.undef fun value s₂ h₂ hvalue _ => ?_)
  have hvar := hvars.within (h₁.trans h₂).within component (mem_streamAttributes hmem)
  exact .storeVar hvar hvalue fun s₃ h₃ => h₂.trans h₃

/-- The flags of a vertex go to its place. -/
theorem writes_storeFlags (hplan : plan.Provides)
    (huse : plan.config.geometry.usesStream stream) (hp : s.Has place .u32)
    (hi : s.program.instr place = .ok (.binary .add a b)) (hb : s.Has before .u32)
    (hQ : s.Then Q) : Writes inLoop (do
      let flags ← plan.vertexFlags before
      (← plan.flagsRegion stream).store flags place 1 0) s Q := by
  obtain ⟨region, hregion, hfits⟩ := hplan.flags stream huse
  refine .bind (writes_vertexFlags hb fun flags s₁ h₁ hflags => ?_)
  refine .bind (.lift hregion ?_)
  exact Region.writes_store hfits rfl hflags (hp.later h₁) (h₁.within.instr_eq hi) nofun
    fun s₂ h₂ => hQ s₂ (h₁.trans h₂)

theorem writes_stageVertex (hplan : plan.Provides)
    (huse : plan.config.geometry.usesStream stream) (hvars : plan.Declared s.program)
    (hc : s.Has count .u32) (hb : s.Has before .u32) (hQ : s.Then Q) :
    Writes inLoop (plan.stageVertex stream count before) s Q := by
  refine .bind (.binaryImm hc rfl fun inRange s₁ h₁ hin _ => ?_)
  refine .bind (.ifThen hin (.bind ?_) fun s₂ h₂ => ?_)
  · refine writes_vertexPlace (hc.later h₁).nest fun place t₁ k₁ hplace ⟨x, y, hi⟩ => ?_
    have hflags (t₂ : Scope) (k₂ : t₁.Later [] t₂) : Writes inLoop (do
        let flags ← plan.vertexFlags before
        (← plan.flagsRegion stream).store flags place 1 0) t₂ fun _ t₃ => s₁.nest.Later [] t₃ :=
      writes_storeFlags hplan huse (hplace.later k₂) (k₂.within.instr_eq hi)
        (((hb.later h₁).nest.later k₁).later k₂) fun t₃ k₃ => k₁.trans (k₂.trans k₃)
    refine .bind ?_
    unfold storeComponents
    cases hr : plan.layout.vertexAttributes with
    | none => exact .pure (hflags t₁ (.refl t₁))
    | some region =>
      exact (writes_storeFields hplan hr (hvars.within (h₁.nest.trans k₁).within) hplace hi hflags)
  · exact writes_forget (hvars.within (h₁.trans h₂).within) fun s₃ h₃ => hQ s₃ (h₁.trans (h₂.trans h₃))

/-- One round of the loop that clears flags. -/
theorem writes_clearFlags {first : Value} (hplan : plan.Provides)
    (huse : plan.config.geometry.usesStream stream) (hf : s.Has first .u32)
    (hQ : s.Then Q) : Writes inLoop (plan.clearFlags stream first) s Q := by
  obtain ⟨region, hregion, hfits⟩ := hplan.flags stream huse
  refine .bind (.lift hregion ?_)
  refine .bind (.createVar fun index s₁ h₁ hindex => ?_)
  refine .bind (.storeVar hindex (hf.later h₁) fun s₂ h₂ => ?_)
  refine .loop [] (.bind ?_) fun s₃ h₃ => hQ s₃ (h₁.trans (h₂.trans h₃))
  have hindex : s₂.nest.program.varType? index = some .u32 := h₂.within.varType?_eq hindex
  refine .loadVar hindex fun i t₁ k₁ hi _ => ?_
  refine .bind (.binaryImm hi rfl fun done t₂ k₂ hdone _ => ?_)
  refine .bind (.ifThen hdone (.leave rfl fun t h => h) fun t₃ k₃ => ?_)
  have k₁₃ := k₂.trans k₃
  refine .bind (writes_vertexPlace (hi.later k₁₃) fun place t₄ k₄ hplace ⟨x, y, hinstr⟩ => ?_)
  refine .bind (.imm fun zero t₅ k₅ hzero _ => ?_)
  refine .bind (Region.writes_store hfits rfl hzero (hplace.later k₅)
    (k₅.within.instr_eq hinstr) nofun fun t₆ k₆ => ?_)
  have k₁₆ := k₁₃.trans (k₄.trans (k₅.trans k₆))
  refine .bind (.binaryImm (hi.later k₁₆) rfl fun next t₇ k₇ hnext _ => ?_)
  have k₁₇ := k₁.trans (k₁₆.trans k₇)
  exact .storeVar (k₁₇.within.varType?_eq hindex) hnext fun t₈ k₈ => k₁₇.trans k₈

theorem writes_primitiveSum {Q : Value → Scope → Prop} (hc : s.Has count .u32)
    (hQ : s.Gives .u32 Q) : Writes inLoop (plan.primitiveSum count) s Q := by
  obtain ⟨instr, hinstr⟩ := s.program.exists_instr_of_typeOf hc.typeOf
  refine .bind (.constant? hinstr ?_)
  cases instr.constant? with
  | some k =>
    refine .bind (.imm fun active s₁ h₁ hactive _ => ?_)
    refine .bind (writes_ballot _ hactive fun ballot s₂ h₂ hballot => ?_)
    refine .bind (writes_popCount _ hballot fun lanes s₃ h₃ hlanes => ?_)
    exact .binaryImm hlanes rfl fun v s₄ h₄ hv _ =>
      hQ v s₄ (h₁.trans (h₂.trans (h₃.trans h₄))) hv
  | none => exact writes_reduceAdd _ hc hQ

theorem writes_countPrimitives (hc : s.Has count .u32)
    (hQ : s.Then Q) : Writes inLoop (plan.countPrimitives stream count) s Q := by
  refine .bind (.input fun enabled s₁ h₁ henabled _ => ?_)
  refine .ifThen henabled (.bind ?_) fun s' h => hQ s' (h₁.trans h)
  refine writes_primitiveSum (hc.later h₁).nest fun sum s₂ h₂ hsum => ?_
  refine .bind (writes_elect _ fun elected s₃ h₃ helected => ?_)
  have hsum := (hsum.later h₃).nest
  refine .ifThen helected (.effect ?_ ?_ fun s' h => h) fun s' h => h₂.trans (h₃.trans h)
  · simp [Intrinsic.resultType?, hsum.valueType?, typeWhen]
  · simpa [Intrinsic.operands] using ⟨_, hsum⟩

theorem writes_stateCounts {vertices primitives : Value} (hplan : plan.Provides)
    (huse : plan.config.geometry.usesStream stream) (hv : s.Has vertices .u32)
    (hp : s.Has primitives .u32) (hQ : s.Then Q) : Writes inLoop (plan.stateCounts stream vertices primitives) s Q := by
  obtain ⟨instr, hinstr⟩ := s.program.exists_instr_of_typeOf hv.typeOf
  refine .bind (.constant? hinstr ?_)
  split
  · exact writes_countPrimitives hp hQ
  · exact .bind (writes_clearFlags hplan huse hv fun s₁ h₁ =>
      writes_countPrimitives (hp.later h₁) fun s₂ h₂ => hQ s₂ (h₁.trans h₂))

theorem writes_keepOutput {slot : OutputSlot} {value : Value} {τ : ScalarType} (hplan : plan.Provides)
    (hvars : plan.Declared s.program) (hv : s.Has value τ) (hτ : τ ≠ .void)
    (hQ : s.Then Q) : Writes inLoop (plan.keepOutput slot value) s Q := by
  unfold keepOutput
  split
  · rename_i component hfind
    have hmem := List.mem_of_find?_eq_some hfind
    have hne : component.type ≠ .void := by
      intro h
      simpa [h, ScalarType.isInt] using hplan.ints component hmem
    refine .bind (.convert hv hτ hne fun value s₁ h₁ hvalue _ => ?_)
    exact .storeVar (hvars.within h₁.within component hmem) hvalue fun s₂ h₂ => hQ s₂ (h₁.trans h₂)
  · exact .pure (hQ s (.refl s))

/-! ## Export -/

theorem writes_exportPrimitive {rank flags : Value} (hr : s.Has rank .u32) (hf : s.Has flags .u8)
    (hQ : s.Then Q) : Writes inLoop (plan.exportPrimitive rank flags) s Q := by
  refine .bind (.convert hf (by decide) (by decide) fun wide s₁ h₁ hwide _ => ?_)
  refine .bind (.binaryImm hwide rfl fun completes s₂ h₂ hcompletes _ => ?_)
  refine .bind (.binaryImm hcompletes rfl fun isNull s₃ h₃ hnull _ => ?_)
  refine .bind (.imm fun zero s₄ h₄ hzero _ => ?_)
  have h₁₄ := h₁.trans (h₂.trans (h₃.trans h₄))
  refine .bind (writes_stripIndices (hr.later h₁₄) (hf.later h₁₄) fun indices s₅ h₅ hlen hindices => ?_)
  have hnull₅ := hnull.later (h₄.trans h₅)
  refine .bind (.mapM (fun index hmem t₁ k₁ => Writes.select (hnull₅.later k₁)
    ((hzero.later h₅).later k₁) ((hindices index hmem).later k₁) (by decide)
    fun v t₂ k₂ hv _ => ⟨k₂, hv⟩) fun indices s₆ h₆ hlen' hindices => ?_)
  refine .bind (writes_packWord (hlen' ▸ hlen) hindices nofun
    (fun flag hflag => by cases hflag; exact hnull₅.later h₆) fun word s₇ h₇ hword => ?_)
  refine .effect ?_ ?_ fun s' h => hQ s' (h₁₄.trans (h₅.trans (h₆.trans (h₇.trans h))))
  · simp [Intrinsic.resultType?, hword.valueType?, typeWhen]
  · simpa [Intrinsic.operands] using ⟨_, hword⟩

theorem writes_exportVertex {source : Value} (hplan : plan.Provides)
    (hsource : s.Has source .u32) (hi : s.program.instr source = .ok instr)
    (hconst : instr.constant? = none) (hQ : s.Then Q) : Writes inLoop (plan.exportVertex source) s Q := by
  have hexport (s₁ : Scope) (h₁ : s.Later [] s₁) : Writes inLoop (Emit.effect .exportVertex) s₁ Q :=
    Writes.effect rfl nofun fun s' h => hQ s' (h₁.trans h)
  unfold exportVertex
  cases hr : plan.layout.vertexAttributes with
  | none => exact hexport s (.refl s)
  | some region =>
    refine .bind (.forM (fun component hmem s₁ h₁ => ?_) hexport)
    have hmem := mem_streamAttributes hmem
    refine .bind (Region.writes_load (hplan.fields region hr component hmem)
      (hplan.ints component hmem) (hsource.later h₁) (h₁.within.instr_eq hi)
      (fun k hk => absurd hk (by simp [hconst])) fun value s₂ h₂ hvalue => ?_)
    exact .storeOutput hvalue (hplan.ints component hmem) fun s₃ h₃ => h₂.trans h₃

theorem writes_placeCount {Q : Value → Scope → Prop} (hQ : s.Gives .u32 Q) : Writes inLoop plan.placeCount s Q := by
  refine .bind (.input fun invocations s₁ h₁ hin _ => ?_)
  exact .binaryImm hin rfl fun v s₂ h₂ hv _ => hQ v s₂ (h₁.trans h₂) hv

theorem writes_loadFlags {Q : Value → Scope → Prop} (hplan : plan.Provides) (hl : s.Has lane .u32) (hi : s.program.instr lane = .ok instr)
    (hconst : instr.constant? = none) (hQ : s.Gives .u8 Q) : Writes inLoop (plan.loadFlags lane) s Q := by
  obtain ⟨region, hregion, hfits⟩ := hplan.flags 0 hplan.stream
  refine .bind (.lift hregion ?_)
  exact Region.writes_load hfits rfl hl hi (fun k hk => absurd hk (by simp [hconst])) hQ

theorem writes_exportAll (hplan : plan.Provides) : Writes inLoop plan.exportAll s fun _ _ => True := by
  refine .bind (writes_placeCount fun places s₁ h₁ hplaces => ?_)
  refine .bind (writes_requestSpace hplaces hplaces fun s₂ h₂ => ?_)
  refine .bind (.input fun lane s₃ h₃ hlane hi => ?_)
  refine .bind (.binary hlane (hplaces.later (h₂.trans h₃)) rfl fun exports s₄ h₄ hexports _ => ?_)
  refine .ifThen hexports ?_ fun _ _ => trivial
  have hlane := (hlane.later h₄).nest
  have hi : s₄.nest.program.instr lane = .ok (.intrinsic (.input .localInvocationIndex)) :=
    h₄.within.instr_eq hi
  refine .bind (writes_loadFlags hplan hlane hi rfl fun flags t₁ k₁ hflags => ?_)
  refine .bind (writes_exportPrimitive (hlane.later k₁) hflags fun t₂ k₂ => ?_)
  have k₁₂ := k₁.trans k₂
  exact writes_exportVertex hplan (hlane.later k₁₂) (k₁₂.within.instr_eq hi) rfl fun t₃ k₃ => k₁₂.trans k₃

theorem writes_placeFlags {places : Value} {Q : Value → Scope → Prop}
    (hplan : plan.Provides) (hl : s.Has lane .u32) (hi : s.program.instr lane = .ok instr)
    (hconst : instr.constant? = none) (hp : s.Has places .u32) (hQ : s.Gives .u8 Q) :
    Writes inLoop (plan.placeFlags lane places) s Q := by
  refine .bind (.createVar fun var s₁ h₁ hvar => ?_)
  refine .bind (.imm fun none_ s₂ h₂ hnone _ => ?_)
  refine .bind (.storeVar (h₂.within.varType?_eq hvar) hnone fun s₃ h₃ => ?_)
  have h₁₃ := h₁.trans (h₂.trans h₃)
  refine .bind (.binary (hl.later h₁₃) (hp.later h₁₃) rfl fun hasPlace s₄ h₄ hhas _ => ?_)
  have h₁₄ := h₁₃.trans h₄
  have hvar₄ : s₄.nest.program.varType? var = some .u8 :=
    (h₂.trans (h₃.trans h₄)).within.varType?_eq hvar
  refine .bind (.ifThen hhas (.bind (writes_loadFlags hplan (hl.later h₁₄).nest
    (h₁₄.within.instr_eq hi) hconst fun flags t₁ k₁ hflags =>
      Writes.storeVar (k₁.within.varType?_eq hvar₄) hflags fun t₂ k₂ => k₁.trans k₂))
    fun s₅ h₅ => ?_)
  exact .loadVar (h₅.within.varType?_eq hvar₄) fun v s₆ h₆ hv _ =>
    hQ v s₆ (h₁₄.trans (h₅.trans h₆)) hv

/-- The regions of a compaction have room for a count of each wave and for the name of a place. -/
structure ProvidesCompaction (plan : GeometryPlan) : Prop where
  index : ∃ region, plan.compactionRegion = .ok region ∧ region.Fits 1 0 ScalarType.u8.bytes
  scratch : ∀ region, plan.layout.waveCounts = some region → Scratch region

theorem writes_exportLive (hplan : plan.Provides) (hcompaction : plan.ProvidesCompaction) :
    Writes inLoop plan.exportLive s fun _ _ => True := by
  obtain ⟨region, hregion, hfits⟩ := hcompaction.index
  simp only [exportLive, findLive, exportPacked, primitiveCount, nameLive, exportBoth, exportNamed,
    bind_assoc, pure_bind]
  refine .bind (writes_placeCount fun places s₁ h₁ hplaces => ?_)
  refine .bind (.input fun lane s₂ h₂ hlane hi => ?_)
  refine .bind (writes_placeFlags hplan hlane hi rfl (hplaces.later h₂) fun flags s₃ h₃ hflags => ?_)
  refine .bind (.binaryImm hflags rfl fun bit s₄ h₄ hbit _ => ?_)
  refine .bind (.binaryImm hbit rfl fun live s₅ h₅ hlive _ => ?_)
  refine .bind (writes_compactLanes hlive hcompaction.scratch
    fun packed s₆ h₆ htotal hrank ⟨instr, hinstr, hconst⟩ => ?_)
  refine .bind (.binaryImm htotal rfl fun anyVertex s₇ h₇ hany _ => ?_)
  refine .bind (.imm fun zero s₈ h₈ hzero _ => ?_)
  have h₃₈ := h₃.trans (h₄.trans (h₅.trans (h₆.trans (h₇.trans h₈))))
  refine .bind (.select (hany.later h₈) ((hplaces.later h₂).later h₃₈) hzero (by decide)
    fun primitives s₉ h₉ hprimitives _ => ?_)
  have h₇₉ := h₇.trans (h₈.trans h₉)
  refine .bind (writes_requestSpace (htotal.later h₇₉) hprimitives fun s₁₀ h₁₀ => ?_)
  -- From here on, everything that is used again is in sight.
  have h₇' := h₇₉.trans h₁₀
  have h₃' := h₃₈.trans (h₉.trans h₁₀)
  refine .bind (.lift hregion ?_)
  refine .bind (.ifThen ((hlive.later h₆).later h₇') (.bind
    (.convert (hlane.later h₃').nest (by decide) (by decide) fun source t₁ k₁ hsource _ =>
      Region.writes_store hfits rfl hsource ((hrank.later h₇').nest.later k₁)
        (k₁.within.instr_eq (h₇'.within.instr_eq hinstr)) (fun k hk => absurd hk (by simp [hconst]))
        fun t₂ k₂ => k₁.trans k₂)) fun s₁₁ h₁₁ => ?_)
  refine .bind (.effect rfl nofun fun s₁₂ h₁₂ => ?_)
  have hlane₁₂ := (hlane.later h₃').later (h₁₁.trans h₁₂)
  refine .bind (.binary hlane₁₂
    (hprimitives.later (h₁₀.trans (h₁₁.trans h₁₂))) rfl fun exports s₁₃ h₁₃ hexports _ => ?_)
  have h₇'' := h₇'.trans (h₁₁.trans (h₁₂.trans h₁₃))
  have hflags₁₃ := hflags.later (h₄.trans (h₅.trans (h₆.trans h₇'')))
  refine .bind (.ifThen hexports (writes_exportPrimitive (hrank.later h₇'').nest
    hflags₁₃.nest fun t h => h) fun s₁₄ h₁₄ => ?_)
  have hlane₁₄ := hlane₁₂.later (h₁₃.trans h₁₄)
  refine .bind (.binary hlane₁₄ (htotal.later (h₇''.trans h₁₄)) rfl fun exports s₁₅ h₁₅ hexports _ => ?_)
  have h₃'' := h₃'.trans (h₁₁.trans (h₁₂.trans (h₁₃.trans (h₁₄.trans h₁₅))))
  refine .ifThen hexports (.bind ?_) fun _ _ => trivial
  refine Region.writes_load hfits rfl (hlane.later h₃'').nest (h₃''.within.instr_eq hi) nofun
    fun source t₁ k₁ hsource => ?_
  refine .bind (.convert hsource (by decide) (by decide) fun wide t₂ k₂ hwide hconv => ?_)
  exact writes_exportVertex hplan hwide (hconv (by decide)) rfl fun t₃ k₃ => k₁.trans (k₂.trans k₃)

end PrimitiveShader.Lowering.GeometryPlan
