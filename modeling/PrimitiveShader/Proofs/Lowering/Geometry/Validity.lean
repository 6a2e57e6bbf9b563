import PrimitiveShader.Proofs.Lowering.Geometry.Body
import PrimitiveShader.Proofs.Lowering.Geometry.Room
import PrimitiveShader.Proofs.Lowering.Geometry.Writing
import PrimitiveShader.Proofs.Lowering.VertexWriting

/-!
# Lowered geometry programs are valid

Stored outputs and entry points have no place in the lowered body; other code stands for them. None of
them has a result, so nothing else in the body can use them, with one exception: a variable without a
type's worth of contents may be set to such a value. Where the body does not do that, what is emitted for
it is well-formed (`GeometryPlan.writes_stageBlock`), and so is the whole program
(`GeometryPlan.writes_wholeProgram`).

Code can be emitted for the other bodies as well. They are well-formed where everything may be used (`Scope.Open`),
and what is emitted does not depend on what may be used (`GeometryPlan.exists_emitted`).
-/

namespace PrimitiveShader

open Emit

/-- A place where everything may be used. -/
def Scope.Open (s : Scope) : Prop := ∀ v, s.visible v

theorem Scope.Open.later {s s' : Scope} {values : List Value} (h : s.Open) (hl : s.Later values s') : s'.Open :=
  fun v => hl.visible v (h v)

/-- Whether other code stands for the instruction in a lowered geometry program. -/
def Instr.isDropped (instr : Instr) : Bool := instr.isEntryPoint || instr.isOutput

namespace Program

/-- The value of an instruction that other code stands for. -/
def Dropped (program : Program) (value : Value) : Prop :=
  ∃ instr, program.instr value = .ok instr ∧ instr.isDropped

/-- The instruction sets a variable to the value of an instruction that other code stands for. -/
def StoresDropped (program : Program) (value : Value) : Prop :=
  ∃ var data, program.instr value = .ok (.storeVar var data) ∧ program.Dropped data

/-- Whether the instruction does so. -/
def storesDropped (program : Program) (value : Value) : Bool :=
  match program.instr value with
  | .ok (.storeVar _ data) =>
    match program.instr data with
    | .ok instr => instr.isDropped
    | .error _ => false
  | _ => false

theorem not_storesDropped {program : Program} {value : Value} (h : program.storesDropped value = false) :
    ¬ program.StoresDropped value := by
  rintro ⟨var, data, hi, instr, hdata, hdropped⟩
  simp [storesDropped, hi, hdata, hdropped] at h

end Program

/-- What other code stands for has no result. -/
theorem Instr.resultType?_of_isDropped {instr : Instr} {types : Value → Option ScalarType}
    {vars : Var → Option ScalarType} {type : ScalarType} (h : instr.isDropped)
    (ht : instr.resultType? types vars = some type) : type = .void := by
  have hpair {a b : Value} (h : pairType? types a b = some type) : type = .void := by
    simp only [pairType?, typeWhen, Option.bind_eq_bind, Option.bind_eq_some_iff] at h
    obtain ⟨_, _, _, _, h⟩ := h
    grind
  cases instr with
  | intrinsic op =>
    cases op with
    | storeOutput slot value =>
      simp only [resultType?, Intrinsic.resultType?, typeWhen, Option.bind_eq_bind, Option.bind_eq_some_iff] at ht
      obtain ⟨_, _, ht⟩ := ht
      grind
    | geometry op =>
      cases op with
      | emitVertex => exact hpair ht
      | endPrimitive => exact (Option.some.inj ht).symm
      | setCounts => exact hpair ht
    | _ => cases h
  | _ => cases h

namespace Lowering.GeometryPlan

variable {value : Value} {d : Definition} {plan : GeometryPlan} {source : Program} {inLoop : Bool}
  {visible : Value → Prop} {s s' : Scope}

/-! ## The body -/

/-- What may be used at a point of the source, other than what is dropped, may be used at the point
that stands for it. -/
structure Carries (plan : GeometryPlan) (source : Program) (visible : Value → Prop) (s : Scope) :
    Prop where
  within : source.Within s.program
  declared : plan.Declared s.program
  kept : ∀ v, visible v → ¬ source.Dropped v → s.visible v
  typed : ∀ v, visible v → ∀ d, source.definition? v = some d →
    source.resultType? d.instr = some d.type

namespace Carries

section

variable (h : plan.Carries source visible s)
include h

theorem later {values : List Value} (hl : s.Later values s') :
    plan.Carries source visible s' where
  within := h.within.trans hl.within
  declared := h.declared.within hl.within
  kept v hv hd := hl.visible v (h.kept v hv hd)
  typed := h.typed

theorem nest : plan.Carries source visible s.nest :=
  ⟨⟨h.within.definitions, h.within.vars⟩, h.declared, h.kept, h.typed⟩

theorem mono {visible' : Value → Prop} (hv : ∀ v, visible' v → visible v) : plan.Carries source visible' s :=
  ⟨h.within, h.declared, fun v hv' => h.kept v (hv v hv'), fun v hv' => h.typed v (hv v hv')⟩

end

variable {v : Value}

variable (h : plan.Carries source visible s)
include h

theorem valueType?_of_dropped (hv : visible v) (hd : source.Dropped v) : source.valueType? v = some .void := by
  obtain ⟨instr, hinstr, hdropped⟩ := hd
  obtain ⟨d, hdef, rfl⟩ := Program.instr_eq_ok_iff.mp hinstr
  have hvoid := Instr.resultType?_of_isDropped hdropped (h.typed v hv d hdef)
  simp [Program.valueType?, hdef, hvoid]

theorem has {τ : ScalarType} (hv : visible v) (ht : source.typeOf v = .ok τ) (hτ : τ ≠ .void) : s.Has v τ where
  visible := h.kept v hv fun hd => hτ <| by
    have hvoid := h.valueType?_of_dropped hv hd
    rw [Program.valueType?_eq_some_iff.mpr ht] at hvoid
    exact Option.some.inj hvoid
  typeOf := h.within.typeOf_eq ht

/-- An instruction finds its operands, unless it sets a variable to a dropped value. -/
theorem supports (hd : source.Supports visible value d) (hstores : source.StoresDropped value → s.Open) :
    s.program.Supports s.visible value d := by
  refine hd.mono h.within fun o ho hv => ?_
  by_cases hdropped : source.Dropped o
  · obtain ⟨var, hvar⟩ := Instr.exists_storeVar_of_void (h.valueType?_of_dropped hv hdropped) hd.type ho
    exact hstores ⟨var, o, hvar ▸ Program.instr_of_definition? hd.definition, hdropped⟩ o
  · exact h.kept o hv hdropped

/-- Behind an instruction of which the value is there, or is dropped. -/
theorem opens (hd : source.Supports visible value d) (hvalue : d.instr.isDropped ∨ s.visible value) :
    plan.Carries source ((Node.instr value).opens visible) s where
  within := h.within
  declared := h.declared
  kept v hv hdropped := by
    rcases hv with hv | hv
    · obtain rfl : value = v := Node.instr.inj hv
      exact hvalue.resolve_left fun hi =>
        hdropped ⟨_, Program.instr_of_definition? hd.definition, hi⟩
    · exact h.kept v hv hdropped
  typed v hv e he := by
    rcases hv with hv | hv
    · obtain rfl : value = v := Node.instr.inj hv
      obtain rfl : d = e := Option.some.inj (hd.definition.symm.trans he)
      exact hd.type
    · exact h.typed v hv e he

end Carries

/-- One instruction of the body: it is placed where it stood, or other code stands for it. -/
theorem writes_stageAs (hplan : plan.Provides) (hs : plan.Carries source visible s)
    (hd : source.Supports visible value d) (hstores : source.StoresDropped value → s.Open)
    (hfresh : ¬ s.placed value) : Writes inLoop (plan.stageAs value d.instr) s fun _ s' =>
      s.Later [value] s' ∧ plan.Carries source ((Node.instr value).opens visible) s' := by
  have hplace (hinstr : d.instr.isDropped = false) : Writes inLoop (Emit.place [.instr value]) s fun _ s' =>
        s.Later [value] s' ∧ plan.Carries source ((Node.instr value).opens visible) s' := by
    refine .place ⟨⟨d, hs.supports hd hstores⟩, trivial⟩ (by simp [Block.values, Node.values])
      (by simpa [Block.values, Node.values] using hfresh) fun s' h => ?_
    have hl : s.Later [value] s' := h.later fun v hv => .inl (by simpa [Block.values, Node.values] using hv)
    refine ⟨hl, (hs.later hl).opens hd (.inr ?_)⟩
    rw [h.visible]
    exact .inl (List.mem_singleton_self _)
  have hdrop (hinstr : d.instr.isDropped) {e : Emit Unit}
      (he : ∀ Q : Unit → Scope → Prop, (s.Then Q) → Writes inLoop e s Q) :
      Writes inLoop e s fun _ s' =>
        s.Later [value] s' ∧ plan.Carries source ((Node.instr value).opens visible) s' :=
    he _ fun s' h => ⟨h.mono nofun, (hs.later h).opens hd (.inl hinstr)⟩
  have hoperand {o : Value} {τ : ScalarType} (ho : o ∈ d.instr.operands)
      (ht : source.typeOf o = .ok τ) (hτ : τ ≠ .void) : s.Has o τ :=
    hs.has (hd.operands o ho).1 ht hτ
  obtain ⟨instr, type⟩ := d
  cases instr with
  | intrinsic op =>
    cases op with
    | storeOutput slot data =>
      obtain ⟨σ, hσ, hvoid⟩ := typeOf_storeOutput hd.type
      have hdata := hoperand (List.mem_singleton_self _) hσ hvoid
      exact hdrop rfl fun Q hQ => writes_keepOutput hplan hs.declared hdata hvoid hQ
    | geometry op =>
      refine hdrop rfl fun Q hQ => ?_
      cases op with
      | emitVertex stream number before =>
        obtain ⟨hnumber, hbefore⟩ := pairType?_eq_some hd.type
        have hn := hoperand (List.mem_cons_self ..) hnumber (by decide)
        have hb := hoperand (List.mem_cons_of_mem _ (List.mem_cons_self ..)) hbefore (by decide)
        unfold stageAs
        dsimp only
        split
        · rename_i huse
          exact writes_stageVertex hplan huse hs.declared hn hb hQ
        · exact .pure (hQ s (.refl s))
      | endPrimitive stream => exact .pure (hQ s (.refl s))
      | setCounts stream vertices primitives =>
        obtain ⟨hvertices, hprimitives⟩ := pairType?_eq_some hd.type
        have hv := hoperand (List.mem_cons_self ..) hvertices (by decide)
        have hp := hoperand (List.mem_cons_of_mem _ (List.mem_cons_self ..)) hprimitives (by decide)
        unfold stageAs
        dsimp only
        split
        · rename_i huse
          exact writes_stateCounts hplan huse hv hp hQ
        · exact .pure (hQ s (.refl s))
    | _ => exact hplace rfl
  | _ => exact hplace rfl

theorem writes_stageInstr (hplan : plan.Provides) (hs : plan.Carries source visible s)
    (hd : source.Supports visible value d) (hstores : source.StoresDropped value → s.Open)
    (hfresh : ¬ s.placed value) : Writes inLoop (plan.stageInstr value) s fun _ s' =>
      s.Later [value] s' ∧ plan.Carries source ((Node.instr value).opens visible) s' := by
  rw [stageInstr_eq]
  have hinstr := hs.within.instr_eq (Program.instr_of_definition? hd.definition)
  exact .bind (.get (.bind (.lift hinstr (writes_stageAs hplan hs hd hstores hfresh))))

/-- What is yet to come of the source has not been placed meanwhile. -/
theorem Carries.fresh (hs : plan.Carries source visible s) {values rest : List Value}
    (hl : s.Later values s') (hlt : ∀ v ∈ rest, v.index < source.definitions.size)
    (hfresh : ∀ v ∈ rest, ¬ s.placed v) (hapart : ∀ v ∈ values, v ∉ rest) : ∀ v ∈ rest, ¬ s'.placed v := by
  intro v hv hplaced
  rcases hl.placed v hplaced with h | h | h
  · exact hfresh v hv h
  · exact hapart v h hv
  · exact absurd (hlt v hv) (Nat.not_lt.mpr (Nat.le_trans hs.within.size_le h))

mutual

/-- What stands for a well-formed node is well-formed. -/
theorem writes_stageNode (hplan : plan.Provides) : ∀ (node : Node) {inLoop : Bool}
    {visible : Value → Prop} {s : Scope}, node.WellFormed source inLoop visible →
    (∀ v ∈ node.values, source.StoresDropped v → s.Open) → node.values.Nodup →
    (∀ v ∈ node.values, ¬ s.placed v) → plan.Carries source visible s →
    Writes inLoop (plan.stageNode node) s fun _ s' =>
      s.Later node.values s' ∧ plan.Carries source (node.opens visible) s'
  | .instr value, _, _, s, ⟨d, hd⟩, hstores, _, hfresh, hs =>
    writes_stageInstr hplan hs hd (hstores value (List.mem_singleton_self _)) (hfresh value (List.mem_singleton_self _))
  | .branch cond thenBlock elseBlock, inLoop, visible, s, ⟨⟨hc, ht⟩, hthen, helse⟩, hstores, hnodup, hfresh, hs => by
    obtain ⟨hn₁, hn₂, hapart⟩ := List.nodup_append.mp hnodup
    have hcond := hs.has hc (Program.valueType?_eq_some_iff.mp ht) (by decide)
    unfold stageNode
    refine .ifThenElse hcond
      (writes_stageBlock hplan thenBlock hthen (fun v hv => hstores v (List.mem_append_left _ hv)) hn₁
        (fun v hv => hfresh v (List.mem_append_left _ hv)) hs.nest)
      (fun s₁ h₁ => writes_stageBlock hplan elseBlock helse
        (fun v hv hd => (hstores v (List.mem_append_right _ hv) hd).later h₁.nest) hn₂
        (hs.fresh h₁.nest helse.lt_size (fun v hv => hfresh v (List.mem_append_right _ hv))
          fun v hv hv' => hapart v hv v hv' rfl) (hs.later h₁).nest)
      fun s' h => ⟨h, (hs.later h).mono fun v hv => hv.resolve_left nofun⟩
  | .loop body, inLoop, visible, s, hbody, hstores, hnodup, hfresh, hs => by
    unfold stageNode
    exact .loop (Block.values body) (writes_stageBlock hplan body hbody hstores hnodup hfresh hs.nest)
      fun s' h => ⟨h, (hs.later h).mono fun v hv => hv.resolve_left nofun⟩
  | .leave, _, _, s, hin, _, _, _, hs => by
    unfold stageNode
    exact .leave hin fun s' h => ⟨h, (hs.later h).mono fun v hv => hv.resolve_left nofun⟩

/-- What stands for a well-formed block is well-formed. -/
theorem writes_stageBlock (hplan : plan.Provides) : ∀ (block : List Node) {inLoop : Bool}
    {visible : Value → Prop} {s : Scope}, Block.WellFormed source inLoop visible block →
    (∀ v ∈ Block.values block, source.StoresDropped v → s.Open) → (Block.values block).Nodup →
    (∀ v ∈ Block.values block, ¬ s.placed v) → plan.Carries source visible s →
    Writes inLoop (plan.stageBlock block) s fun _ s' => s.Later (Block.values block) s'
  | [], _, _, s, _, _, _, _, _ => Writes.pure (.refl s)
  | node :: rest, _, _, s, ⟨hnode, hrest⟩, hstores, hnodup, hfresh, hs => by
    obtain ⟨hn₁, hn₂, hapart⟩ := List.nodup_append.mp hnodup
    unfold stageBlock
    refine .bind ((writes_stageNode hplan node hnode (fun v hv => hstores v (List.mem_append_left _ hv)) hn₁
      (fun v hv => hfresh v (List.mem_append_left _ hv)) hs).mono ?_)
    rintro ⟨⟩ s₁ ⟨h₁, hs₁⟩
    have hfresh₁ := hs.fresh h₁ hrest.lt_size (fun v hv => hfresh v (List.mem_append_right _ hv))
      fun v hv hv' => hapart v hv v hv' rfl
    have hstores₁ := fun v hv hd => (hstores v (List.mem_append_right _ hv) hd).later h₁
    exact (writes_stageBlock hplan rest hrest hstores₁ hn₂ hfresh₁ hs₁).mono fun _ s₂ h₂ => h₁.append h₂

end

/-! ## What stays -/

theorem stageAs_of_isDropped_eq_false (plan : GeometryPlan) (value : Value) {instr : Instr}
    (h : instr.isDropped = false) : plan.stageAs value instr = Emit.place [.instr value] := by
  cases instr with
  | intrinsic op => cases op <;> first | rfl | cases h
  | _ => rfl

/-! ## The whole program -/

/-- Nothing has been emitted yet. -/
structure Begins (plan : GeometryPlan) (source : Program) (s : Scope) : Prop where
  carries : plan.Carries source (fun _ => False) s
  unplaced : ∀ v, ¬ s.placed v

theorem Keeps.begins {declared : Program} (h : plan.Keeps source declared)
    (hprogram : s.program = { declared with body := [] }) (hplaced : ∀ v, ¬ s.placed v) : plan.Begins source s where
  carries := by
    refine ⟨?_, ?_, fun _ => False.elim, fun _ => False.elim⟩
    · rw [hprogram]
      exact ⟨h.grows.definitions, h.grows.vars⟩
    · rw [hprogram]
      exact fun a ha => (h.vars a ha).2
  unplaced := hplaced

/-- The body between its barriers is well-formed. -/
theorem writes_front (hplan : plan.Provides) (hvalid : source.validate = .ok ()) (hs : plan.Begins source s)
    (hstores : ∀ v ∈ Block.values source.body, source.StoresDropped v → s.Open) :
    Writes false (plan.front source.body) s fun _ _ => True := by
  obtain ⟨hbody, hnodup⟩ := Program.validate_eq_ok_iff.mp hvalid
  refine .bind (.effect rfl nofun fun s₁ h₁ => ?_)
  refine .bind (.bind (.input fun has s₂ h₂ hhas _ => ?_))
  have h₁₂ := h₁.trans h₂
  refine .ifThen_of (Block.values source.body) hhas ?_ fun s₃ h₃ => ?_
  · exact writes_stageBlock hplan source.body hbody (fun v hv hd => (hstores v hv hd).later h₁₂.nest) hnodup
      (hs.carries.fresh h₁₂.nest hbody.lt_size (fun v _ => hs.unplaced v) (by simp)) (hs.carries.later h₁₂).nest
  exact .effect rfl nofun fun _ _ => trivial

theorem writes_wholeProgram (hplan : plan.Provides) {compacts : Bool}
    (hcompaction : compacts = true → plan.ProvidesCompaction) (hvalid : source.validate = .ok ())
    (hs : plan.Begins source s) (hstores : ∀ v ∈ Block.values source.body, source.StoresDropped v → s.Open) :
    Writes false (plan.wholeProgram compacts source.body) s fun _ _ => True := by
  rw [wholeProgram_eq_front]
  refine .bind ((writes_front hplan hvalid hs hstores).mono fun _ s _ => ?_)
  cases compacts with
  | true => exact writes_exportLive hplan (hcompaction rfl)
  | false => exact writes_exportAll hplan

/-! ## The lowering -/

section

variable {config : Config} {program declared : Program} {survey : Survey}
  (hconfig : GeometryConfig config) (hsurvey : Survey.ofProgram program config.geometry = .ok survey)
  (hplan : makePlan config survey program = .ok (plan, declared))
include hconfig hplan

theorem places_pos_of_makePlan : 1 ≤ plan.places := by
  unfold places
  rw [(makePlan_eq_ok hplan).1]
  exact Nat.mul_pos hconfig.primitives hconfig.vertices

include hsurvey

theorem provides_of_makePlan : plan.Provides := by
  have hsound := sound_of_makePlan hconfig hsurvey hplan
  have heq := (makePlan_eq_ok hplan).1
  have hpos := places_pos_of_makePlan hconfig hplan
  have hsmall := hsound.small
  refine ⟨heq ▸ hconfig.stream, fun stream huse => ?_, fun region hr a ha => ?_,
    fun a ha => isInt_of_isStaged (hsound.staged a ha)⟩
  · obtain ⟨region, hregion⟩ := exists_flagsRegion hconfig hplan (heq ▸ huse)
    have hsize := hsound.flags stream region hregion
    have hbound := hsound.regions.bounded _ _ (flagsRegion_eq_ok hregion)
    exact ⟨region, hregion, by decide, by omega, by omega⟩
  · have hsize := hsound.room region hr
    have hbound := hsound.regions.bounded 1 region hr
    have hstride : plan.stride ≤ region.size := hsize ▸ Nat.le_mul_of_pos_left _ hpos
    exact ⟨hsound.fields a ha, hstride, by omega⟩

theorem providesCompaction_of_makePlan (hcompacts : survey.needsCompaction config.geometry = true) :
    plan.ProvidesCompaction := by
  have hsound := sound_of_makePlan hconfig hsurvey hplan
  have hcompaction := compacts_of_makePlan hconfig hplan hcompacts
  have hpos := places_pos_of_makePlan hconfig hplan
  have hsmall := hsound.small
  obtain ⟨region, hregion, hsize⟩ := hcompaction.index
  have hbound := hsound.regions.bounded 2 region hregion
  refine ⟨⟨region, by simp [compactionRegion, hregion], by decide, by omega, by omega⟩,
    fun scratch hscratch => ⟨(hcompaction.scratch scratch hscratch).1, ?_⟩⟩
  have hbound := hsound.regions.bounded 0 scratch hscratch
  omega

theorem exists_emitted (hvalid : program.validate = .ok ()) :
    ∃ emitted, plan.wholeProgram (survey.needsCompaction config.geometry) program.body { declared with body := [] } =
      .ok ((), emitted) := by
  let s : Scope :=
    { program := { declared with body := [] }
      visible := fun _ => True
      placed := fun _ => False
      defined := fun _ => False.elim }
  have hbegins : plan.Begins program s := (keeps_of_makePlan hsurvey hplan).begins rfl fun _ => id
  obtain ⟨⟨⟩, s', nodes, hemits, -⟩ := writes_wholeProgram (provides_of_makePlan hconfig hsurvey hplan)
    (providesCompaction_of_makePlan hconfig hsurvey hplan) hvalid hbegins fun _ _ _ _ => trivial
  exact ⟨s'.program, hemits⟩

/-- The whole program can be emitted and is valid, unless the source sets a variable to the value of an
instruction that other code stands for. -/
theorem exists_wholeProgram (hvalid : program.validate = .ok ())
    (hstores : ∀ v ∈ Block.values program.body, ¬ program.StoresDropped v) :
    ∃ emitted, plan.wholeProgram (survey.needsCompaction config.geometry) program.body { declared with body := [] } =
        .ok ((), emitted) ∧ ∀ size, { emitted with sharedSize := size }.validate = .ok () := by
  have hbegins : plan.Begins program (Scope.start declared) :=
    (keeps_of_makePlan hsurvey hplan).begins rfl fun _ => id
  obtain ⟨⟨⟩, emitted, hemits, hemitted⟩ := (writes_wholeProgram (provides_of_makePlan hconfig hsurvey hplan)
    (providesCompaction_of_makePlan hconfig hsurvey hplan) hvalid hbegins
    fun v hv hd => absurd hd (hstores v hv)).validate
  exact ⟨emitted, hemits, hemitted⟩

end

end Lowering.GeometryPlan

namespace Lowering

/-- What a geometry program is rewritten to is valid, unless it sets a variable to the value of an
instruction that other code stands for. -/
theorem LowersGeometry.validate {config : Config} {program declared lowered : Program} {survey : Survey}
    {plan : GeometryPlan} (h : LowersGeometry config program survey plan declared lowered)
    (hstores : ∀ v ∈ Block.values program.body, ¬ program.StoresDropped v) : lowered.validate = .ok () := by
  obtain ⟨emitted, hemits, rfl⟩ := h.emits
  obtain ⟨emitted', hemits', hvalid⟩ :=
    GeometryPlan.exists_wholeProgram h.accepted h.surveyed h.planned h.valid hstores
  cases hemits.symm.trans hemits'
  exact hvalid plan.layout.size

section

variable {config : Config} {program : Program} {survey : Survey}

/-- A geometry program that counts its vertices is rewritten. -/
theorem exists_lowersGeometry (hconfig : GeometryConfig config)
    (hstage : program.stage = .geometry) (hvalid : program.validate = .ok ())
    (hsurvey : Survey.ofProgram program config.geometry = .ok survey) (hcounted : survey.isCounted 0) :
    ∃ plan declared rewritten report log, LowersGeometry config program survey plan declared rewritten ∧
      lowerGeometry config program = .ok (.checked rewritten report log) := by
  obtain ⟨plan, declared, hplan⟩ := GeometryPlan.exists_makePlan hconfig hsurvey
  obtain ⟨log, hlog⟩ := (GeometryPlan.sound_of_makePlan hconfig hsurvey hplan).exists_log survey
    (survey.needsCompaction config.geometry)
  obtain ⟨emitted, hemits⟩ := GeometryPlan.exists_emitted hconfig hsurvey hplan hvalid
  refine ⟨plan, declared, { emitted with sharedSize := plan.layout.size },
    { sharedSize := plan.layout.size, compaction := survey.needsCompaction config.geometry }, log,
    ⟨hconfig, hstage, hvalid, hsurvey, hcounted, hplan, emitted, hemits, rfl⟩, ?_⟩
  unfold lowerGeometry
  rw [checkGeometry_eq_ok_iff.mpr ⟨hconfig, hstage, hvalid⟩]
  simp only [hsurvey, hcounted, hplan, hlog, Emit.finish_eq_ok_iff.mpr hemits, bind, Except.bind, pure, Except.pure, ↓reduceIte]

/-- It is lowered, unless it sets a variable to the value of an instruction that other code stands for. -/
theorem exists_lowerGeometry (hconfig : GeometryConfig config)
    (hstage : program.stage = .geometry) (hvalid : program.validate = .ok ())
    (hsurvey : Survey.ofProgram program config.geometry = .ok survey) (hcounted : survey.isCounted 0)
    (hstores : ∀ v ∈ Block.values program.body, ¬ program.StoresDropped v) :
    ∃ result report, lowerGeometry config program = .ok result ∧ result.outcome = .ok report := by
  obtain ⟨plan, declared, rewritten, report, log, hlowers, hlower⟩ :=
    exists_lowersGeometry hconfig hstage hvalid hsurvey hcounted
  exact ⟨_, report, hlower, Lowered.checked_outcome_eq_ok_iff.mpr ⟨hlowers.validate hstores, rfl⟩⟩

end

/-- The same, with checks that can be computed. -/
theorem exists_lowerGeometry_of_checks (config : Config) (program : Program)
    (hcheck : checkGeometry config program = .ok ())
    (hcounted : (Survey.ofProgram program config.geometry).map (·.isCounted 0) = .ok true)
    (hstores : ∀ v ∈ Block.values program.body, program.storesDropped v = false) :
    ∃ result report, lowerGeometry config program = .ok result ∧ result.outcome = .ok report := by
  obtain ⟨hconfig, hstage, hvalid⟩ := checkGeometry_eq_ok_iff.mp hcheck
  obtain ⟨survey, hsurvey, hcounted⟩ := except_map_eq_ok.mp hcounted
  exact exists_lowerGeometry hconfig hstage hvalid hsurvey hcounted fun v hv =>
    Program.not_storesDropped (hstores v hv)

end Lowering

end PrimitiveShader
