import PrimitiveShader.Proofs.Lowering.Geometry.Widening
import PrimitiveShader.Proofs.Lowering.VertexAcceptance

/-!
# Programs that are not lowered

Every lowering comes to an end without a fault (`Lowering.lowerings_end`). It hands back an error for
one of two reasons: the program is refused before it is touched, or the rewritten program does not pass
the check. Vertex and tessellation programs always pass it. A geometry program passes it unless it sets
a variable to the value of an instruction that other code stands for; such a program is handed back
rewritten, together with the error.
-/

namespace PrimitiveShader.Lowering

variable {config : Config} {program : Program} {lowered : Lowered} {error : LoweringError}

/-! ## The survey -/

namespace Survey

/-- An instruction of a valid program is surveyed. -/
theorem exists_add (survey : Survey) (limits : GeometryLimits) {visible : Value → Prop} {value : Value} {d : Definition}
    (hd : program.Supports visible value d) : ∃ survey', survey.add program limits d.instr = .ok survey' := by
  unfold add
  split
  · rename_i slot data hinstr
    split
    · obtain ⟨σ, hσ, -⟩ := GeometryPlan.typeOf_storeOutput (hinstr ▸ hd.type)
      exact ⟨_, except_bind_eq_ok.mpr ⟨σ, hσ, rfl⟩⟩
    · exact ⟨_, rfl⟩
  · split <;> exact ⟨_, rfl⟩
  · rename_i stream vertices primitives hinstr
    split
    · obtain ⟨-, hdefined⟩ := hd.operands vertices (hinstr ▸ List.mem_cons_self)
      obtain ⟨e, he⟩ := Option.isSome_iff_exists.mp hdefined
      exact ⟨_, except_bind_eq_ok.mpr ⟨e.instr, Program.instr_of_definition? he, rfl⟩⟩
    · exact ⟨_, rfl⟩
  · exact ⟨_, rfl⟩

/-- A valid program is surveyed to its end. -/
theorem exists_ofProgram (hvalid : program.validate = .ok ()) (limits : GeometryLimits) :
    ∃ survey, ofProgram program limits = .ok survey := by
  obtain ⟨hbody, -⟩ := Program.validate_eq_ok_iff.mp hvalid
  have hread : ∀ v ∈ Block.values program.body, ∃ pair,
      (do return (v, ← program.instr v) : Except Fault (Value × Instr)) = .ok pair := fun v hv => by
    obtain ⟨i, hi⟩ := Program.exists_instr_of_validate hvalid hv
    exact ⟨(v, i), except_bind_eq_ok.mpr ⟨i, hi, rfl⟩⟩
  obtain ⟨pairs, hpairs⟩ := exists_mapM_eq_ok hread
  have hadd : ∀ pair ∈ pairs, ∀ survey : Survey, ∃ survey', survey.add program limits pair.2 = .ok survey' := by
    intro pair hpair survey
    obtain ⟨hv, hi⟩ := (Program.mem_mapM_instr hpairs).mp hpair
    obtain ⟨d, hd⟩ := hbody.supports pair.1 hv
    rw [Except.ok.inj (hi.symm.trans (Program.instr_of_definition? hd.definition))]
    exact exists_add survey limits hd
  have hfold : ∀ survey : Survey, ∃ survey', pairs.foldlM (fun survey pair => survey.add program limits pair.2)
      survey = .ok survey' := by
    clear hpairs
    induction pairs with
    | nil => exact fun survey => ⟨survey, rfl⟩
    | cons pair rest ih =>
      intro survey
      obtain ⟨survey₁, hfirst⟩ := hadd pair List.mem_cons_self survey
      obtain ⟨survey₂, hrest⟩ := ih (fun p hp => hadd p (List.mem_cons_of_mem _ hp)) survey₁
      exact ⟨survey₂, by rw [List.foldlM_cons]; exact except_bind_eq_ok.mpr ⟨survey₁, hfirst, hrest⟩⟩
  obtain ⟨survey, hsurvey⟩ := hfold {}
  exact ⟨survey, except_bind_eq_ok.mpr ⟨pairs, hpairs, hsurvey⟩⟩

end Survey

/-! ## Lowerings come to an end -/

theorem exists_lowerVertex_eq_ok (config : Config) (program : Program) :
    ∃ lowered, lowerVertex config program = .ok lowered := by
  cases hcheck : checkVertex config program with
  | error e => exact ⟨.rejected program e, by rw [lowerVertex, hcheck]⟩
  | ok u =>
    obtain ⟨lowered, -, hlower, -⟩ := exists_lowerVertex hcheck
    exact ⟨lowered, hlower⟩

theorem exists_lowerGeometry_eq_ok (config : Config) (program : Program) :
    ∃ lowered, lowerGeometry config program = .ok lowered := by
  cases hcheck : checkGeometry config program with
  | error e => exact ⟨.rejected program e, by rw [lowerGeometry, hcheck]⟩
  | ok u =>
    obtain ⟨hconfig, hstage, hvalid⟩ := checkGeometry_eq_ok_iff.mp hcheck
    obtain ⟨survey, hsurvey⟩ := Survey.exists_ofProgram hvalid config.geometry
    by_cases hcounted : survey.isCounted 0 = true
    · obtain ⟨_, _, _, _, _, -, hlower⟩ := exists_lowersGeometry hconfig hstage hvalid hsurvey hcounted
      exact ⟨_, hlower⟩
    · refine ⟨.rejected program (.missingVertexCount 0), ?_⟩
      unfold lowerGeometry
      rw [hcheck]
      exact except_bind_eq_ok.mpr ⟨survey, hsurvey, by rw [if_neg hcounted]; rfl⟩

/-- For every configuration and every program, valid or not, each lowering comes to an end without a
fault: no number leaves its word, every field and region is there, and the builder's frames are closed
in order and all of them closed when it is finished. -/
theorem lowerings_end (config : Config) (program : Program) : (∃ lowered, lowerVertex config program = .ok lowered) ∧
    (∃ lowered, lowerGeometry config program = .ok lowered) ∧ ∃ lowered, program.lower config = .ok lowered := by
  have hvertex := exists_lowerVertex_eq_ok config program
  have hgeometry := exists_lowerGeometry_eq_ok config program
  refine ⟨hvertex, hgeometry, ?_⟩
  unfold Program.lower
  split
  · exact hvertex
  · exact hvertex
  · exact hgeometry
  · exact ⟨_, rfl⟩

/-! ## What is left of a program -/

theorem lowerVertex_unchanged (h : lowerVertex config program = .ok lowered)
    (herror : lowered.outcome = .error error) : lowered.program = program := by
  rcases lowerVertex_cases h with ⟨_, rfl⟩ | ⟨layout, rewritten, report, log, hlowers, rfl⟩
  · rfl
  · exact absurd herror (by simp [Lowered.checked, hlowers.validate])

theorem lowerGeometry_unchanged (hstores : program.stage = .geometry →
      ∀ v ∈ Block.values program.body, ¬ program.StoresDropped v)
    (h : lowerGeometry config program = .ok lowered) (herror : lowered.outcome = .error error) :
    lowered.program = program := by
  rcases lowerGeometry_cases h with ⟨_, rfl⟩ | ⟨_, _, _, _, report, log, hlowers, -, rfl⟩
  · rfl
  · exact absurd herror (by simp [Lowered.checked, hlowers.validate (hstores hlowers.stage)])

/-- A program that is not lowered is left alone: its body, its share of the memory, its definitions and
its variables are what they were. This asks that a geometry program sets no variable to the value of a
stored output or of an entry point. -/
theorem unchanged_of_lowering_error (hstores : program.stage = .geometry →
      ∀ v ∈ Block.values program.body, ¬ program.StoresDropped v)
    (h : program.lower config = .ok lowered ∨ lowerVertex config program = .ok lowered ∨
      lowerGeometry config program = .ok lowered)
    (herror : lowered.outcome = .error error) : lowered.program = program := by
  rcases h with h | h | h
  · unfold Program.lower at h
    split at h
    · exact lowerVertex_unchanged h herror
    · exact lowerVertex_unchanged h herror
    · exact lowerGeometry_unchanged hstores h herror
    · cases h
      rfl
  · exact lowerVertex_unchanged h herror
  · exact lowerGeometry_unchanged hstores h herror

/-- The error of a lowering, with the program that is handed back. -/
def failure? : Except Fault Lowered → Option (LoweringError × Program)
  | .ok { program, outcome := .error error, .. } => some (error, program)
  | _ => none

theorem exists_of_failure? {r : Except Fault Lowered} {result : LoweringError × Program}
    (h : failure? r = some result) :
    ∃ lowered, r = .ok lowered ∧ lowered.outcome = .error result.1 ∧ lowered.program = result.2 := by
  unfold failure? at h
  split at h
  · cases h
    exact ⟨_, rfl, rfl, rfl⟩
  · cases h

/-- A geometry program that keeps a number in a variable, emits a vertex and never states a count. -/
def uncountedProgram : Program where
  stage := .geometry
  definitions := #[⟨.const .u32 0, .u32⟩, ⟨.storeVar ⟨0⟩ ⟨0⟩, .void⟩,
    ⟨.intrinsic (.geometry (.emitVertex 0 ⟨0⟩ ⟨0⟩)), .void⟩]
  vars := #[⟨"x", .u32⟩]
  body := [.instr ⟨0⟩, .instr ⟨1⟩, .loop [.instr ⟨2⟩, .leave]]

theorem unchanged_of_lowering_error_uncounted : ∃ lowered, uncountedProgram.lower {} = .ok lowered ∧
      lowered.outcome = .error (.missingVertexCount 0) ∧ lowered.program = uncountedProgram := by
  have hfailure : (failure? (uncountedProgram.lower {})).map (·.1) = some (.missingVertexCount 0) := by
    decide +kernel
  have hstores : ∀ v ∈ Block.values uncountedProgram.body, uncountedProgram.storesDropped v = false := by
    decide
  obtain ⟨result, hresult, herror⟩ := Option.map_eq_some_iff.mp hfailure
  obtain ⟨lowered, hlower, houtcome, -⟩ := exists_of_failure? hresult
  rw [herror] at houtcome
  exact ⟨lowered, hlower, houtcome, unchanged_of_lowering_error
    (fun _ v hv => Program.not_storesDropped (hstores v hv)) (.inl hlower) houtcome⟩

/-- A geometry program that sets a variable without contents to an emitted vertex. -/
def vertexKeepingProgram : Program where
  stage := .geometry
  definitions := #[⟨.const .u32 0, .u32⟩, ⟨.intrinsic (.geometry (.emitVertex 0 ⟨0⟩ ⟨0⟩)), .void⟩,
    ⟨.storeVar ⟨0⟩ ⟨1⟩, .void⟩, ⟨.intrinsic (.geometry (.setCounts 0 ⟨0⟩ ⟨0⟩)), .void⟩]
  vars := #[⟨"x", .void⟩]
  body := [.instr ⟨0⟩, .instr ⟨1⟩, .instr ⟨2⟩, .instr ⟨3⟩]

/-- The program is valid, and yet it is handed back with an error and another share of the memory. -/
theorem lower_changes_vertexKeepingProgram : vertexKeepingProgram.validate = .ok () ∧
      ∃ lowered, vertexKeepingProgram.lower {} = .ok lowered ∧
        lowered.outcome = .error (.program (.useBeforeDefinition ⟨1⟩ ⟨2⟩)) ∧
        lowered.program.sharedSize ≠ vertexKeepingProgram.sharedSize := by
  have hfailure : (failure? (vertexKeepingProgram.lower {})).map (fun result => (result.1, result.2.sharedSize)) =
      some (.program (.useBeforeDefinition ⟨1⟩ ⟨2⟩), 260) := by
    decide +kernel
  obtain ⟨result, hresult, herror⟩ := Option.map_eq_some_iff.mp hfailure
  obtain ⟨lowered, hlower, houtcome, hprogram⟩ := exists_of_failure? hresult
  obtain ⟨hkind, hsize⟩ := Prod.mk.inj herror
  refine ⟨by decide +kernel, lowered, hlower, hkind ▸ houtcome, ?_⟩
  rw [hprogram, hsize]
  decide

end PrimitiveShader.Lowering
