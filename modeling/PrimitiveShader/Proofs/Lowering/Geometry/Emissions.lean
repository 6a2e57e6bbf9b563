import PrimitiveShader.Proofs.Lowering.Geometry.Events
import PrimitiveShader.Proofs.Lowering.Geometry.Relocation

/-!
# What the emissions of an invocation settle

What an invocation leaves for stream 0 may depend on the bytes that it finds. It does not if the invocation states
a number of vertices and emits all vertices below it: then the flags of its places are its own, and so are the
components of its live vertices (`EmitsCounted.flags_eq`, `Emits.fields_eq`).

Where a program is lowered without a compaction, all counts on stream 0 are the declared maximum
(`LowersGeometry.counts_eq_maximum`), so that every place is live.
-/

namespace PrimitiveShader

/-! ## Along a run -/

/-- A block of the body, where the values `visible` are in sight. -/
structure Program.Part (program : Program) (visible : List Value) (block : Block) : Prop where
  values : ∀ v ∈ Block.values block, v ∈ Block.values program.body
  formed : ∃ inLoop, Block.WellFormed program inLoop (· ∈ visible) block

namespace Program.Part

variable {program : Program} {visible : List Value} {value cond : Value} {body thenBlock elseBlock rest : Block}

theorem whole (h : program.validate = .ok ()) : program.Part [] program.body where
  values _ hv := hv
  formed := ⟨false, by simpa using (validate_eq_ok_iff.mp h).1⟩

theorem instr (h : program.Part visible (.instr value :: rest)) :
    value ∈ Block.values program.body ∧ (∃ d, program.Supports (· ∈ visible) value d) ∧
      program.Part (value :: visible) rest := by
  obtain ⟨inLoop, hd, hrest⟩ := h.formed
  exact ⟨h.values value (by simp [Block.values, Node.values]), hd,
    fun v hv => h.values v (by simp [Block.values, hv]), inLoop, hrest.mono (.refl _) (by simp [Node.opens, eq_comm])⟩

theorem branch (h : program.Part visible (.branch cond thenBlock elseBlock :: rest)) :
    (∀ a : UInt64, program.Part visible (if a = 0 then elseBlock else thenBlock)) ∧ program.Part visible rest := by
  obtain ⟨inLoop, ⟨-, hthen, helse⟩, hrest⟩ := h.formed
  refine ⟨fun a => ?_, fun v hv => h.values v (by simp [Block.values, hv]), inLoop,
    hrest.mono (.refl _) (by simp [Node.opens])⟩
  split
  · exact ⟨fun v hv => h.values v (by simp [Block.values, Node.values, hv]), inLoop, helse⟩
  · exact ⟨fun v hv => h.values v (by simp [Block.values, Node.values, hv]), inLoop, hthen⟩

theorem loop (h : program.Part visible (.loop body :: rest)) :
    program.Part visible body ∧ program.Part visible rest := by
  obtain ⟨inLoop, hbody, hrest⟩ := h.formed
  exact ⟨⟨fun v hv => h.values v (by simp [Block.values, Node.values, hv]), true, hbody⟩,
    fun v hv => h.values v (by simp [Block.values, hv]), inLoop,
    hrest.mono (.refl _) (by simp [Node.opens])⟩

end Program.Part

/-- An invocation with a property, where the constants in sight are settled. -/
structure Invocation.Along (program : Program) (I : Invocation → Prop) (visible : List Value) (inv : Invocation) :
    Prop where
  sized : inv.lane.registers.size = program.definitions.size
  settled : inv.Settled program visible
  property : I inv

section

variable {source : Workgroup} {id : LaneId} {I : Invocation → Prop}
  (hstep : ∀ {visible : List Value} {value : Value} {d : Definition} {inv inv' : Invocation},
    value ∈ Block.values source.program.body → source.program.Supports (· ∈ visible) value d →
    inv.Settled source.program visible → I inv → d.instr.Runs source id value inv (.ok inv') → I inv')
include hstep

theorem Invocation.Along.step {visible : List Value} {value : Value} {d : Definition} {inv inv' : Invocation}
    (h : inv.Along source.program I visible) (hmem : value ∈ Block.values source.program.body)
    (hd : source.program.Supports (· ∈ visible) value d) (hrun : d.instr.Runs source id value inv (.ok inv')) :
    inv'.Along source.program I (value :: visible) := by
  refine ⟨?_, h.settled.step (Program.instr_of_definition? hd.definition)
    (h.sized ▸ Program.lt_of_definition? hd.definition) hrun, hstep hmem hd h.settled h.property hrun⟩
  rcases hrun.registers with ⟨-, hregisters⟩ | ⟨a, -, hregisters⟩
  · rw [hregisters, h.sized]
  · rw [hregisters, Array.size_setIfInBounds, h.sized]

/-- What each instruction keeps holds at every end of a block. -/
theorem Block.Runs.along {block : Block} {inv : Invocation} {ending : Ending}
    (h : Block.Runs source id block inv ending) : ∀ {visible : List Value}, source.program.Part visible block →
    inv.Along source.program I visible →
    ending.Meets (Invocation.Along source.program I visible) (Invocation.Along source.program I visible)
      fun _ => True := by
  induction h with
  | nil => exact fun _ hI => hI
  | @instr value i rest inv inv' ending hi hrun _ ih =>
    intro visible hpart hI
    obtain ⟨hmem, ⟨d, hd⟩, hrest⟩ := hpart.instr
    cases hi.symm.trans (Program.instr_of_definition? hd.definition)
    have hend := ih hrest (hI.step hstep hmem hd hrun)
    -- Behind the block its own values are out of sight.
    have hleave (inv : Invocation) (h : inv.Along source.program I (value :: visible)) :
        inv.Along source.program I visible :=
      ⟨h.sized, h.settled.mono fun v hv => List.mem_cons_of_mem value hv, h.property⟩
    cases ending with
    | next inv => exact hleave inv hend
    | left inv => exact hleave inv hend
    | faulted fault => trivial
  | branch _ _ _ ih ihrest =>
    exact fun hpart hI => ihrest hpart.branch.2 (ih (hpart.branch.1 _) hI)
  | branch_left _ _ ih => exact fun hpart hI => ih (hpart.branch.1 _) hI
  | again _ _ ih ihrest => exact fun hpart hI => ihrest hpart (ih hpart.loop.1 hI)
  | loop_left _ _ ih ihrest => exact fun hpart hI => ihrest hpart.loop.2 (ih hpart.loop.1 hI)
  | instr_faulted | branch_faulted | loop_faulted => exact fun _ _ => trivial
  | leave => exact fun _ hI => hI

/-- What each instruction keeps holds when an invocation has come to its end. -/
theorem Workgroup.Invokes.along {i : Nat} (hvalid : source.program.validate = .ok ())
    (hid : source.laneId i = id) (hstart : I (.start source.program)) {inv : Invocation}
    (h : source.Invokes i (.next inv)) : I inv := by
  subst hid
  have hbegin : Invocation.Along source.program I [] (.start source.program) :=
    ⟨by simp [Invocation.start, Lane.start], fun v hv => (List.not_mem_nil hv).elim, hstart⟩
  exact (Block.Runs.along hstep h (.whole hvalid) hbegin).property

end

namespace Lowering

/-! ## Counts -/

/-- The counts of a survey, once it has seen the instructions `seen`. -/
structure Survey.Tallies (program : Program) (limits : GeometryLimits) (seen : List Instr) (survey : Survey) :
    Prop where
  used : ∀ call ∈ survey.counts, limits.usesStream call.stream
  found : ∀ stream vertices primitives, .intrinsic (.geometry (.setCounts stream vertices primitives)) ∈ seen →
    limits.usesStream stream → ∃ i, program.instr vertices = .ok i ∧
      ⟨stream, i.constant? == some (UInt64.ofNat limits.maxVerticesOut)⟩ ∈ survey.counts

namespace Survey.Tallies

variable {program : Program} {limits : GeometryLimits} {seen : List Instr} {survey survey' : Survey}

variable (h : Tallies program limits seen survey)
include h

/-- An instruction that has nothing to do with the counts of active streams. -/
theorem ignore {instr : Instr} (hcounts : survey'.counts = survey.counts) (hinstr : ∀ stream vertices primitives,
      instr = .intrinsic (.geometry (.setCounts stream vertices primitives)) → limits.usesStream stream = false) :
    Tallies program limits (seen ++ [instr]) survey' where
  used call hcall := h.used call (hcounts ▸ hcall)
  found stream vertices primitives hmem huse := by
    rcases List.mem_append.mp hmem with hmem | hmem
    · rw [hcounts]
      exact h.found stream vertices primitives hmem huse
    · have hunused := hinstr stream vertices primitives (List.mem_singleton.mp hmem).symm
      rw [huse] at hunused
      cases hunused

theorem add {instr : Instr}
    (hadd : survey.add program limits instr = .ok survey') : Tallies program limits (seen ++ [instr]) survey' := by
  unfold Survey.add at hadd
  split at hadd
  · split at hadd
    · obtain ⟨_, -, hadd⟩ := except_bind_eq_ok.mp hadd
      cases hadd
      exact h.ignore rfl nofun
    · cases hadd
      exact h.ignore rfl nofun
  · split at hadd <;> cases hadd <;> exact h.ignore rfl nofun
  · rename_i stream vertices primitives
    split at hadd
    · rename_i huse
      obtain ⟨i, hi, hadd⟩ := except_bind_eq_ok.mp hadd
      cases hadd
      refine ⟨fun call hcall => ?_, fun s v p hmem hs => ?_⟩
      · rcases List.mem_cons.mp hcall with rfl | hcall
        · exact huse
        · exact h.used call hcall
      · rcases List.mem_append.mp hmem with hmem | hmem
        · obtain ⟨j, hj, hcall⟩ := h.found s v p hmem hs
          exact ⟨j, hj, List.mem_cons_of_mem _ hcall⟩
        · cases List.mem_singleton.mp hmem
          exact ⟨i, hi, List.mem_cons_self⟩
    · rename_i huse
      cases hadd
      refine h.ignore rfl fun s v p heq => ?_
      cases heq
      simpa using huse
  · rename_i hother
    cases hadd
    exact h.ignore rfl fun stream vertices primitives heq => absurd heq (hother stream vertices primitives)

theorem foldlM {pairs : List (Value × Instr)}
    (hfold : pairs.foldlM (fun survey (_, instr) => survey.add program limits instr) survey = .ok survey') :
    Tallies program limits (seen ++ pairs.map (·.2)) survey' := by
  induction pairs generalizing seen survey with
  | nil =>
    cases hfold
    simpa using h
  | cons pair rest ih =>
    rw [List.foldlM_cons] at hfold
    obtain ⟨survey₁, hadd, hfold⟩ := except_bind_eq_ok.mp hfold
    simpa using ih (h.add hadd) hfold

end Survey.Tallies

variable {limits : GeometryLimits} {program : Program} {survey : Survey}

/-- The survey finds all counts of the active streams, and no others. -/
theorem Survey.tallies_of_ofProgram (h : ofProgram program limits = .ok survey) :
    (∀ call ∈ survey.counts, limits.usesStream call.stream) ∧
      ∀ v ∈ Block.values program.body, ∀ stream vertices primitives,
        program.instr v = .ok (.intrinsic (.geometry (.setCounts stream vertices primitives))) →
        limits.usesStream stream → ∃ i, program.instr vertices = .ok i ∧
          ⟨stream, i.constant? == some (UInt64.ofNat limits.maxVerticesOut)⟩ ∈ survey.counts := by
  obtain ⟨pairs, hpairs, hfold⟩ := except_bind_eq_ok.mp h
  have hempty : Tallies program limits [] {} :=
    ⟨fun _ h => (List.not_mem_nil h).elim, fun _ _ _ h => (List.not_mem_nil h).elim⟩
  have htallies := hempty.foldlM hfold
  refine ⟨htallies.used, fun v hv stream vertices primitives hi huse => ?_⟩
  refine htallies.found stream vertices primitives ?_ huse
  rw [List.nil_append]
  exact List.mem_map.mpr ⟨(v, _), (Program.mem_mapM_instr hpairs).mpr ⟨hv, hi⟩, rfl⟩

/-- Without a compaction every count on an active stream is the declared maximum, as a constant. -/
theorem Survey.constant_of_static
    (h : ofProgram program limits = .ok survey) (hstatic : survey.needsCompaction limits = false) {stream : UInt8}
    (hstream : stream ∈ limits.streams) {v vertices primitives : Value} (hv : v ∈ Block.values program.body)
    (hi : program.instr v = .ok (.intrinsic (.geometry (.setCounts stream vertices primitives)))) :
    ∃ i, program.instr vertices = .ok i ∧ i.constant? = some (UInt64.ofNat limits.maxVerticesOut) := by
  have huse : limits.usesStream stream := (List.mem_filter.mp hstream).2
  obtain ⟨i, hinstr, hcall⟩ := (tallies_of_ofProgram h).2 v hv stream vertices primitives hi huse
  refine ⟨i, hinstr, ?_⟩
  rw [needsCompaction, Bool.not_eq_false', List.all_eq_true] at hstatic
  have hall := (Bool.and_eq_true _ _ ▸ hstatic stream hstream).2
  have hone := List.all_eq_true.mp hall _ hcall
  simpa using hone

end Lowering

theorem Instr.Runs.events {group : Workgroup} {id : LaneId} {value : Value} {inv inv' : Invocation} {instr : Instr}
    (h : instr.Runs group id value inv (.ok inv')) : inv'.events = inv.events ∨
      (∃ stream n b outputs, inv'.events = inv.events ++ [.vertex stream n b outputs]) ∨
      ∃ stream vertices primitives n p, instr = .intrinsic (.geometry (.setCounts stream vertices primitives)) ∧
        inv.lane.read vertices = .ok n ∧ inv'.events = inv.events ++ [.counts stream n p] := by
  generalize hr : (Except.ok inv' : Except Fault Invocation) = result at h
  cases h with
  | crossLane op a =>
    cases hr
    exact .inl rfl
  | scalar _ =>
    unfold Invocation.execute at hr
    split at hr
    · obtain ⟨n, -, hr⟩ := except_bind_eq_ok.mp hr.symm
      obtain ⟨b, -, hr⟩ := except_bind_eq_ok.mp hr
      cases hr
      exact .inr (.inl ⟨_, _, _, _, rfl⟩)
    · cases hr
      exact .inl rfl
    · obtain ⟨n, hn, hr⟩ := except_bind_eq_ok.mp hr.symm
      obtain ⟨p, -, hr⟩ := except_bind_eq_ok.mp hr
      cases hr
      exact .inr (.inr ⟨_, _, _, n, p, rfl, hn, rfl⟩)
    · split at hr
      · obtain ⟨a, -, hr⟩ := except_bind_eq_ok.mp hr.symm
        cases hr
        exact .inl rfl
      · cases hr
    · obtain ⟨lane, -, hr⟩ := except_bind_eq_ok.mp hr.symm
      cases hr
      exact .inl rfl

namespace Lowering

/-- Without a compaction the invocations state no other number of vertices than the declared maximum. -/
theorem LowersGeometry.counts_eq_maximum {config : Config} {program declared lowered : Program} {survey : Survey}
    {plan : GeometryPlan} (h : LowersGeometry config program survey plan declared lowered)
    (hstatic : survey.needsCompaction config.geometry = false) {source : Workgroup} (hsource : source.program = program)
    {i : Nat} {inv : Invocation} (hinv : source.Invokes i (.next inv)) {vertices primitives : UInt64}
    (hcounts : .counts 0 vertices primitives ∈ inv.events) :
    vertices = UInt64.ofNat config.geometry.maxVerticesOut := by
  subst hsource
  have hzero : (0 : UInt8) ∈ config.geometry.streams := List.mem_filter.mpr ⟨by decide, h.accepted.stream⟩
  revert vertices primitives
  refine hinv.along (I := fun inv => ∀ {vertices primitives}, .counts 0 vertices primitives ∈ inv.events →
    vertices = UInt64.ofNat config.geometry.maxVerticesOut) ?_ h.valid rfl fun hmem => (List.not_mem_nil hmem).elim
  intro visible value d inv inv' hv hd hsettled hI hrun n p hmem
  rcases hrun.events with heq | ⟨_, _, _, _, heq⟩ | ⟨stream, vertices, primitives, n', p', hinstr, hread, heq⟩
  · exact hI (heq ▸ hmem)
  · rw [heq, List.mem_append, List.mem_singleton] at hmem
    exact hI (hmem.resolve_right nofun)
  · rw [heq, List.mem_append, List.mem_singleton] at hmem
    rcases hmem with hmem | hmem
    · exact hI hmem
    · cases hmem
      obtain ⟨instr, type⟩ := d
      obtain rfl : instr = _ := hinstr
      obtain ⟨j, hj, hconstant⟩ := Survey.constant_of_static h.surveyed hstatic hzero hv
        (Program.instr_of_definition? hd.definition)
      have hsight := (hd.operands vertices (List.mem_cons_self ..)).1
      exact Except.ok.inj (hread.symm.trans (hsettled vertices hsight j hj _ hconstant))

/-! ## Emissions -/

/-- The invocation emits vertex `m` of stream 0. -/
def Emits (inv : Invocation) (m : Nat) : Prop :=
  ∃ number before outputs, .vertex 0 number before outputs ∈ inv.events ∧ number.toNat = m

/-- The invocation states a number of vertices of stream 0 and emits all vertices below it, as far as there is
room for `limit` vertices. -/
def EmitsCounted (limit : Nat) (inv : Invocation) : Prop :=
  ∃ vertices primitives, .counts 0 vertices primitives ∈ inv.events ∧
    ∀ m < min vertices.toNat limit, Emits inv m

variable {event : GeometryEvent} {events : List GeometryEvent} {α : Type} {f : α → GeometryEvent → α}

/-- An event behind which it does not matter what was there before. -/
theorem foldl_eq_of_mem (hmem : event ∈ events) (hevent : ∀ x y, f x event = f y event) (x y : α) :
    events.foldl f x = events.foldl f y := by
  obtain ⟨before, after, rfl⟩ := List.append_of_mem hmem
  rw [List.foldl_append, List.foldl_append, List.foldl_cons, List.foldl_cons, hevent]

/-- What an event brings about and all events keep. -/
theorem foldl_of_mem {P : α → Prop} (hmem : event ∈ events) (hevent : ∀ x, P (f x event))
    (hkeep : ∀ event ∈ events, ∀ x, P x → P (f x event)) (x : α) : P (events.foldl f x) := by
  obtain ⟨before, after, rfl⟩ := List.append_of_mem hmem
  have hafter : ∀ (rest : List GeometryEvent) (y : α), (∀ e ∈ rest, ∀ x, P x → P (f x e)) → P y →
      P (rest.foldl f y) := by
    intro rest
    induction rest with
    | nil => exact fun _ _ hy => hy
    | cons e rest ih =>
      exact fun y hrest hy => ih _ (fun e' he' => hrest e' (List.mem_cons_of_mem e he'))
        (hrest e List.mem_cons_self y hy)
  rw [List.foldl_append, List.foldl_cons]
  exact hafter after _ (fun e he => hkeep e (by simp [he])) (hevent _)

variable {inv : Invocation} {limit m : Nat}

/-- The flags of an emitted vertex do not depend on what was there before. -/
theorem Emits.flags_eq (h : Emits inv m) (topology : Topology) (x y : UInt8) :
    inv.events.foldl (flagsAfter topology m) x = inv.events.foldl (flagsAfter topology m) y := by
  obtain ⟨number, before, outputs, hmem, rfl⟩ := h
  exact foldl_eq_of_mem hmem (fun x y => by simp only [flagsAfter, and_self, ↓reduceIte]) x y

/-- An emitted vertex is live where no smaller number of vertices is stated. -/
theorem Emits.isLive (h : Emits inv m)
    (hcounts : ∀ vertices primitives, .counts 0 vertices primitives ∈ inv.events → m < vertices.toNat)
    (topology : Topology) (x : UInt8) : PrimitiveFlags.isLive ⟨inv.events.foldl (flagsAfter topology m) x⟩ = true := by
  obtain ⟨number, before, outputs, hmem, rfl⟩ := h
  refine foldl_of_mem (P := fun flags => PrimitiveFlags.isLive ⟨flags⟩ = true) hmem (fun x => ?_)
    (fun event hevent x hx => ?_) x
  · simp only [flagsAfter, and_self, ↓reduceIte, isLive_flagsOf]
  · cases event with
    | vertex stream n b o =>
      simp only [flagsAfter]
      split
      · exact isLive_flagsOf _ _
      · exact hx
    | counts stream vertices primitives =>
      have hkept : ¬ (stream = 0 ∧ vertices.toNat ≤ number.toNat) := by
        rintro ⟨rfl, hle⟩
        exact Nat.not_lt.mpr hle (hcounts vertices primitives hevent)
      simp only [flagsAfter, hkept, ↓reduceIte]
      exact hx

/-- The components of an emitted vertex do not depend on what was there before. -/
theorem Emits.fields_eq (h : Emits inv m) (a : Attribute) (x y : UInt64) :
    inv.events.foldl (fieldAfter m a) x = inv.events.foldl (fieldAfter m a) y := by
  obtain ⟨number, before, outputs, hmem, rfl⟩ := h
  exact foldl_eq_of_mem hmem (fun x y => by simp only [fieldAfter, and_self, ↓reduceIte]) x y

namespace EmitsCounted

/-- The flags of all places of the invocation do not depend on what was there before. -/
theorem flags_eq (h : EmitsCounted limit inv) (hm : m < limit) (topology : Topology) (x y : UInt8) :
    inv.events.foldl (flagsAfter topology m) x = inv.events.foldl (flagsAfter topology m) y := by
  obtain ⟨vertices, primitives, hcounts, hemits⟩ := h
  by_cases hlt : m < vertices.toNat
  · exact (hemits m (by omega)).flags_eq topology x y
  · refine foldl_eq_of_mem hcounts (fun x y => ?_) x y
    simp only [flagsAfter, Nat.le_of_not_lt hlt, and_self, ↓reduceIte]

/-- All vertices are emitted where no smaller number is stated. -/
theorem emits (h : EmitsCounted limit inv)
    (hcounts : ∀ vertices primitives, .counts 0 vertices primitives ∈ inv.events → limit ≤ vertices.toNat)
    (hm : m < limit) : Emits inv m := by
  obtain ⟨vertices, primitives, hmem, hemits⟩ := h
  have hle := hcounts vertices primitives hmem
  exact hemits m (by omega)

/-- A place with flags belongs to a vertex that was emitted. -/
theorem emits_of_flags (h : EmitsCounted limit inv) (hm : m < limit) {topology : Topology} {x : UInt8}
    (hflags : inv.events.foldl (flagsAfter topology m) x ≠ 0) : Emits inv m := by
  by_contra hnot
  rw [h.flags_eq hm topology x 0] at hflags
  refine hflags ?_
  -- No event sets the flags again once they are cleared.
  have hclear : ∀ events : List GeometryEvent, (∀ event ∈ events, event ∈ inv.events) →
      events.foldl (flagsAfter topology m) 0 = 0 := by
    intro events hsub
    induction events with
    | nil => rfl
    | cons event rest ih =>
      have hzero : flagsAfter topology m 0 event = 0 := by
        cases event with
        | vertex stream number before outputs =>
          refine if_neg ?_
          rintro ⟨rfl, hnumber⟩
          exact hnot ⟨number, before, outputs, hsub _ List.mem_cons_self, hnumber⟩
        | counts stream vertices primitives => exact ite_self _
      rw [List.foldl_cons, hzero]
      exact ih fun event hevent => hsub event (List.mem_cons_of_mem _ hevent)
  exact hclear inv.events fun _ h => h

end EmitsCounted

namespace GeometryPlan

/-- Each place belongs to a vertex of an invocation. -/
theorem Sound.exists_placeOf {plan : GeometryPlan} (h : plan.Sound) {launch : Launch} {place : Nat}
    (hplace : place < plan.placesOf launch) : ∃ i < launch.primitives.size,
      ∃ m < plan.config.geometry.maxVerticesOut, plan.placeOf i m = place := by
  refine ⟨place / plan.config.geometry.maxVerticesOut, Nat.div_lt_of_lt_mul (by rwa [Nat.mul_comm]),
    place % plan.config.geometry.maxVerticesOut, Nat.mod_lt _ h.positive, ?_⟩
  rw [placeOf, Nat.mul_comm]
  exact Nat.div_add_mod _ _

variable {plan plan' : GeometryPlan} {before before' view view' : Nat → UInt8} {i : Nat}

/-- The vertex of a place consists of its components. -/
theorem Resembles.vertexAt_eq (h : plan.Resembles plan') {place : Nat}
    (hfields : ∀ region region', plan.layout.vertexAttributes = some region →
      plan'.layout.vertexAttributes = some region' → ∀ a ∈ plan.streamAttributes 0,
      plan'.fieldAt region' view' place a = plan.fieldAt region view place a) :
    plan'.vertexAt view' place [] = plan.vertexAt view place [] := by
  have hroom := h.room
  unfold vertexAt
  cases hr : plan.layout.vertexAttributes with
  | none =>
    rw [hr, Option.isSome_none, Option.isSome_eq_false_iff, Option.isNone_iff_eq_none] at hroom
    rw [hroom]
  | some region =>
    rw [hr, Option.isSome_some, Option.isSome_iff_exists] at hroom
    obtain ⟨region', hr'⟩ := hroom
    rw [hr', h.streamAttributes]
    exact List.foldl_ext _ _ _ fun outputs a ha =>
      congrArg (outputs.insert a.slot) (hfields region region' hr hr' a ha)

section

variable (hplans : plan.Resembles plan') (h : plan.Leaves before view i inv.events)
  (h' : plan'.Leaves before' view' i inv.events) (hm : m < plan.config.geometry.maxVerticesOut)
include hplans h h' hm

/-- The flags that an invocation leaves do not depend on where it leaves them and on what was there before. -/
theorem Leaves.flags_eq (hflags : ∀ topology x y, inv.events.foldl (flagsAfter topology m) x =
      inv.events.foldl (flagsAfter topology m) y) :
    plan'.flagsAt view' (plan.placeOf i m) = plan.flagsAt view (plan.placeOf i m) := by
  have hfound := h'.flags m (hplans.vertices ▸ hm)
  rw [hplans.placeOf_eq, hplans.topology] at hfound
  rw [hfound, h.flags m hm]
  exact hflags _ _ _

/-- Neither do the vertices that it leaves. -/
theorem Leaves.vertexAt_eq (hemits : Emits inv m) :
    plan'.vertexAt view' (plan.placeOf i m) [] = plan.vertexAt view (plan.placeOf i m) [] := by
  refine hplans.vertexAt_eq fun region region' hr hr' a ha => ?_
  have hfield := h'.fields region' hr' m (hplans.vertices ▸ hm) a (hplans.streamAttributes 0 ▸ ha)
  rw [hplans.placeOf_eq] at hfield
  rw [hfield, h.fields region hr m hm a ha]
  exact hemits.fields_eq a _ _

end

end GeometryPlan

end Lowering

end PrimitiveShader
