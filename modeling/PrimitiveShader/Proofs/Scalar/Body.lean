import PrimitiveShader.Proofs.Scalar.Mirror

/-!
# Bodies that are placed as they are

A lowered program may run the body of its source unchanged. A thread that does so goes through the
states of an invocation of the source, for any nesting of branches and loops (`Block.wp_of_runs`). The
thread can only fault where the invocation does.
-/

namespace PrimitiveShader

variable {instr : Instr}

/-- Whether an instruction leaves shared memory, barriers, the allocation and the exports alone. -/
def Instr.isPlain : Instr → Bool
  | .intrinsic (.loadShared _ _ _) => false
  | .intrinsic (.storeShared _ _ _) => false
  | .intrinsic .barrier => false
  | .intrinsic (.allocate _ _) => false
  | .intrinsic (.exportPrimitive _) => false
  | .intrinsic .exportVertex => false
  | _ => true

/-- The thread is where the invocation is, and nothing else has happened to it since `start`. -/
structure Tracks (program : Program) (start : Thread) (inv : Invocation) (t : Thread) : Prop
    extends Mirrors program inv t, start.Bystander program t where
  outputs : t.lane.outputs = inv.lane.outputs

/-- The thread has done what the invocation has done, other than with outputs and entry points. -/
structure Follows (program : Program) (inv : Invocation) (t : Thread) (inv' : Invocation)
    (t' : Thread) : Prop extends Mirrors program inv' t', t.Bystander program t' where
  outputs : t'.lane.outputs = t.lane.outputs
  stored : inv'.lane.outputs = inv.lane.outputs
  events : inv'.events = inv.events

namespace Follows

variable {program : Program} {inv : Invocation} {t : Thread}

theorem write (h : Mirrors program inv t) {value : Value} (hv : value.index < program.definitions.size) (a : UInt64) :
    Follows program inv t (inv.write value a) (t.write value a) where
  toMirrors := h.write hv a
  vars _ _ := rfl
  view := rfl
  primitives := rfl
  vertices := rfl
  space := rfl
  outputs := rfl
  stored := rfl
  events := rfl

theorem setVar (h : Mirrors program inv t) {x : Var} (hx : x.index < program.vars.size)
    (a : UInt64) : Follows program inv t
      { inv with lane := { inv.lane with vars := inv.lane.vars.setIfInBounds x.index a } } (t.setVar x a) where
  toMirrors := h.setVar hx a
  vars y hy := Thread.readVar_setVar_of_ne _ (by omega) _
  view := rfl
  primitives := rfl
  vertices := rfl
  space := rfl
  outputs := rfl
  stored := rfl
  events := rfl

end Follows

namespace Tracks

variable {program : Program} {start : Thread} {inv : Invocation} {t : Thread}

theorem follow (h : Tracks program start inv t) {inv' : Invocation} {t' : Thread}
    (h' : Follows program inv t inv' t') : Tracks program start inv' t' where
  toMirrors := h'.toMirrors
  toBystander := h.toBystander.trans h'.toBystander
  outputs := by rw [h'.outputs, h.outputs, h'.stored]

theorem setOutput (h : Tracks program start inv t) (slot : OutputSlot) (a : UInt64) : Tracks program start
      { inv with lane := { inv.lane with outputs := inv.lane.outputs.insert slot a } } (t.setOutput slot a) where
  sized := ⟨h.sized.registers, h.sized.vars⟩
  read := h.read
  readVar := h.readVar
  vars := h.vars
  view := h.view
  primitives := h.primitives
  vertices := h.vertices
  space := h.space
  outputs := by
    change t.lane.outputs.insert slot a = _
    rw [h.outputs]

end Tracks

/-- An instruction that concerns the lane only. -/
theorem Invocation.execute_of_isLaneLocal {group : Workgroup} {id : LaneId} {value : Value}
    (h : instr.isLaneLocal) (inv : Invocation) : inv.execute group id value instr =
      (inv.lane.execute group id value instr).map fun lane => { inv with lane } := by
  cases instr with
  | intrinsic op => cases op <;> first | rfl | cases h
  | _ => rfl

theorem Instr.isScalar_of_isLaneLocal (h : instr.isLaneLocal) : instr.isScalar := by
  cases instr with
  | intrinsic op => cases op <;> first | rfl | cases h
  | _ => rfl

section

variable {stream : UInt8} {c : Setting} {source : Workgroup} {id : LaneId} {start t : Thread} {inv : Invocation}
  {visible : Value → Prop} {value : Value} {d : Definition}

/-- An instruction of the lane's own, as an outcome of the invocation. -/
theorem Instr.runs_of_isLaneLocal {instr : Instr} (h : instr.isLaneLocal)
    {result : Except Fault Lane} (hr : inv.lane.execute source id value instr = result) :
    instr.Runs source id value inv (result.map fun lane => { inv with lane }) := by
  rw [← hr, ← Invocation.execute_of_isLaneLocal h]
  exact .scalar (isScalar_of_isLaneLocal h)

/-- Whether the instruction stores an output. -/
def Instr.isOutput : Instr → Bool
  | .intrinsic (.storeOutput _ _) => true
  | _ => false

/-- One instruction of the body that is neither an entry point nor stores an output. -/
theorem Mirrors.wp_of_runs (hc : c.group.Hosts source) (h : Mirrors source.program inv t)
    (hd : source.program.Supports visible value d) (hplain : d.instr.isPlain)
    (hentry : d.instr.isEntryPoint = false) (houtput : d.instr.isOutput = false)
    (hfault : ∀ fault, d.instr.Runs source id value inv (.error fault) → c.faults) :
    d.instr.wp c id value (fun u => ∃ inv', d.instr.Runs source id value inv (.ok inv') ∧
      Follows source.program inv t inv' u) t := by
  have hlt := Program.lt_of_definition? hd.definition
  have hoperand : ∀ o ∈ d.instr.operands, ∃ a, inv.lane.read o = .ok a ∧ t.lane.read o = .ok a :=
    fun o ho => h.exists_read (hd.operands o ho).2
  by_cases hcomp : d.instr.isComputed
  · have hlocal := Instr.isLaneLocal_of_isComputed hcomp
    rw [Instr.wp_of_isLaneLocal hlocal]
    refine (h.execute_computed hc hd hcomp fun fault hr => ?_).mono ?_
    · exact hfault fault (Instr.runs_of_isLaneLocal hlocal hr)
    · rintro lane' - ⟨a, hr, rfl⟩
      exact ⟨_, Instr.runs_of_isLaneLocal hlocal hr, .write h hlt a⟩
  obtain ⟨instr, type⟩ := d
  cases instr with
  | storeVar x a =>
    obtain ⟨y, hy, hy'⟩ := hoperand a (by simp [Instr.operands])
    have hx : x.index < source.program.vars.size := by
      have htype := hd.type
      simp only [Program.resultType?, Instr.resultType?] at htype
      cases hv : source.program.varType? x with
      | none => simp [hv] at htype
      | some τ => exact Program.lt_of_varType? hv
    obtain ⟨hinv, hthread⟩ := h.lt_vars hx
    have hstored : inv.lane.execute source id value (.storeVar x a) =
        .ok { inv.lane with vars := inv.lane.vars.setIfInBounds x.index y } := by
      simp only [Lane.execute, hy, Lane.writeVar, bind, Except.bind, hinv, ↓reduceIte]
    rw [Instr.wp_of_isLaneLocal rfl]
    simp only [Lane.execute, hy', Lane.writeVar, bind, Except.bind, hthread, ↓reduceIte]
    exact ⟨_, Instr.runs_of_isLaneLocal rfl hstored, .setVar h hx y⟩
  | intrinsic op =>
    cases op with
    | crossLane op =>
      refine ⟨.inr fun v hv => ?_, fun a => ⟨_, .crossLane op a, .write h hlt a⟩⟩
      obtain ⟨e, he⟩ := Option.isSome_iff_exists.mp (hd.operands v hv).2
      exact Nat.lt_of_lt_of_le (Program.lt_of_definition? he) hc.within.size_le
    | queryAdd stream count =>
      obtain ⟨y, hy, hy'⟩ := hoperand count (by simp [Instr.operands, Intrinsic.operands])
      have hruns : (Instr.intrinsic (.queryAdd stream count)).Runs source id value inv
          (inv.execute source id value (.intrinsic (.queryAdd stream count))) := .scalar rfl
      by_cases hstream : stream.toNat < 4
      · simp only [Invocation.execute, hstream, hy, ↓reduceIte] at hruns
        simp only [Instr.wp, Thread.queryCount, hstream, hy', ↓reduceIte]
        exact ⟨inv, hruns, h, .refl t, rfl, rfl, rfl⟩
      · simp only [Invocation.execute, hstream, ↓reduceIte] at hruns
        simp only [Instr.wp, Thread.queryCount, hstream, ↓reduceIte]
        exact hfault _ hruns
    | storeOutput => cases houtput
    | input => exact absurd rfl hcomp
    | geometry => cases hentry
    | loadShared | storeShared | barrier | allocate | exportPrimitive | exportVertex => cases hplain
  | const | undef | unary | binary | select | convert | extract | loadVar => exact absurd rfl hcomp

/-- A stored output, as an outcome of the invocation. -/
theorem Instr.runs_storeOutput {slot : OutputSlot} {a : Value} {y : UInt64} (hy : inv.lane.read a = .ok y) :
    (Instr.intrinsic (.storeOutput slot a)).Runs source id value inv (.ok
      { inv with lane := { inv.lane with outputs := inv.lane.outputs.insert slot y } }) := by
  have hstored : inv.lane.execute source id value (.intrinsic (.storeOutput slot a)) =
      .ok { inv.lane with outputs := inv.lane.outputs.insert slot y } := by
    simp only [Lane.execute, hy]
    rfl
  exact runs_of_isLaneLocal rfl hstored

/-- An emitted vertex, as an outcome of the invocation. -/
theorem Instr.runs_emitVertex {number before : Value} {n b : UInt64}
    (hn : inv.lane.read number = .ok n) (hb : inv.lane.read before = .ok b) :
    (Instr.intrinsic (.geometry (.emitVertex stream number before))).Runs source id value inv (.ok
      ⟨{ inv.lane with outputs := inv.lane.outputs.filter (·.1.stream ≠ stream) },
        inv.events ++ [.vertex stream n b (inv.outputsOf stream)]⟩) := by
  have hruns : (Instr.intrinsic (.geometry (.emitVertex stream number before))).Runs source id value
      inv (inv.execute source id value (.intrinsic (.geometry (.emitVertex stream number before)))) :=
    .scalar rfl
  simp only [Invocation.execute, hn, hb] at hruns
  exact hruns

/-- Stated counts, as an outcome of the invocation. -/
theorem Instr.runs_setCounts {vertices primitives : Value} {n x : UInt64}
    (hn : inv.lane.read vertices = .ok n) (hx : inv.lane.read primitives = .ok x) :
    (Instr.intrinsic (.geometry (.setCounts stream vertices primitives))).Runs source id value inv
      (.ok { inv with events := inv.events ++ [.counts stream n x] }) := by
  have hruns : (Instr.intrinsic (.geometry (.setCounts stream vertices primitives))).Runs source id
      value inv (inv.execute source id value
        (.intrinsic (.geometry (.setCounts stream vertices primitives)))) := .scalar rfl
  simp only [Invocation.execute, hn, hx] at hruns
  exact hruns

theorem Instr.wp_of_runs (hc : c.group.Hosts source) (h : Tracks source.program start inv t)
    (hd : source.program.Supports visible value d) (hplain : d.instr.isPlain) (hentry : d.instr.isEntryPoint = false)
    (hfault : ∀ fault, d.instr.Runs source id value inv (.error fault) → c.faults) :
    d.instr.wp c id value (fun u => ∃ inv', d.instr.Runs source id value inv (.ok inv') ∧
      Tracks source.program start inv' u) t := by
  by_cases houtput : d.instr.isOutput
  · obtain ⟨instr, type⟩ := d
    cases instr with
    | intrinsic op =>
      cases op with
      | storeOutput slot a =>
        obtain ⟨y, hy, hy'⟩ :=
          h.exists_read (hd.operands a (by simp [Instr.operands, Intrinsic.operands])).2
        rw [Instr.wp_of_isLaneLocal rfl]
        simp only [Lane.execute, hy']
        exact ⟨_, runs_storeOutput hy, h.setOutput slot y⟩
      | _ => cases houtput
    | _ => cases houtput
  · refine Instr.wp_mono (h.toMirrors.wp_of_runs hc hd hplain hentry (by simpa using houtput) hfault) ?_
    rintro u ⟨inv', hruns, hfollows⟩
    exact ⟨inv', hruns, h.follow hfollows⟩

/-- An instruction that may stay in a lowered body. -/
def Instr.Stays (instr : Instr) : Prop := instr.isPlain = true ∧ instr.isEntryPoint = false

/-- A condition on endings, one part for each way a block can end. -/
def Ending.Meets (next left : Invocation → Prop) (faulted : Fault → Prop) : Ending → Prop
  | .next inv => next inv
  | .left inv => left inv
  | .faulted fault => faulted fault

/-- A condition of a program has been computed. -/
theorem Program.isSome_of_valueType? {p : Program} {v : Value} {type : ScalarType}
    (h : p.valueType? v = some type) : (p.definition? v).isSome := by
  unfold valueType? at h
  cases hd : p.definition? v with
  | none => simp [hd] at h
  | some d => rfl

namespace Block

variable {R : Ending → Prop} {rest : Block}

/-- What is asked of a side of a branch, so that the endings behind it are in `R`. -/
def Behind (source : Workgroup) (id : LaneId) (rest : Block) (R : Ending → Prop) : Ending → Prop :=
  Ending.Meets (fun inv => ∀ e, Block.Runs source id rest inv e → R e) (fun inv => R (.left inv))
    fun fault => R (.faulted fault)

theorem behind_of_branch {cond : Value} {thenBlock elseBlock : Block} {a : UInt64} (ha : inv.lane.read cond = .ok a)
    (hR : ∀ e, Block.Runs source id (.branch cond thenBlock elseBlock :: rest) inv e → R e) (e : Ending)
    (hr : Block.Runs source id (if a = 0 then elseBlock else thenBlock) inv e) : Behind source id rest R e := by
  cases e with
  | next inv' => exact fun e hr' => hR e (.branch ha hr hr')
  | left inv' => exact hR _ (.branch_left ha hr)
  | faulted fault => exact hR _ (.branch_faulted ha hr)

/-- What is asked of a round of a loop, so that the endings of the loop and of the code behind it are in `R`. -/
def Round (source : Workgroup) (id : LaneId) (body rest : Block) (R : Ending → Prop) : Ending → Prop :=
  Ending.Meets (fun inv => ∀ e, Block.Runs source id (.loop body :: rest) inv e → R e)
    (fun inv => ∀ e, Block.Runs source id rest inv e → R e) fun fault => R (.faulted fault)

theorem round_of_loop {body : Block} (hR : ∀ e, Block.Runs source id (.loop body :: rest) inv e → R e) (e : Ending)
    (hr : Block.Runs source id body inv e) : Round source id body rest R e := by
  cases e with
  | next inv' => exact fun e hr' => hR e (.again hr hr')
  | left inv' => exact fun e hr' => hR e (.loop_left hr hr')
  | faulted fault => exact hR _ (.loop_faulted hr)

end Block

/-- A thread that runs the body of its source goes through the states of an invocation. The endings of
the invocation are known to be in `R`. -/
theorem Block.wp_of_runs (hc : c.group.Hosts source) : ∀ (block : Block) {inLoop : Bool}
    {visible : Value → Prop} {inv : Invocation} {t : Thread} (R : Ending → Prop),
    Block.WellFormed source.program inLoop visible block →
    Block.All source.program Instr.Stays block → Tracks source.program start inv t →
    (∀ ending, Block.Runs source id block inv ending → R ending) → (∀ fault, R (.faulted fault) → c.faults) →
    Block.wp c id block (fun u => ∃ inv', R (.next inv') ∧ Tracks source.program start inv' u)
      (fun u => ∃ inv', R (.left inv') ∧ Tracks source.program start inv' u) t
  | [], _, _, inv, t, R, _, _, h, hR, _ => by
    rw [Block.wp_nil]
    exact ⟨inv, hR _ (.nil inv), h⟩
  | .instr value :: rest, _, _, inv, t, R, ⟨⟨d, hd⟩, hrest⟩, hall, h, hR, hfault => by
    have hi := Program.instr_of_definition? hd.definition
    obtain ⟨hplain, hentry⟩ := hall.instr hi
    rw [Block.wp_cons]
    unfold Node.wp
    rw [show c.program.instr value = _ from hc.within.instr_eq hi]
    refine Instr.wp_mono (Instr.wp_of_runs hc h hd hplain hentry fun fault hr =>
      hfault fault (hR _ (.instr_faulted hi hr))) ?_
    rintro u ⟨inv', hr, h'⟩
    exact wp_of_runs hc rest R hrest hall.head.2 h' (fun e hr' => hR e (.instr hi hr hr')) hfault
  | .branch cond thenBlock elseBlock :: rest, _, _, inv, t, R, ⟨⟨⟨_, hcond⟩, hthen, helse⟩, hrest⟩, hall, h, hR,
      hfault => by
    obtain ⟨a, ha, ha'⟩ := h.exists_read (Program.isSome_of_valueType? hcond)
    have hR' := behind_of_branch ha hR
    have hbehind : ∀ u, (∃ inv', Behind source id rest R (.next inv') ∧ Tracks source.program start inv' u) →
        Block.wp c id rest (fun u => ∃ inv', R (.next inv') ∧ Tracks source.program start inv' u)
          (fun u => ∃ inv', R (.left inv') ∧ Tracks source.program start inv' u) u := by
      rintro u ⟨inv', hnext, h'⟩
      exact wp_of_runs hc rest R hrest hall.head.2 h' hnext hfault
    rw [Block.wp_cons]
    unfold Node.wp
    rw [ha']
    simp only [Yields]
    by_cases hzero : a = 0
    · simp only [hzero, ↓reduceIte] at hR' ⊢
      exact Block.wp_mono elseBlock (wp_of_runs hc elseBlock _ helse
        (fun v hv => hall.head.1 v (by simp [Node.values, hv])) h hR' hfault) hbehind fun _ hu => hu
    · simp only [hzero, ↓reduceIte] at hR' ⊢
      exact Block.wp_mono thenBlock (wp_of_runs hc thenBlock _ hthen
        (fun v hv => hall.head.1 v (by simp [Node.values, hv])) h hR' hfault) hbehind fun _ hu => hu
  | .loop body :: rest, _, _, inv, t, R, ⟨hbody, hrest⟩, hall, h, hR, hfault => by
    rw [Block.wp_cons]
    unfold Node.wp
    -- Before every round, whatever the loop still does ends in `R`.
    refine ⟨fun u => ∃ inv', (∀ e, Block.Runs source id (.loop body :: rest) inv' e → R e) ∧
      Tracks source.program start inv' u, ⟨inv, hR, h⟩, ?_⟩
    rintro u ⟨inv', hR', h'⟩
    refine Block.wp_mono body (wp_of_runs hc body _ hbody
      (fun v hv => hall.head.1 v (by simp [Node.values, hv])) h' (round_of_loop hR') hfault) (fun _ hv => hv) ?_
    rintro v ⟨inv₁, hleft, h₁⟩
    exact wp_of_runs hc rest R hrest hall.head.2 h₁ hleft hfault
  | .leave :: rest, _, _, inv, t, R, _, _, h, hR, _ => by
    rw [Block.wp_cons]
    unfold Node.wp
    exact ⟨inv, hR _ (.leave inv), h⟩

end

end PrimitiveShader
