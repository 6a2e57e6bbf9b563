import PrimitiveShader.Proofs.Emission.Instruction
import PrimitiveShader.Proofs.Scalar.Run
import PrimitiveShader.Proofs.Validity.Sites

/-!
# Threads that mirror an invocation

A lowered program has the definitions and variables of its source in front of its own. A thread
mirrors an invocation of the source when it has the same contents there. Instructions of one lane
keep it that way (`Mirrors.execute`).
-/

namespace PrimitiveShader

/-- The program of a workgroup contains the one of `source`, and the launch is the same. -/
structure Workgroup.Hosts (group source : Workgroup) : Prop where
  within : source.program.Within group.program
  stage : group.program.stage = source.program.stage
  launch : group.launch = source.launch
  wave : group.wave = source.wave

/-- The thread has the registers and variables of the invocation. -/
structure Mirrors (program : Program) (inv : Invocation) (t : Thread) : Prop where
  sized : inv.lane.Sized program
  read : ∀ v : Value, v.index < program.definitions.size → t.lane.read v = inv.lane.read v
  readVar : ∀ x : Var, x.index < program.vars.size → t.lane.readVar x = inv.lane.readVar x

/-! ## Constants -/

/-- The registers of the visible constants hold the constants. -/
def Invocation.Settled (program : Program) (visible : List Value) (inv : Invocation) : Prop :=
  ∀ v ∈ visible, ∀ instr, program.instr v = .ok instr → ∀ k, instr.constant? = some k →
    inv.lane.read v = .ok k

variable {instr : Instr} {inv : Invocation} {id : LaneId} {visible : List Value} {program : Program} {t : Thread}
  {group other : Workgroup}

/-- What an instruction does to the registers. -/
theorem Instr.Runs.registers {value : Value} {inv' : Invocation} (h : instr.Runs group id value inv (.ok inv')) :
    (instr.constant? = none ∧ inv'.lane.registers = inv.lane.registers) ∨ ∃ a, (∀ k, instr.constant? = some k → k = a) ∧
        inv'.lane.registers = inv.lane.registers.setIfInBounds value.index a := by
  generalize hr : (Except.ok inv' : Except Fault Invocation) = result at h
  cases h with
  | crossLane op a =>
    cases hr
    exact .inr ⟨a, nofun, rfl⟩
  | scalar hscalar =>
    cases instr with
    | const type k =>
      cases hr
      exact .inr ⟨k, fun _ hk => (Option.some.inj hk).symm, rfl⟩
    | storeVar x a =>
      obtain ⟨lane, hlane, heq⟩ := except_bind_eq_ok.mp hr.symm
      cases heq
      obtain ⟨y, -, hwrite⟩ := except_bind_eq_ok.mp hlane
      unfold Lane.writeVar at hwrite
      split at hwrite
      · cases hwrite
        exact .inl ⟨rfl, rfl⟩
      · cases hwrite
    | undef | unary | binary | select | convert | extract | loadVar =>
      obtain ⟨lane, hlane, heq⟩ := except_bind_eq_ok.mp hr.symm
      cases heq
      obtain ⟨a, -, hwrite⟩ := except_bind_eq_ok.mp hlane
      cases hwrite
      exact .inr ⟨a, nofun, rfl⟩
    | intrinsic op =>
      cases op with
      | input =>
        obtain ⟨lane, hlane, heq⟩ := except_bind_eq_ok.mp hr.symm
        cases heq
        obtain ⟨a, -, hwrite⟩ := except_bind_eq_ok.mp hlane
        cases hwrite
        exact .inr ⟨a, nofun, rfl⟩
      | storeOutput =>
        obtain ⟨lane, hlane, heq⟩ := except_bind_eq_ok.mp hr.symm
        cases heq
        obtain ⟨a, -, hwrite⟩ := except_bind_eq_ok.mp hlane
        cases hwrite
        exact .inl ⟨rfl, rfl⟩
      | queryAdd stream count =>
        have hr' := hr.symm
        by_cases hstream : stream.toNat < 4
        · simp only [Invocation.execute, hstream, ↓reduceIte] at hr'
          obtain ⟨a, -, heq⟩ := except_bind_eq_ok.mp hr'
          cases heq
          exact .inl ⟨rfl, rfl⟩
        · simp only [Invocation.execute, hstream, ↓reduceIte] at hr'
          cases hr'
      | geometry op =>
        cases op with
        | endPrimitive =>
          cases hr
          exact .inl ⟨rfl, rfl⟩
        | emitVertex | setCounts =>
          obtain ⟨a, -, hr⟩ := except_bind_eq_ok.mp hr.symm
          obtain ⟨b, -, hr⟩ := except_bind_eq_ok.mp hr
          cases hr
          exact .inl ⟨rfl, rfl⟩
      | crossLane | loadShared | storeShared | barrier | allocate | exportPrimitive | exportVertex =>
        cases hscalar

/-- An instruction leaves the constants as they are, and adds its own. -/
theorem Invocation.Settled.step {group : Workgroup} {id : LaneId} {value : Value}
    {inv inv' : Invocation} {instr : Instr} {visible : List Value}
    (h : inv.Settled group.program visible) (hi : group.program.instr value = .ok instr)
    (hlt : value.index < inv.lane.registers.size) (hruns : instr.Runs group id value inv (.ok inv')) :
    inv'.Settled group.program (value :: visible) := by
  intro v hv i hvi k hk
  rcases hruns.registers with ⟨hnone, hsame⟩ | ⟨a, ha, hset⟩
  · rcases List.mem_cons.mp hv with rfl | hv
    · rw [hi] at hvi
      cases hvi
      rw [hnone] at hk
      cases hk
    · have hread := h v hv i hvi k hk
      rwa [Lane.read, ← hsame, ← Lane.read] at hread
  · by_cases heq : value.index = v.index
    · obtain rfl : value = v := by
        cases value
        cases v
        cases heq
        rfl
      rw [hi] at hvi
      cases hvi
      simp [Lane.read, hset, hlt, ha k hk]
    · rcases List.mem_cons.mp hv with rfl | hv
      · exact absurd rfl heq
      · have hread := h v hv i hvi k hk
        unfold Lane.read at hread ⊢
        simpa [hset, heq] using hread

theorem Invocation.Settled.mono {visible' : List Value}
    (h : inv.Settled program visible) (hsub : ∀ v ∈ visible', v ∈ visible) : inv.Settled program visible' :=
  fun v hv => h v (hsub v hv)

/-- A thread that mirrors the invocation knows what is visible. -/
theorem Mirrors.knows {p : Program}
    (h : Mirrors program inv t) (hw : program.Within p) (hsettled : inv.Settled program visible)
    {v : Value} (hv : v ∈ visible) {type : ScalarType} (ht : program.typeOf v = .ok type) :
    ∃ a, inv.lane.read v = .ok a ∧ Knows p t v type a := by
  have hlt := Program.lt_of_typeOf ht
  obtain ⟨a, ha⟩ := h.sized.read hlt
  refine ⟨a, ha, hw.typeOf_eq ht, (h.read v hlt).trans ha, fun instr hi k hk => ?_⟩
  obtain ⟨i, hsource⟩ := Program.exists_instr_of_typeOf ht
  rw [hw.instr_eq hsource] at hi
  cases hi
  have hread := hsettled v hv _ hsource k hk
  rw [ha] at hread
  exact (Except.ok.inj hread).symm

/-- Nothing has happened to the thread beyond the registers, the variables and the outputs of
`program`. -/
structure Thread.Bystander (program : Program) (t t' : Thread) : Prop where
  vars : ∀ x : Var, program.vars.size ≤ x.index → t'.lane.readVar x = t.lane.readVar x
  view : t'.view = t.view
  primitives : t'.primitives = t.primitives
  vertices : t'.vertices = t.vertices
  space : t'.space = t.space

namespace Thread.Bystander

variable {t' t'' : Thread}

theorem refl (t : Thread) : t.Bystander program t := ⟨fun _ _ => rfl, rfl, rfl, rfl, rfl⟩

theorem trans (h : t.Bystander program t') (h' : t'.Bystander program t'') : t.Bystander program t'' where
  vars x hx := (h'.vars x hx).trans (h.vars x hx)
  view := h'.view.trans h.view
  primitives := h'.primitives.trans h.primitives
  vertices := h'.vertices.trans h.vertices
  space := h'.space.trans h.space

end Thread.Bystander

theorem Thread.Quiet.bystander {t' : Thread} (h : t.Quiet t') : t.Bystander program t' :=
  ⟨fun x _ => by rw [Lane.readVar, h.vars, ← Lane.readVar], h.view, h.primitives, h.vertices, h.space⟩

theorem LaneInput.eval_congr (hlaunch : other.launch = group.launch)
    (hwave : other.wave = group.wave) (hstage : other.program.stage = group.program.stage)
    (id : LaneId) (input : LaneInput) : input.eval other id = input.eval group id := by
  have hnum : other.numWaves = group.numWaves := by
    unfold Workgroup.numWaves
    rw [hlaunch, hwave]
  cases input <;> simp only [LaneInput.eval, hlaunch, hnum, hstage]

/-- An instruction computes the same where it finds the same. -/
theorem Lane.compute_congr {lane lane' : Lane} (hread : ∀ o ∈ instr.operands, lane'.read o = lane.read o)
    (hvar : ∀ x, instr = .loadVar x → lane'.readVar x = lane.readVar x)
    (htype : ∀ o ∈ instr.operands, other.program.typeOf o = group.program.typeOf o)
    (hinput : ∀ input : LaneInput, input.eval other id = input.eval group id) :
    lane'.compute other id instr = lane.compute group id instr := by
  cases instr with
  | const | undef => rfl
  | unary op a =>
    simp only [Lane.compute, hread a (by simp [Instr.operands])]
  | binary op a b =>
    simp only [Lane.compute, hread a (by simp [Instr.operands]), hread b (by simp [Instr.operands]),
      htype a (by simp [Instr.operands])]
  | select cond a b =>
    simp only [Lane.compute, hread a (by simp [Instr.operands]), hread b (by simp [Instr.operands]),
      hread cond (by simp [Instr.operands])]
  | convert a type => simp only [Lane.compute, hread a (by simp [Instr.operands])]
  | extract a offset bits => simp only [Lane.compute, hread a (by simp [Instr.operands])]
  | loadVar x => exact hvar x rfl
  | storeVar => rfl
  | intrinsic op =>
    cases op with
    | input input => exact hinput input
    | _ => rfl

namespace Mirrors

variable {value : Value}

section

variable (h : Mirrors program inv t)
include h

/-- What is defined in the source can be read. -/
theorem exists_read {v : Value} (hv : (program.definition? v).isSome) :
    ∃ a, inv.lane.read v = .ok a ∧ t.lane.read v = .ok a := by
  obtain ⟨d, hd⟩ := Option.isSome_iff_exists.mp hv
  have hlt := Program.lt_of_definition? hd
  obtain ⟨a, ha⟩ := h.sized.read hlt
  exact ⟨a, ha, (h.read v hlt).trans ha⟩

theorem write (hv : value.index < program.definitions.size) (a : UInt64) :
    Mirrors program (inv.write value a) (t.write value a) where
  sized := h.sized.write value a
  read v hlt := by
    obtain ⟨x, hx⟩ := h.sized.read hv
    have hx' := (h.read value hv).trans hx
    have hinv : value.index < inv.lane.registers.size := h.sized.registers ▸ hv
    have ht : value.index < t.lane.registers.size := by
      unfold Lane.read at hx'
      rcases Nat.lt_or_ge value.index t.lane.registers.size with hlt | hge
      · exact hlt
      · simp [Array.getElem?_eq_none hge] at hx'
    have hother := h.read v hlt
    unfold Lane.read at hother
    by_cases heq : value.index = v.index
    · simp [Invocation.write, Thread.write, Thread.withLane, Lane.read, Lane.write, ← heq, hinv, ht]
    · simpa [Invocation.write, Thread.write, Thread.withLane, Lane.read, Lane.write, heq] using hother
  readVar := h.readVar

/-- A variable of the source has its place on both sides. -/
theorem lt_vars {x : Var} (hx : x.index < program.vars.size) :
    x.index < inv.lane.vars.size ∧ x.index < t.lane.vars.size := by
  have hinv : x.index < inv.lane.vars.size := h.sized.vars ▸ hx
  have hx' := h.readVar x hx
  refine ⟨hinv, ?_⟩
  unfold Lane.readVar at hx'
  rcases Nat.lt_or_ge x.index t.lane.vars.size with hlt | hge
  · exact hlt
  · simp [Array.getElem?_eq_none hge, hinv] at hx'

theorem setVar {x : Var} (hx : x.index < program.vars.size) (a : UInt64) : Mirrors program
      { inv with lane := { inv.lane with vars := inv.lane.vars.setIfInBounds x.index a } } (t.setVar x a) where
  sized := ⟨h.sized.registers, by simpa using h.sized.vars⟩
  read := h.read
  readVar y hy := by
    obtain ⟨hinv, ht⟩ := h.lt_vars hx
    have hother := h.readVar y hy
    unfold Lane.readVar at hother
    by_cases heq : x.index = y.index
    · simp [Thread.setVar, Lane.readVar, ← heq, hinv, ht]
    · simpa [Thread.setVar, Lane.readVar, heq] using hother

end

variable {c : Setting} {source : Workgroup} {d : Definition} {seen : Value → Prop}

/-- The instruction computes the same value on both sides. -/
theorem compute_eq (hc : c.group.Hosts source) (h : Mirrors source.program inv t)
    (hd : source.program.Supports seen value d) :
    t.lane.compute c.group id d.instr = inv.lane.compute source id d.instr := by
  refine Lane.compute_congr (fun o ho => ?_) (fun x hx => ?_) (fun o ho => ?_)
    (LaneInput.eval_congr hc.launch hc.wave hc.stage id)
  · obtain ⟨a, ha, ha'⟩ := h.exists_read (hd.operands o ho).2
    rw [ha, ha']
  · refine h.readVar x (Program.lt_of_varType? (?_ : _ = some d.type))
    have := hd.type
    rw [hx] at this
    exact this
  · obtain ⟨e, he⟩ := Option.isSome_iff_exists.mp (hd.operands o ho).2
    have htype : source.program.typeOf o = .ok e.type := by
      simp [Program.typeOf, Program.definition, he, Except.map]
    rw [htype]
    exact hc.within.typeOf_eq htype

/-- An instruction that computes a value. -/
theorem execute_computed (hc : c.group.Hosts source) (h : Mirrors source.program inv t)
    (hd : source.program.Supports seen value d) (hcomp : d.instr.isComputed)
    (hfault : ∀ fault, inv.lane.execute source id value d.instr = .error fault → c.faults) :
    Yields c.faults (fun lane' => ∃ a, inv.lane.execute source id value d.instr =
        .ok (inv.lane.write value a) ∧ lane' = t.lane.write value a) (t.lane.execute c.group id value d.instr) := by
  rw [Lane.execute_of_isComputed hcomp] at hfault ⊢
  rw [Lane.execute_of_isComputed hcomp, h.compute_eq hc hd]
  cases hr : inv.lane.compute source id d.instr with
  | error fault => exact hfault fault (by rw [hr]; rfl)
  | ok a => exact ⟨a, rfl, rfl⟩

end Mirrors

end PrimitiveShader
