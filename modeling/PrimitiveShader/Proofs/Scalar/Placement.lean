import PrimitiveShader.Proofs.Lowering.Space
import PrimitiveShader.Proofs.Scalar.Body

/-!
# The body of the source within a lowered program

A thread is fresh as long as it has not touched what belongs to the source. Once a fresh thread has run
the body of the source, it has the outputs of an invocation of the source (`Emit.wp_placeBody`).
-/

namespace PrimitiveShader

variable {program : Program}

/-- How lane `i` ends when it runs the program on its own. -/
def Workgroup.Invokes (source : Workgroup) (i : Nat) (ending : Ending) : Prop :=
  Block.Runs source (source.laneId i) source.program.body (.start source.program) ending

/-- A block that is not part of a loop does not leave one. -/
theorem Block.Runs.ne_left {group : Workgroup} {id : LaneId} {block : Block} {inv : Invocation}
    {ending : Ending} (h : Block.Runs group id block inv ending) : ∀ {visible : Value → Prop},
      Block.WellFormed group.program false visible block → ∀ inv', ending ≠ .left inv' := by
  induction h with
  | nil | instr_faulted | branch_faulted | loop_faulted =>
    rintro _ - inv' h
    cases h
  | instr _ _ _ ih => exact fun hformed => ih hformed.2
  | branch _ _ _ _ ih => exact fun hformed => ih hformed.2
  | @branch_left _ _ _ _ _ _ a _ _ ih =>
    rintro _ ⟨⟨-, hthen, helse⟩, -⟩ inv' _
    by_cases ha : a = 0
    · simp only [ha, ↓reduceIte] at ih
      exact ih helse _ rfl
    · simp only [ha, ↓reduceIte] at ih
      exact ih hthen _ rfl
  | again _ _ _ ih => exact ih
  | loop_left _ _ _ ih => exact fun hformed => ih hformed.2
  | leave inv =>
    rintro _ ⟨hnode, -⟩
    cases hnode

/-- The thread has not touched what belongs to the program. -/
structure Fresh (program : Program) (t : Thread) : Prop where
  mirrors : Mirrors program (.start program) t
  outputs : t.lane.outputs = (Lane.start program).outputs

namespace Fresh

variable {p p' : Program} {t t' : Thread}

theorem tracks (h : Fresh program t) : Tracks program t (.start program) t where
  toMirrors := h.mirrors
  toBystander := .refl t
  outputs := h.outputs

/-- A thread before its first instruction. -/
theorem start (h : program.Within p) (view : Nat → UInt8) : Fresh program (Thread.start p view) where
  mirrors :=
    { sized := .start program
      read v hv := by
        have hv' := Nat.lt_of_lt_of_le hv h.size_le
        simp [Thread.start, Invocation.start, Lane.start, Lane.read, hv, hv']
      readVar x hx := by
        have hx' := Nat.lt_of_lt_of_le hx h.vars_size_le
        simp [Thread.start, Invocation.start, Lane.start, Lane.readVar, hx, hx'] }
  outputs := rfl

/-- A thread that has touched other registers and variables only. -/
theorem later (h : Fresh program t) (hw : program.Within p) (hl : Later p t p' t')
    (hvars : ∀ x : Var, x.index < program.vars.size → t'.lane.readVar x = t.lane.readVar x)
    (houtputs : t'.lane.outputs = t.lane.outputs) : Fresh program t' where
  mirrors :=
    { sized := h.mirrors.sized
      read v hv := (hl.read v (Nat.lt_of_lt_of_le hv hw.size_le)).trans (h.mirrors.read v hv)
      readVar x hx := (hvars x hx).trans (h.mirrors.readVar x hx) }
  outputs := houtputs.trans h.outputs

theorem computed (h : Fresh program t) (hw : program.Within p) (hc : Computed p t p' t') : Fresh program t' :=
  h.later hw hc.toLater (fun x _ => by rw [Lane.readVar, hc.vars, ← Lane.readVar]) hc.outputs

theorem see (h : Fresh program t) (view : Nat → UInt8) : Fresh program (t.see view) :=
  ⟨⟨h.mirrors.sized, h.mirrors.read, h.mirrors.readVar⟩, h.outputs⟩

end Fresh

/-- A fresh thread that has exported nothing. -/
structure Idle (program : Program) (t : Thread) : Prop extends Fresh program t where
  primitives : t.primitives = []
  vertices : t.vertices = []

namespace Idle

variable {p p' : Program} {t t' : Thread}

theorem start (h : program.Within p) (view : Nat → UInt8) : Idle program (Thread.start p view) :=
  ⟨.start h view, rfl, rfl⟩

theorem computed (h : Idle program t) (hw : program.Within p) (hc : Computed p t p' t') : Idle program t' :=
  ⟨h.toFresh.computed hw hc, hc.primitives.trans h.primitives, hc.vertices.trans h.vertices⟩

theorem asked (h : Idle program t) (i : Nat) (space : Allocation) : Idle program (t.asked i space) := by
  by_cases hi : i = 0
  · subst hi
    exact ⟨⟨⟨h.mirrors.sized, h.mirrors.read, h.mirrors.readVar⟩, h.outputs⟩, h.primitives, h.vertices⟩
  · rwa [Thread.asked_of_ne _ hi]

end Idle

/-- The body of a valid program whose instructions may stay can be run. -/
theorem Block.steady_of_stays (hvalid : program.validate = .ok ())
    (hstays : Block.All program Instr.Stays program.body) (barriers : Bool) :
    Block.Steady program barriers program.body := by
  intro v hv
  obtain ⟨instr, hi⟩ := Program.exists_instr_of_validate hvalid hv
  obtain ⟨hplain, hentry⟩ := hstays v hv _ hi
  refine ⟨instr, hi, fun _ hbar => ?_, hentry⟩
  rw [hbar] at hplain
  cases hplain

theorem Emit.Steady.placeBody (hvalid : program.validate = .ok ())
    (hstays : Block.All program Instr.Stays program.body) (barriers : Bool) :
    Emit.Steady program barriers (Emit.place program.body) :=
  .place fun _ hw => (Block.steady_of_stays hvalid hstays barriers).within hw

/-- A fresh thread that runs the body of its source ends like an invocation of it. -/
theorem Emit.wp_placeBody {source : Workgroup} {c : Setting} {i : Nat} {p : Program} {t : Thread} {L : Thread → Prop}
    {Q : Unit → Program → Thread → Prop} (hc : c.group.Hosts source) (hvalid : source.program.validate = .ok ())
    (hstays : Block.All source.program Instr.Stays source.program.body)
    (hfault : ∀ fault, source.Invokes i (.faulted fault) → c.faults) (hfresh : Fresh source.program t)
    (hQ : ∀ p' t' inv, p.Within p' → source.Invokes i (.next inv) → Tracks source.program t inv t' → Q () p' t') :
    Emit.wp c (c.group.laneId i) (Emit.place source.program.body) p Q L t := by
  obtain ⟨hformed, -⟩ := Program.validate_eq_ok_iff.mp hvalid
  have hid : c.group.laneId i = source.laneId i := by
    unfold Workgroup.laneId
    rw [hc.wave]
  refine Emit.wp_place fun _ _ p' hw => ?_
  rw [hid]
  refine Block.wp_mono _ (Block.wp_of_runs hc _ (source.Invokes i) hformed hstays hfresh.tracks
    (fun _ h => h) hfault) ?_ ?_
  · rintro u ⟨inv, hruns, htracks⟩
    exact hQ p' u inv hw hruns htracks
  · rintro u ⟨inv, hruns, -⟩
    exact absurd rfl (hruns.ne_left hformed inv)

end PrimitiveShader
