import PrimitiveShader.Proofs.Emission.Control
import PrimitiveShader.Proofs.Emission.Instruction
import PrimitiveShader.Proofs.Thread.Run

/-!
# Emitted code, as a workgroup runs it

`Emit.Brings` is the precondition of emitted code that all lanes of a wave run together, and
`Emit.Plays` says that all waves can run it from barrier to barrier. Code that each thread runs on its
own is handed down to `Emit.wp`, so that only cross-lane operations, branches around them and barriers
are left to these rules.
-/

namespace PrimitiveShader

variable {c : Setting}

/-- The workgroup's share of the memory can be addressed, and memory can tell its waves apart. -/
structure Workgroup.Fits (group : Workgroup) : Prop where
  share : group.program.sharedSize < 2 ^ 64
  waves : group.numWaves ≤ SharedMemory.maxReaders

theorem Workgroup.Fits.setting {id : Nat} (h : c.group.Fits) (hid : id < c.group.numWaves) : c.Fits id :=
  ⟨h.share, Nat.lt_of_lt_of_le hid h.waves⟩

/-- The number of lane `i` of the workgroup. -/
def Workgroup.laneId (group : Workgroup) (i : Nat) : LaneId :=
  ⟨i / group.wave.size, i % group.wave.size, i⟩

theorem Workgroup.laneId_index {id l : Nat} (h : l < c.group.wave.size) :
    Wave.laneId c.group id l = c.group.laneId (c.index id l) := by
  unfold laneId
  rw [Setting.index_div h, Setting.index_mod h]
  rfl

namespace Emit

/-- The precondition of emitted code that all lanes of a wave run together. -/
def Brings {α : Type} (c : Setting) (id : Nat) (e : Emit α) (p : Program)
    (Q : α → Program → (Nat → Thread) → Prop) (T : Nat → Thread) : Prop :=
  ∀ a p', e p = .ok (a, p') → p'.Within c.program →
    Block.Brings c id (p'.body.drop p.body.length) (Q a p') T

namespace Brings

variable {α β : Type} {id : Nat} {p : Program} {T : Nat → Thread} {Q : α → Program → (Nat → Thread) → Prop}

theorem mono {Q' : α → Program → (Nat → Thread) → Prop} {e : Emit α} (h : Brings c id e p Q T)
    (hQ : ∀ a p' T', Q a p' T' → Q' a p' T') : Brings c id e p Q' T :=
  fun a p' hp hw => (h a p' hp hw).mono (hQ a p')

theorem pure {a : α} (h : Q a p T) : Brings c id (Pure.pure a) p Q T := by
  intro b p' hp hw
  obtain ⟨rfl, rfl⟩ := pure_eq_ok_iff.mp hp
  rw [List.drop_length]
  exact .nil h

theorem bind {e : Emit α} {k : α → Emit β}
    {R : β → Program → (Nat → Thread) → Prop} (h : Brings c id e p (fun a p' => Brings c id (k a) p' R) T) :
    Brings c id (e >>= k) p R T := by
  intro b p'' hp hw
  obtain ⟨a, p', ha, hb⟩ := bind_eq_ok_iff.mp hp
  have hgrows' := (k a).grows hb
  rw [drop_body_eq (e.grows ha) hgrows']
  exact .append ((h a p' ha (hgrows'.toWithin.trans hw)).mono fun T' hT' => hT' b p'' hb hw)

/-- Code that each thread runs on its own. -/
theorem each (hg : c.group.Fits) (hid : id < c.group.numWaves) {e : Emit α} {B : Nat → α → Program → Thread → Prop}
    (h : ∀ l ∈ (c.launched id).lanes, Emit.wp c (c.group.laneId (c.index id l)) e p (B l) (fun _ => c.faults) (T l))
    (hQ : ∀ a p' T', (∀ l ∈ (c.launched id).lanes, B l a p' (T' l)) → Q a p' T') : Brings c id e p Q T := by
  intro a p' hp hw
  refine Block.Brings.of_sized fun hsized => ?_
  refine .of_wp (hg.setting hid) (Workgroup.launched_ne_empty c hid) (B := fun l => B l a p') (fun l hl => ?_) (hQ a p')
  have hlt := (Setting.mem_launched.mp hl).1
  rw [Workgroup.laneId_index hlt]
  exact h l hl (hsized l hlt) a p' hp hw

/-- An operation across all lanes of the wave. -/
theorem crossLane (hid : id < c.group.numWaves) {op : CrossLaneOp} {τ : ScalarType}
    {Q : Value → Program → (Nat → Thread) → Prop} (hop : ∀ v ∈ op.operands, v.index < p.definitions.size)
    (ht : p.resultType? (.intrinsic (.crossLane op)) = some τ)
    (hQ : ∀ v p' T', (∀ l ∈ (c.launched id).lanes, ∃ a, op.Gives (c.launched id) T l a ∧
      Computed p (T l) p' (T' l) ∧ Knows p' (T' l) v τ a) → Q v p' T') : Brings c id (Emit.crossLane op) p Q T := by
  intro v p' hp hw
  obtain ⟨rfl, hgains, hbody⟩ := push_eq_ok hp
  rw [hbody, List.drop_left]
  refine Block.Brings.of_sized fun hsized => ?_
  refine .crossLane (Workgroup.launched_ne_empty c hid) (hw.instr_eq hgains.instr) (fun v hv => ?_)
    fun T' hT' => hQ _ p' T' fun l hl => ?_
  · exact Nat.lt_of_lt_of_le (hop v hv) (hgains.toWithin.trans hw).size_le
  · obtain ⟨a, hgives, heq⟩ := hT' l hl
    rw [heq]
    exact ⟨a, hgives, computed_write hgains.toWithin a,
      knows_write hgains hw (hsized l (Setting.mem_launched.mp hl).1) ht nofun⟩

section

variable {Q : Unit → Program → (Nat → Thread) → Prop} {cond : Value} {e : Emit Unit}

theorem ifThen_taken (hid : id < c.group.numWaves)
    (hcond : ∀ l ∈ (c.launched id).lanes, ∃ τ a, Knows p (T l) cond τ a ∧ a ≠ 0) (h : ∀ p₀, p.Within p₀ →
      Brings c id e p₀ (fun _ p₁ T₁ => ∀ p₂, p₁.Within p₂ → Q () p₂ T₁) T) : Brings c id (ifThen cond e) p Q T := by
  intro u p' hp hw
  obtain ⟨inner, hinner, rfl⟩ := ifThen_eq_ok hp
  rw [List.drop_left]
  have hblock := h { p with body := [] } .same () inner hinner ⟨hw.definitions, hw.vars⟩
  rw [List.length_nil, List.drop_zero] at hblock
  refine .branch_taken (Workgroup.launched_ne_empty c hid) (fun l hl => ?_)
    (hblock.mono fun T' hT' => hT' _ .same)
  obtain ⟨τ, a, hknows, hne⟩ := hcond l hl
  exact ⟨a, hknows.read, hne⟩

theorem ifThen_passed (hid : id < c.group.numWaves)
    (hcond : ∀ l ∈ (c.launched id).lanes, ∃ τ, Knows p (T l) cond τ 0) (h : ∀ p₁, p.Within p₁ → Q () p₁ T) :
    Brings c id (ifThen cond e) p Q T := by
  intro u p' hp hw
  have hgrows := (ifThen cond e).grows hp
  obtain ⟨inner, hinner, rfl⟩ := ifThen_eq_ok hp
  rw [List.drop_left]
  refine .branch_passed (Workgroup.launched_ne_empty c hid) (fun l hl => ?_) (h _ hgrows.toWithin)
  obtain ⟨τ, hknows⟩ := hcond l hl
  exact hknows.read

end

end Brings

end Emit

/-! ## From barrier to barrier -/

namespace Workgroup.Plays

variable {group : Workgroup} {faults : Prop} {goal : (Nat → Thread) → Prop} {own : Ownership}
  {pre mid : Promise} {block rest : Block}

theorem prepend (h : ∀ id < group.numWaves, ∀ T, Setting.Keeps ⟨group, own, faults⟩ id pre T →
      Block.Brings ⟨group, own, faults⟩ id block (Setting.Keeps ⟨group, own, faults⟩ id mid) T)
    (hbar : block.NoBarrier group.program) (hrest : group.Plays faults goal own mid rest) :
    group.Plays faults goal own pre (block ++ rest) := by
  have hboth : ∀ other : Block, other.NoBarrier group.program → (block ++ other).NoBarrier group.program := by
    intro other hother v hv
    rw [Block.values_append, List.mem_append] at hv
    exact hv.elim (hbar v) (hother v)
  cases hrest with
  | last hlast hbar' hgoal =>
    exact .last (fun id hid T hT => .append ((h id hid T hT).mono fun T' hT' => hlast id hid T' hT'))
      (hboth _ hbar') hgoal
  | barrier own' hfirst hbar' hinstr hrest =>
    rw [← List.append_assoc]
    exact .barrier own' (fun id hid T hT => .append ((h id hid T hT).mono fun T' hT' => hfirst id hid T' hT'))
      (hboth _ hbar') hinstr hrest

end Workgroup.Plays

namespace Emit

theorem barrier_bind_eq_ok {β : Type} {k : Emit β} {p p'' : Program} {b : β}
    (h : (effect .barrier >>= fun _ => k) p = .ok (b, p'')) :
    ∃ (bar : Value) (p' : Program), p.Grows p' ∧ p'.Grows p'' ∧ k p' = .ok (b, p'') ∧
      p'.instr bar = .ok (.intrinsic .barrier) ∧
      p''.body.drop p.body.length = .instr bar :: p''.body.drop p'.body.length := by
  obtain ⟨⟨⟩, p', ha, hb⟩ := bind_eq_ok_iff.mp h
  have hgrows := (effect .barrier).grows ha
  have hgrows' := k.grows hb
  obtain ⟨v, p₁, hpush, hpure⟩ := bind_eq_ok_iff.mp ha
  obtain ⟨-, rfl⟩ := pure_eq_ok_iff.mp hpure
  obtain ⟨rfl, hgains, hbody⟩ := push_eq_ok hpush
  refine ⟨_, p₁, hgrows, hgrows', hb, hgains.instr, ?_⟩
  rw [drop_body_eq hgrows hgrows', hbody, List.drop_left]
  rfl

/-- The waves can run emitted code from barrier to barrier, and in the end the threads have reached the
goal. -/
def Plays {α : Type} (group : Workgroup) (faults : Prop) (goal : (Nat → Thread) → Prop)
    (own : Ownership) (pre : Promise) (e : Emit α) (p : Program) : Prop :=
  ∀ a p', e p = .ok (a, p') → p'.Within group.program →
    group.Plays faults goal own pre (p'.body.drop p.body.length)

namespace Plays

variable {α β : Type} {group : Workgroup} {faults : Prop} {goal : (Nat → Thread) → Prop}
  {own : Ownership} {pre : Promise} {source p : Program} {e : Emit α} {k : α → Emit β}

theorem noBarrier [he : Steady source false e] (hsource : source.Within p) {a : α} {p' P : Program}
    (hp : e p = .ok (a, p')) (hw : p'.Within P) : Block.NoBarrier P (p'.body.drop p.body.length) := by
  intro v hv hbar
  obtain ⟨instr, hinstr, hrun⟩ := he.steady hsource hp v hv
  rw [hw.instr_eq hinstr] at hbar
  cases hbar
  exact hrun.barrier rfl rfl

theorem pure {a : α} (h : ∀ T : Nat → Thread, (∀ i < group.launch.numLanes, pre i (T i)) → goal T) :
    Plays group faults goal own pre (Pure.pure a : Emit α) p := by
  intro b p' hp _
  obtain ⟨rfl, rfl⟩ := pure_eq_ok_iff.mp hp
  rw [List.drop_length]
  refine .last (fun id _ T hT => .nil hT) (fun v hv => ?_) h
  simp [Block.values] at hv

theorem bind (hsource : source.Within p) [he : Steady source false e]
    {M : α → Program → Promise} (h : ∀ id < group.numWaves, ∀ T, Setting.Keeps ⟨group, own, faults⟩ id pre T →
      Brings ⟨group, own, faults⟩ id e p (fun a p' => Setting.Keeps ⟨group, own, faults⟩ id (M a p')) T)
    (hrest : ∀ a p', e p = .ok (a, p') → source.Within p' → Plays group faults goal own (M a p') (k a) p') :
    Plays group faults goal own pre (e >>= k) p := by
  intro b p'' hp hw
  obtain ⟨a, p', ha, hb⟩ := bind_eq_ok_iff.mp hp
  have hgrows := e.grows ha
  have hgrows' := (k a).grows hb
  have hw' := hgrows'.toWithin.trans hw
  rw [drop_body_eq hgrows hgrows']
  exact .prepend (fun id hid T hT => h id hid T hT a p' ha hw') (noBarrier hsource ha hw')
    (hrest a p' ha (hsource.trans hgrows.toWithin) b p'' hb hw)

/-- Code that each thread runs on its own. -/
theorem each (hsource : source.Within p) [Steady source false e] (hg : group.Fits)
    {M : α → Program → Promise} (h : ∀ i < group.launch.numLanes, ∀ t, pre i t →
      Emit.wp ⟨group, own, faults⟩ (group.laneId i) e p (fun a p' => M a p' i) (fun _ => faults) t)
    (hrest : ∀ a p', e p = .ok (a, p') → source.Within p' → Plays group faults goal own (M a p') (k a) p') :
    Plays group faults goal own pre (e >>= k) p := by
  refine bind hsource (fun id hid T hT => ?_) hrest
  exact .each hg hid (B := fun l a p' => M a p' (Setting.index ⟨group, own, faults⟩ id l))
    (fun l hl => h _ (Setting.mem_launched.mp hl).2 _ (hT l hl)) fun a p' T' hT' => hT'

theorem finish (hsource : source.Within p) [Steady source false e] (hg : group.Fits) {post : Promise}
    (h : ∀ i < group.launch.numLanes, ∀ t, pre i t →
      Emit.wp ⟨group, own, faults⟩ (group.laneId i) e p (fun _ _ => post i) (fun _ => faults) t)
    (hgoal : ∀ T : Nat → Thread, (∀ i < group.launch.numLanes, post i (T i)) → goal T) :
    Plays group faults goal own pre e p := by
  rw [← bind_pure e]
  exact each (k := Pure.pure) hsource hg h fun a p' _ _ => pure hgoal

/-- A barrier, where the bytes get new owners. -/
theorem barrier {k : Emit β} (own' : (Nat → Thread) → (Nat → UInt8) → Ownership)
    (hrest : ∀ (T : Nat → Thread) (view : Nat → UInt8) (p' : Program), p.Within p' →
      (∀ i < group.launch.numLanes, pre i (T i)) →
      (∀ i < group.launch.numLanes, ∀ a, own a = none ∨ own a = some i → (T i).view a = view a) →
      Plays group faults goal (own' T view) (fun i u => u = (T i).see view) k p') :
    Plays group faults goal own pre (effect .barrier >>= fun _ => k) p := by
  intro b p'' hp hw
  obtain ⟨bar, p', hgrows, hgrows', hb, hinstr, hbody⟩ := barrier_bind_eq_ok hp
  rw [hbody]
  change group.Plays faults goal own pre ([] ++ .instr _ :: _)
  refine .barrier own' (fun id _ T hT => .nil hT) (fun v hv => ?_)
    ((hgrows'.toWithin.trans hw).instr_eq hinstr) fun T view hT hview => ?_
  · simp [Block.values] at hv
  · exact hrest T view p' hgrows.toWithin hT hview b p'' hb hw

end Plays

/-- The action emits `n` barriers, on programs with everything that `source` has. -/
def Meets {α : Type} (source : Program) (n : Nat) (e : Emit α) : Prop :=
  ∀ p a p' P, source.Within p → e p = .ok (a, p') → p'.Within P →
    Block.barriers P (p'.body.drop p.body.length) = n

namespace Meets

variable {α β : Type} {source : Program} {n : Nat}

theorem none {e : Emit α} [Steady source false e] : Meets source 0 e :=
  fun _ _ _ _ hw hp hP => (Plays.noBarrier hw hp hP).barriers_eq

theorem after {e : Emit α} {k : α → Emit β} [he : Steady source false e]
    (h : ∀ a, Meets source n (k a)) : Meets source n (e >>= k) := by
  intro p b p'' P hw hp hP
  obtain ⟨a, p', ha, hb⟩ := bind_eq_ok_iff.mp hp
  have hgrows := e.grows ha
  have hgrows' := (k a).grows hb
  have hnone := Plays.noBarrier hw ha (hgrows'.toWithin.trans hP)
  rw [drop_body_eq hgrows hgrows', Block.barriers_append, hnone.barriers_eq, Nat.zero_add]
  exact h a p' b p'' P (hw.trans hgrows.toWithin) hb hP

theorem barrier {k : Emit β} (h : Meets source n k) :
    Meets source (1 + n) (effect .barrier >>= fun _ => k) := by
  intro p b p'' P hw hp hP
  obtain ⟨bar, p', hgrows, hgrows', hb, hinstr, hbody⟩ := barrier_bind_eq_ok hp
  have hnil : Block.NoBarrier P [] := by simp [Block.NoBarrier, Block.values]
  rw [hbody, ← h p' b p'' P (hw.trans hgrows.toWithin) hb hP]
  exact hnil.barriers_around ((hgrows'.toWithin.trans hP).instr_eq hinstr)

end Meets

end Emit

end PrimitiveShader
