import PrimitiveShader.Proofs.Thread.CrossLane
import PrimitiveShader.Proofs.Wave.Lockstep

/-!
# Threads in lockstep

If every lane that is on meets the precondition of a block as a thread of its own, the wave can run
the block in lockstep: each lane ends up with its own postcondition, whatever the others do
(`Block.runsFrom`). What lanes and threads have to do with each other is left to a `Tie`. All that has to be
shown for a tie is that single instructions preserve it, as they do for the threads of a `Crew`
(`Crew.preserves_tie`).
-/

namespace PrimitiveShader

/-- What ties the lanes of a wave and the state that all waves share to one thread per lane. The lanes that it
covers have the states of their threads. -/
structure Tie where
  Covers : Nat → Prop
  Holds : Array Lane → Shared → (Nat → Thread) → Prop
  lane : ∀ {lanes : Array Lane} {s : Shared} {T : Nat → Thread}, Holds lanes s T →
    ∀ l, Covers l → lanes[l]? = some (T l).lane

variable {c : Setting} {id : Nat} {E : RunError → Prop} {K : Tie} {s : Shared} {T : Nat → Thread}
  {Q L : Nat → Thread → Prop} {fuel : Nat}

/-- Lanes that are about to run a block: none of those that are on has left the loop, and outside of
a loop there is somebody on and nowhere to leave for. -/
structure Ready (c : Setting) (K : Tie) (φ : Formation) (s : Shared) (T : Nat → Thread)
    (L : Nat → Thread → Prop) : Prop where
  tie : K.Holds φ.lanes s T
  exec : ∀ l ∈ φ.exec.lanes, K.Covers l
  apart : ∀ l ∈ φ.exec.lanes, l ∉ φ.gone.lanes
  outside : φ.left = none → φ.exec.isEmpty = false ∧ ∀ l t, L l t → c.faults

/-- Lanes that have run a block: those that are still on have `Q`, those that have left have `L`. -/
structure Moved (K : Tie) (φ : Formation) (T : Nat → Thread) (Q L : Nat → Thread → Prop) (φ' : Formation)
    (s' : Shared) (T' : Nat → Thread) : Prop where
  tie : K.Holds φ'.lanes s' T'
  others : ∀ l, l ∉ φ.exec.lanes → T' l = T l
  on : ∀ l ∈ φ'.exec.lanes, l ∈ φ.exec.lanes ∧ Q l (T' l)
  off : ∀ l ∈ φ.exec.lanes, l ∉ φ'.exec.lanes → L l (T' l)
  left : φ'.left.isSome = φ.left.isSome
  gone : ∀ l, l ∈ φ'.gone.lanes ↔ l ∈ φ.gone.lanes ∨ l ∈ φ.exec.lanes ∧ l ∉ φ'.exec.lanes

namespace Moved

variable {φ φ₁ φ₂ : Formation} {s₁ s₂ : Shared} {T₁ T₂ : Nat → Thread} {P : Nat → Thread → Prop}

/-- An instruction leaves the lanes on that it finds on. -/
theorem of_instr (htie : K.Holds φ₁.lanes s₁ T₁) (hexec : φ₁.exec = φ.exec) (hleft : φ₁.left = φ.left)
    (hothers : ∀ l, l ∉ φ.exec.lanes → T₁ l = T l) (hQ : ∀ l ∈ φ.exec.lanes, Q l (T₁ l)) :
    Moved K φ T Q L φ₁ s₁ T₁ where
  tie := htie
  others := hothers
  on l hl := ⟨hexec ▸ hl, hQ l (hexec ▸ hl)⟩
  off _ hl hn := absurd (hexec ▸ hl) hn
  left := by rw [hleft]
  gone l := by
    rw [Formation.gone, hleft, hexec]
    exact ⟨.inl, fun h => h.elim (fun hg => hg) fun h => absurd h.1 h.2⟩

theorem refl (h : K.Holds φ.lanes s T) (hQ : ∀ l ∈ φ.exec.lanes, Q l (T l)) : Moved K φ T Q L φ s T :=
  .of_instr h rfl rfl (fun _ _ => rfl) hQ

theorem trans (h : Moved K φ T P L φ₁ s₁ T₁) (h' : Moved K φ₁ T₁ Q L φ₂ s₂ T₂) : Moved K φ T Q L φ₂ s₂ T₂ where
  tie := h'.tie
  others l hl := (h'.others l fun hl₁ => hl (h.on l hl₁).1).trans (h.others l hl)
  on l hl := ⟨(h.on l (h'.on l hl).1).1, (h'.on l hl).2⟩
  off l hl hn := by
    by_cases hl₁ : l ∈ φ₁.exec.lanes
    · exact h'.off l hl₁ hn
    · rw [h'.others l hl₁]
      exact h.off l hl hl₁
  left := h'.left.trans h.left
  gone l := by
    have hsub := fun hl => (h'.on l hl).1
    have hsub₁ := fun hl => (h.on l hl).1
    have hg := h.gone l
    have hg' := h'.gone l
    grind

/-- A block neither opens nor closes a loop around itself. -/
theorem left_eq_none (h : Moved K φ T Q L φ₁ s₁ T₁) (hnone : φ₁.left = none) : φ.left = none := by
  have hleft := h.left
  rw [hnone] at hleft
  simpa using hleft.symm

/-- Outside of a loop nobody leaves. -/
theorem exec_eq (h : Moved K φ T Q L φ₁ s₁ T₁) (hnone : φ₁.left = none) : φ₁.exec = φ.exec := by
  refine LaneMask.eq_of_mem_lanes fun l => ⟨fun hl => (h.on l hl).1, fun hl => ?_⟩
  have hgone := h.gone l
  simp only [Formation.gone, hnone, Option.getD_none, LaneMask.not_mem_lanes_empty] at hgone
  grind

/-- If there is no way to leave, the same lanes are on as before. -/
theorem eq_of_stays (h : Moved K φ T Q (fun _ _ => False) φ₁ s₁ T₁) : φ₁ = { φ with lanes := φ₁.lanes } := by
  have hexec : φ₁.exec = φ.exec := LaneMask.eq_of_mem_lanes fun l =>
    ⟨fun hl => (h.on l hl).1, fun hl => Classical.byContradiction fun hn => h.off l hl hn⟩
  have hgone : φ₁.gone = φ.gone := LaneMask.eq_of_mem_lanes fun l => by
    rw [h.gone l, hexec]
    exact or_iff_left fun hl => hl.2 hl.1
  have hsome := h.left
  obtain ⟨exec, left, lanes⟩ := φ
  obtain ⟨exec₁, left₁, lanes₁⟩ := φ₁
  cases left <;> cases left₁ <;> simp_all [Formation.gone]

/-- After a block the remaining lanes are ready for the next one. -/
theorem ready (h : Moved K φ T Q L φ₁ s₁ T₁) (hr : Ready c K φ s T L) : Ready c K φ₁ s₁ T₁ L where
  tie := h.tie
  exec l hl := hr.exec l (h.on l hl).1
  apart l hl := by
    rw [h.gone l]
    rintro (hg | ⟨-, hn⟩)
    · exact hr.apart l (h.on l hl).1 hg
    · exact hn hl
  outside hnone := by
    obtain ⟨hsome, hL⟩ := hr.outside (h.left_eq_none hnone)
    exact ⟨h.exec_eq hnone ▸ hsome, hL⟩

/-- Both sides of a branch: they serve disjoint sets of lanes, so neither disturbs what the other
establishes. -/
theorem join {taken : LaneMask} (h₁ : Moved K { φ with exec := taken } T Q L φ₁ s₁ T₁)
    (htaken : ∀ l ∈ taken.lanes, l ∈ φ.exec.lanes) (hapart : ∀ l ∈ φ.exec.lanes, l ∉ φ.gone.lanes)
    (h₂ : Moved K { φ₁ with exec := φ.exec.diff taken } T₁ Q L φ₂ s₂ T₂) :
    Moved K φ T Q L { φ₂ with exec := φ.exec.diff φ₂.gone } s₂ T₂ := by
  have hg₁ : ∀ l, l ∈ φ₁.gone.lanes ↔ l ∈ φ.gone.lanes ∨ l ∈ taken.lanes ∧ l ∉ φ₁.exec.lanes :=
    h₁.gone
  have hg₂ : ∀ l, l ∈ φ₂.gone.lanes ↔ l ∈ φ₁.gone.lanes ∨ (l ∈ φ.exec.lanes ∧ l ∉ taken.lanes) ∧ l ∉ φ₂.exec.lanes := by
    intro l
    rw [← LaneMask.mem_lanes_diff]
    exact h₂.gone l
  have hsame : ∀ l, ¬ (l ∈ φ.exec.lanes ∧ l ∉ taken.lanes) → T₂ l = T₁ l := fun l hl =>
    h₂.others l fun hl' => hl (LaneMask.mem_lanes_diff.mp hl')
  refine ⟨h₂.tie, fun l hl => ?_, fun l hl => ?_, fun l hl hn => ?_, h₂.left.trans h₁.left, fun l => ?_⟩
  · rw [hsame l fun h => hl h.1]
    exact h₁.others l fun h => hl (htaken l h)
  · obtain ⟨hl', hn⟩ := LaneMask.mem_lanes_diff.mp hl
    refine ⟨hl', ?_⟩
    by_cases ht : l ∈ taken.lanes
    · rw [hsame l fun h => h.2 ht]
      have hon : l ∈ φ₁.exec.lanes := by grind
      exact (h₁.on l hon).2
    · have hon : l ∈ φ₂.exec.lanes := by grind
      exact (h₂.on l hon).2
  · have hgone : l ∈ φ₂.gone.lanes := by
      have hdiff : ¬ (l ∈ φ.exec.lanes ∧ l ∉ φ₂.gone.lanes) := fun h =>
        hn (LaneMask.mem_lanes_diff.mpr h)
      grind
    by_cases ht : l ∈ taken.lanes
    · rw [hsame l fun h => h.2 ht]
      have hoff : l ∉ φ₁.exec.lanes := by grind
      exact h₁.off l ht hoff
    · have hoff : l ∉ φ₂.exec.lanes := by grind
      exact h₂.off l (LaneMask.mem_lanes_diff.mpr ⟨hl, ht⟩) hoff
  · change l ∈ φ₂.gone.lanes ↔ _
    rw [LaneMask.mem_lanes_diff]
    have := htaken l
    grind

end Moved

/-- The precondition of a node, lane by lane. -/
def Node.pre (c : Setting) (id : Nat) (node : Node) (l : Nat) : (Q L : Thread → Prop) → Thread → Prop :=
  node.wp c (Wave.laneId c.group id l)

/-- The precondition of a block, lane by lane. -/
def Block.pre (c : Setting) (id : Nat) (block : Block) (l : Nat) :
    (Q L : Thread → Prop) → Thread → Prop :=
  Block.wp c (Wave.laneId c.group id l) block

/-- The instruction preserves the tie: lanes that meet its precondition as threads run it in lockstep. -/
def Value.Preserves (c : Setting) (id : Nat) (E : RunError → Prop) (K : Tie) (value : Value) : Prop :=
  ∀ (φ : Formation) (s : Shared) (T : Nat → Thread) (Q L : Nat → Thread → Prop), K.Holds φ.lanes s T →
    (∀ l ∈ φ.exec.lanes, K.Covers l) → (∀ l ∈ φ.exec.lanes, Node.pre c id (.instr value) l (Q l) (L l) (T l)) →
    (value.lockstep c.group id φ s).Ends E c.faults fun φ' s' => ∃ T', Moved K φ T Q L φ' s' T'

/-- What is to be shown of the instruction. -/
theorem Value.Preserves.of_execute {value : Value} (h : ∀ (w : Wave) (s : Shared) (T : Nat → Thread)
      (Q : Nat → Thread → Prop) (instr : Instr), w.id = id → K.Holds w.lanes s T → (∀ l ∈ w.exec.lanes, K.Covers l) →
      w.exec.isEmpty = false → c.program.instr value = .ok instr →
      (∀ l ∈ w.exec.lanes, instr.wp c (Wave.laneId c.group id l) value (Q l) (T l)) →
      (w.execute c.group value instr s).Ends E c.faults fun w' s' => ∃ T', K.Holds w'.lanes s' T' ∧
        (∀ l ∈ w.exec.lanes, Q l (T' l)) ∧ ∀ l, l ∉ w.exec.lanes → T' l = T l) : value.Preserves c id E K := by
  intro φ s T Q L htie hexec hpre
  unfold Value.lockstep
  cases hempty : φ.exec.isEmpty with
  | true =>
    have hnone (l : Nat) : l ∉ φ.exec.lanes := by simp [LaneMask.lanes_eq_nil_iff.mpr hempty]
    exact ⟨T, .refl htie fun l hl => absurd hl (hnone l)⟩
  | false =>
    obtain ⟨k, hk, -⟩ := LaneMask.exists_lowest hempty
    simp only [Node.pre, Node.wp] at hpre
    refine .bind (.lift ?_)
    cases hi : c.group.program.instr value with
    | error fault =>
      have hfault := hpre k hk
      rwa [show c.program.instr value = .error fault from hi] at hfault
    | ok instr =>
      refine .bind ((h (φ.toWave id) s T Q instr rfl htie hexec hempty hi fun l hl => ?_).mono ?_)
      · have hl' := hpre l hl
        rwa [show c.program.instr value = .ok instr from hi] at hl'
      · rintro w' s' - ⟨T', htie', hQ, hothers⟩
        exact ⟨T', .of_instr htie' rfl rfl hothers hQ⟩

/-- The rule of a block: threads that meet `pre` run it in lockstep. -/
def RunsFrom (c : Setting) (E : RunError → Prop) (K : Tie) (block : Formation → Exec Shared Formation)
    (pre : Nat → (Q L : Thread → Prop) → Thread → Prop) : Prop :=
  ∀ (φ : Formation) (s : Shared) (T : Nat → Thread) (Q L : Nat → Thread → Prop),
    Ready c K φ s T L → (∀ l ∈ φ.exec.lanes, pre l (Q l) (L l) (T l)) →
      (block φ s).Ends E c.faults fun φ' s' => ∃ T', Moved K φ T Q L φ' s' T'

namespace RunsFrom

theorem instr {value : Value} (h : value.Preserves c id E K) :
    RunsFrom c E K (Node.lockstep c.group id fuel (.instr value)) (Node.pre c id (.instr value)) := by
  intro φ s T Q L hr hpre
  rw [Node.lockstep]
  exact h φ s T Q L hr.tie hr.exec hpre

variable {block : Formation → Exec Shared Formation} {pre : Nat → (Q L : Thread → Prop) → Thread → Prop} {φ : Formation}

theorem onLanes (h : RunsFrom c E K block pre) (mask : LaneMask) (htie : K.Holds φ.lanes s T)
    (hmask : ∀ l ∈ mask.lanes, K.Covers l) (hapart : ∀ l ∈ mask.lanes, l ∉ φ.gone.lanes)
    (houtside : φ.left = none → ∀ l t, L l t → c.faults) (hpre : ∀ l ∈ mask.lanes, pre l (Q l) (L l) (T l)) :
    (Formation.onLanes block mask φ s).Ends E c.faults fun φ' s' =>
      ∃ T', Moved K { φ with exec := mask } T Q L φ' s' T' := by
  unfold Formation.onLanes
  cases hempty : mask.isEmpty with
  | true =>
    have hnone (l : Nat) : l ∉ mask.lanes := by simp [LaneMask.lanes_eq_nil_iff.mpr hempty]
    exact ⟨T, .refl htie fun l hl => absurd hl (hnone l)⟩
  | false =>
    exact h { φ with exec := mask } s T Q L ⟨htie, hmask, hapart, fun hnone => ⟨hempty, houtside hnone⟩⟩ hpre

/-- The passes of a loop. With `n` more passes to come, the lanes that stay have `I n`. If the limit is no way to
end, then no lane may stay for so long. -/
theorem passes {I : Nat → Nat → Thread → Prop} (h : RunsFrom c E K block pre)
    (hI : ∀ n l t, I (n + 1) l t → pre l (I n l) (L l) t) {n : Nat}
    (hlimit : E (.stepLimit id) ∨ 0 < n ∧ ∀ l t, ¬ I 0 l t)
    (hr : Ready c K φ s T L) (hstart : ∀ l ∈ φ.exec.lanes, I n l (T l)) :
    (Formation.passes id block n φ s).Ends E c.faults fun φ' s' =>
      ∃ T', Moved K φ T (fun _ _ => False) L φ' s' T' := by
  induction n generalizing φ s T with
  | zero => exact hlimit.resolve_right fun h => Nat.lt_irrefl 0 h.1
  | succ n ih =>
    refine .bind ((h φ s T (I n) L hr fun l hl => hI n l _ (hstart l hl)).mono ?_)
    rintro φ₁ s₁ - ⟨T₁, h₁⟩
    cases hempty : φ₁.exec.isEmpty with
    | true =>
      refine ⟨T₁, { h₁ with on := fun l hl => ?_ }⟩
      rw [LaneMask.lanes_eq_nil_iff.mpr hempty] at hl
      cases hl
    | false =>
      obtain ⟨k, hk, -⟩ := LaneMask.exists_lowest hempty
      have hmore : E (.stepLimit id) ∨ 0 < n ∧ ∀ l t, ¬ I 0 l t := by
        refine hlimit.imp_right fun h => ⟨Nat.pos_of_ne_zero ?_, h.2⟩
        rintro rfl
        exact h.2 k _ (h₁.on k hk).2
      refine (ih hmore (h₁.ready hr) fun l hl => (h₁.on l hl).2).mono ?_
      rintro φ₂ s₂ - ⟨T₂, h₂⟩
      exact ⟨T₂, h₁.trans h₂⟩

theorem nil : RunsFrom c E K (Block.lockstep c.group id fuel []) (Block.pre c id []) := by
  intro φ s T Q L hr hpre
  simp only [Block.pre, Block.wp_nil] at hpre
  rw [Block.lockstep]
  exact ⟨T, .refl hr.tie hpre⟩

theorem cons {node : Node} {rest : Block} (hnode : RunsFrom c E K (node.lockstep c.group id fuel) (Node.pre c id node))
    (hrest : RunsFrom c E K (Block.lockstep c.group id fuel rest) (Block.pre c id rest)) :
    RunsFrom c E K (Block.lockstep c.group id fuel (node :: rest)) (Block.pre c id (node :: rest)) := by
  intro φ s T Q L hr hpre
  simp only [Block.pre, Block.wp_cons] at hpre
  rw [Block.lockstep]
  refine .bind ((hnode φ s T (fun l => Block.pre c id rest l (Q l) (L l)) L hr hpre).mono ?_)
  rintro φ₁ s₁ - ⟨T₁, h₁⟩
  refine (hrest φ₁ s₁ T₁ Q L (h₁.ready hr) fun l hl => (h₁.on l hl).2).mono ?_
  rintro φ₂ s₂ - ⟨T₂, h₂⟩
  exact ⟨T₂, h₁.trans h₂⟩

/-- A branch: the two sides serve disjoint sets of lanes, so neither disturbs what the other
establishes. -/
theorem branch {cond : Value} {thenBlock elseBlock : Block}
    (hthen : RunsFrom c E K (Block.lockstep c.group id fuel thenBlock) (Block.pre c id thenBlock))
    (helse : RunsFrom c E K (Block.lockstep c.group id fuel elseBlock) (Block.pre c id elseBlock)) :
    RunsFrom c E K (Node.lockstep c.group id fuel (.branch cond thenBlock elseBlock))
      (Node.pre c id (.branch cond thenBlock elseBlock)) := by
  intro φ s T Q L hr hpre
  simp only [Node.pre, Node.wp] at hpre
  rw [Node.lockstep]
  have hmask := Wave.maskOf_yields (φ.toWave id) cond (fun l hl => K.lane hr.tie l (hr.exec l hl))
    fun l hl => (hpre l hl).mono fun _ _ _ => trivial
  refine .bind (.lift (hmask.mono fun taken _ htakes => ?_))
  obtain ⟨hread, htaken⟩ := htakes
  have htakes : ∀ l ∈ taken.lanes, l ∈ φ.exec.lanes := fun l hl => ((htaken l).mp hl).1
  have hpreThen : ∀ l ∈ taken.lanes, Block.pre c id thenBlock l (Q l) (L l) (T l) := by
    intro l hl
    obtain ⟨hl', a, ha, hne⟩ := (htaken l).mp hl
    have hbranch := hpre l hl'
    rw [ha] at hbranch
    simp only [Yields, hne, ↓reduceIte] at hbranch
    exact hbranch
  have hpreElse : ∀ l ∈ (φ.exec.diff taken).lanes, Block.pre c id elseBlock l (Q l) (L l) (T l) := by
    intro l hl
    obtain ⟨hl', hn⟩ := LaneMask.mem_lanes_diff.mp hl
    obtain ⟨a, ha⟩ := hread l hl'
    have hzero : a = 0 := Classical.byContradiction fun hne => hn ((htaken l).mpr ⟨hl', a, ha, hne⟩)
    have hbranch := hpre l hl'
    rw [ha] at hbranch
    simp only [Yields, hzero, ↓reduceIte] at hbranch
    exact hbranch
  refine .bind ((hthen.onLanes taken hr.tie (fun l hl => hr.exec l (htakes l hl))
    (fun l hl => hr.apart l (htakes l hl)) (fun hnone => (hr.outside hnone).2)
    hpreThen).mono fun φ₁ s₁ _ hfirst => ?_)
  obtain ⟨T₁, h₁⟩ := hfirst
  refine .bind ((helse.onLanes (φ.exec.diff taken) h₁.tie
    (fun l hl => hr.exec l (LaneMask.mem_lanes_diff.mp hl).1) (fun l hl => ?_)
    (fun hnone => (hr.outside (h₁.left_eq_none hnone)).2) (fun l hl => ?_)).mono fun φ₂ s₂ _ hsecond => hsecond.imp fun T₂ h₂ => h₁.join htakes hr.apart h₂)
  · obtain ⟨hl', hn⟩ := LaneMask.mem_lanes_diff.mp hl
    rw [h₁.gone l]
    exact fun hgone => hgone.elim (hr.apart l hl') fun hthen => hn hthen.1
  · rw [h₁.others l (LaneMask.mem_lanes_diff.mp hl).2]
    exact hpreElse l hl

/-- A loop, whose body keeps a family of properties as its passes do. -/
theorem loop_passes {body : Block} {I : Nat → Nat → Thread → Prop}
    (h : RunsFrom c E K (Block.lockstep c.group id fuel body) (Block.pre c id body))
    (hI : ∀ n l t, I (n + 1) l t → Block.pre c id body l (I n l) (Q l) t)
    (hlimit : E (.stepLimit id) ∨ 0 < fuel ∧ ∀ l t, ¬ I 0 l t) (htie : K.Holds φ.lanes s T)
    (hexec : ∀ l ∈ φ.exec.lanes, K.Covers l) (hstart : ∀ l ∈ φ.exec.lanes, I fuel l (T l)) :
    (Node.lockstep c.group id fuel (.loop body) φ s).Ends E c.faults fun φ' s' => ∃ T', Moved K φ T Q L φ' s' T' := by
  rw [Node.lockstep]
  have hready : Ready c K { φ with left := some .empty } s T Q :=
    ⟨htie, hexec, fun l _ => LaneMask.not_mem_lanes_empty l, by rintro ⟨⟩⟩
  refine .bind ((h.passes hI hlimit hready hstart).mono ?_)
  rintro ψ s' - ⟨T', h'⟩
  exact ⟨T', .of_instr h'.tie rfl rfl h'.others fun l hl => h'.off l hl fun hon => (h'.on l hon).2⟩

/-- A loop: its precondition is an invariant of its passes. -/
theorem loop {body : Block} (hE : E (.stepLimit id))
    (hbody : RunsFrom c E K (Block.lockstep c.group id fuel body) (Block.pre c id body)) :
    RunsFrom c E K (Node.lockstep c.group id fuel (.loop body)) (Node.pre c id (.loop body)) := by
  intro φ s T Q L hr hpre
  refine hbody.loop_passes (I := fun _ l => Node.pre c id (.loop body) l (Q l) (L l)) (fun _ l t ht => ?_) (.inl hE)
    hr.tie hr.exec hpre
  simp only [Node.pre, Node.wp] at ht ⊢
  obtain ⟨I, hI, hkeep⟩ := ht
  exact Block.wp_mono body (hkeep t hI) (fun u hu => ⟨I, hu, hkeep⟩) fun u hu => hu

theorem leave : RunsFrom c E K (Node.lockstep c.group id fuel .leave) (Node.pre c id .leave) := by
  intro φ s T Q L hr hpre
  simp only [Node.pre, Node.wp] at hpre
  rw [Node.lockstep]
  cases hleft : φ.left with
  | none =>
    obtain ⟨hsome, hL⟩ := hr.outside hleft
    obtain ⟨k, hk, -⟩ := LaneMask.exists_lowest hsome
    exact hL k _ (hpre k hk)
  | some left =>
    refine ⟨T, hr.tie, fun _ _ => rfl, fun l hl => ?_, fun l hl _ => hpre l hl, by simp [hleft], fun l => ?_⟩
    · exact absurd hl (LaneMask.not_mem_lanes_empty l)
    · have hempty := LaneMask.not_mem_lanes_empty l
      simp only [Formation.gone, hleft, Option.getD_some, LaneMask.mem_lanes_union]
      grind

end RunsFrom

mutual

theorem Node.runsFrom (hE : E (.stepLimit id)) (fuel : Nat) : ∀ node : Node,
    (∀ v ∈ node.values, v.Preserves c id E K) →
    RunsFrom c E K (Node.lockstep c.group id fuel node) (Node.pre c id node)
  | .instr value, h => .instr (h value (by simp [Node.values]))
  | .branch cond thenBlock elseBlock, h =>
    .branch (Block.runsFrom hE fuel thenBlock fun v hv => h v (by simp [Node.values, hv]))
      (Block.runsFrom hE fuel elseBlock fun v hv => h v (by simp [Node.values, hv]))
  | .loop body, h => .loop hE (Block.runsFrom hE fuel body fun v hv => h v (by simpa [Node.values] using hv))
  | .leave, _ => .leave

/-- Threads that meet the precondition of a block run it in lockstep, if its instructions keep the tie. -/
theorem Block.runsFrom (hE : E (.stepLimit id)) (fuel : Nat) : ∀ block : Block,
    (∀ v ∈ Block.values block, v.Preserves c id E K) →
    RunsFrom c E K (Block.lockstep c.group id fuel block) (Block.pre c id block)
  | [], _ => .nil
  | node :: rest, h => .cons (Node.runsFrom hE fuel node fun v hv => h v (by simp [Block.values, hv]))
      (Block.runsFrom hE fuel rest fun v hv => h v (by simp [Block.values, hv]))

end

/-! ## The threads of a crew -/

/-- The threads of a wave, since the state `s₀`. -/
def Crew.tie (c : Setting) (id : Nat) (s₀ : Shared) : Tie where
  Covers l := l < c.group.wave.size
  Holds lanes s T := Crew c id lanes s T ∧ s₀.Steps c id s
  lane h := h.1.lane

theorem Wave.execute_of_wp {w : Wave} (hid : w.id = id) (h : Crew c id w.lanes s T)
    (hf : c.Fits id) (hexec : w.exec.Below c.group.wave.size) (hsome : w.exec.isEmpty = false) {instr : Instr}
    (hwp : ∀ l ∈ w.exec.lanes, instr.wp c (laneId c.group id l) value (Q l) (T l)) :
    (w.execute c.group value instr s).Ends E c.faults
      fun w' s' => Crew.Served c id s T Q w.exec.lanes w'.lanes s' := by
  subst hid
  obtain ⟨k, hk, -⟩ := LaneMask.exists_lowest hsome
  have perLane (hlocal : instr.isLaneLocal = true) : ((Exec.lift (w.updateLanes fun lane =>
        Lane.execute c.group (laneId c.group w.id lane) value instr) : Exec Shared Wave) s).Ends E
        c.faults fun w' s' => Crew.Served c w.id s T Q w.exec.lanes w'.lanes s' := by
    refine .lift (h.updateLanes_yields hexec (fun l lane lane' hl he => hl.execute he) fun l hl => ?_)
    have hl' := hwp l hl
    rwa [Instr.wp_of_isLaneLocal hlocal] at hl'
  have keep {a : Exec Shared Unit} (ha : (a s).Ends E c.faults
      fun _ s' => Crew.Served c w.id s T Q w.exec.lanes w.lanes s') :
      ((do a; return w : Exec Shared Wave) s).Ends E c.faults
        fun w' s' => Crew.Served c w.id s T Q w.exec.lanes w'.lanes s' :=
    .bind (ha.mono fun _ _ _ hserved => hserved)
  cases instr with
  | intrinsic op =>
    cases op with
    | crossLane op =>
      refine .lift ((h.crossLane_yields hexec hsome value (hwp k hk).1).mono fun w' _ hserved => ?_)
      obtain ⟨T', hcrew, hsteps, hdone, hwait⟩ := hserved
      refine ⟨T', hcrew, hsteps, fun l hl => ?_, hwait⟩
      obtain ⟨a, -, ha⟩ := hdone l hl
      rw [ha]
      exact (hwp l hl).2 a
    | loadShared addr base type =>
      obtain ⟨wid, launched, exec, pc, frames, lanes⟩ := w
      refine .bind (h.serve hexec fun l hl lanes₁ s₁ T₁ hcrew hstart => ?_)
      refine hcrew.load_ends hf (hexec l hl) ?_
      rw [hstart]
      exact hwp l hl
    | storeShared data addr base =>
      refine keep (.bind (.lift ?_))
      cases ht : c.group.program.typeOf data with
      | ok type =>
        refine h.serve_forM hexec fun l hl s₁ T₁ hcrew hstart => ?_
        exact hcrew.store_ends hf (hexec l hl) ht (hstart ▸ hwp l hl)
      | error fault =>
        have hfault := hwp k hk
        have ht' : c.program.typeOf data = .error fault := ht
        simp only [Instr.wp, Thread.storeAccess, ht'] at hfault
        exact hfault
    | barrier => exact hwp k hk
    | queryAdd stream count =>
      refine keep (h.serve_forM hexec fun l hl s₁ T₁ hcrew hstart => ?_)
      exact hcrew.query_ends (hexec l hl) (hstart ▸ hwp l hl)
    | allocate vertices primitives =>
      refine keep (h.serve_forM hexec fun l hl s₁ T₁ hcrew hstart => ?_)
      exact hcrew.allocate_ends (hexec l hl) (hstart ▸ hwp l hl)
    | exportPrimitive word =>
      refine keep (h.serve_forM hexec fun l hl s₁ T₁ hcrew hstart => ?_)
      exact hcrew.exportPrimitive_ends (hexec l hl) (hstart ▸ hwp l hl)
    | exportVertex =>
      refine keep (h.serve_forM hexec fun l hl s₁ T₁ hcrew hstart => ?_)
      exact hcrew.exportVertex_ends (hexec l hl) (hstart ▸ hwp l hl)
    | geometry op => exact (hwp k hk).elim
    | input input => exact perLane rfl
    | storeOutput slot data => exact perLane rfl
  | const | undef | unary | binary | select | convert | extract | loadVar | storeVar =>
    exact perLane rfl

/-- Instructions preserve the tie of a crew. -/
theorem Crew.preserves_tie (hf : c.Fits id) (s₀ : Shared) (value : Value) :
    value.Preserves c id E (Crew.tie c id s₀) := by
  refine .of_execute fun w s T Q instr hid ⟨hcrew, hsteps⟩ hexec hsome _ hwp => ?_
  refine (Wave.execute_of_wp hid hcrew hf hexec hsome hwp).mono ?_
  rintro w' s' - ⟨T', hcrew', hsteps', hdone, hwait⟩
  exact ⟨T', ⟨hcrew', hsteps.trans hsteps'⟩, hdone, hwait⟩

end PrimitiveShader
