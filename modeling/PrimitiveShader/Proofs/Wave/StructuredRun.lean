import PrimitiveShader.Proofs.Emission.Executable
import PrimitiveShader.Proofs.Validity.WellFormed
import PrimitiveShader.Proofs.Wave.Balance
import PrimitiveShader.Proofs.Wave.Flattening

/-!
# A wave from its first to its last operation

A wave that stands at a barrier waits for the others and is resumed, with the shared state as they
left it. `Wave.play` runs a wave through all its turns, for any way the others behave, and records the
instructions that it runs on at least one lane. The record is that of the tree of its program, run
with structured control flow (`Wave.play_follows_tree`).
-/

namespace PrimitiveShader

/-- The shared state over the turns of one wave, with the number of barriers that the wave has met. -/
structure Scene where
  shared : Shared
  barriers : Nat := 0

/-- What the other waves do at the barriers of a wave, by the number of the barrier. -/
abbrev Others := Nat → Shared → Shared

namespace Scene

/-- A step on the shared state. -/
def onShared {α : Type} (step : Exec Shared α) : Exec Scene α := fun scene =>
  match step scene.shared with
  | .done a shared => .done a { scene with shared }
  | .failed error shared => .failed error { scene with shared }
  | .faulted fault => .faulted fault

/-- Waits at a barrier. -/
def wait (others : Others) : Exec Scene Unit :=
  Exec.update fun scene => ⟨others scene.barriers scene.shared, scene.barriers + 1⟩

end Scene

/-- Runs an instruction on the lanes that are on, with a record if there are any. A barrier takes all
launched lanes. -/
def Value.issued (group : Workgroup) (others : Others) (id : Nat) (launched : LaneMask)
    (value : Value) (φ : Formation) : Traced Scene Formation :=
  if φ.exec.isEmpty then pure φ
  else do
    .issue ⟨value, φ.exec⟩
    let instr ← .quietly (Exec.lift (group.program.instr value))
    if instr = .intrinsic .barrier then
      if φ.exec = launched then do
        .quietly (Scene.wait others)
        return φ
      else .quietly (Exec.fail (.divergentBarrier id φ.exec.bits launched.bits))
    else do
      let wave ← .quietly (Scene.onShared ((φ.toWave id).execute group value instr))
      return { φ with lanes := wave.lanes }

namespace Wave

variable {op : CodeOp}

/-- The record of an operation: an instruction that is run on at least one lane. -/
def record (w : Wave) (op : CodeOp) : Traced Scene Unit :=
  match op with
  | .instr value => if w.exec.isEmpty then pure () else .issue ⟨value, w.exec⟩
  | _ => pure ()

/-- Runs a wave to its end, for at most `budget` operations, with a record of its instructions. -/
def play (group : Workgroup) (others : Others) : Nat → Wave → Traced Scene Wave
  | budget, w =>
    match group.executable.code[w.pc]? with
    | none => pure w
    | some op =>
      match budget with
      | 0 => .quietly (Exec.fail (.stepLimit w.id))
      | budget + 1 => do
        w.record op
        let (w', atBarrier) ← .quietly (Scene.onShared (w.step group op))
        if atBarrier then .quietly (Scene.wait others)
        play group others budget w'

variable {group : Workgroup} {others : Others} {w : Wave}

theorem play_of_code_eq_none (h : group.executable.code[w.pc]? = none) (budget : Nat) :
    w.play group others budget = pure w := by
  unfold play
  simp only [h]

theorem play_zero (h : group.executable.code[w.pc]? = some op) :
    w.play group others 0 = .quietly (Exec.fail (.stepLimit w.id)) := by
  unfold play
  simp only [h]

theorem play_succ (h : group.executable.code[w.pc]? = some op) (budget : Nat) :
    w.play group others (budget + 1) = (do
      w.record op
      let (w', atBarrier) ← .quietly (Scene.onShared (w.step group op))
      if atBarrier then .quietly (Scene.wait others)
      play group others budget w') := by
  conv => lhs; unfold play
  simp only [h]

/-- How a wave gets to its end after a turn: from a barrier it goes on with the shared state that the
others have left. -/
def carryOn (group : Workgroup) (others : Others) (scene : Scene) : Outcome Shared Pause → Outcome Scene Wave
  | .done ⟨w', _, .finished⟩ shared => .done w' { scene with shared }
  | .done ⟨w', left, .barrier⟩ shared =>
    (w'.play group others left ⟨others scene.barriers shared, scene.barriers + 1⟩).outcome
  | .failed error shared => .failed error { scene with shared }
  | .faulted fault => .faulted fault

/-- A play is the turns of a wave, one after the other. -/
theorem outcome_play (budget : Nat) (w : Wave) (scene : Scene) :
    (w.play group others budget scene).outcome = carryOn group others scene (w.run group budget scene.shared) := by
  induction budget generalizing w scene with
  | zero =>
    unfold Wave.play run
    cases group.executable.code[w.pc]? <;> rfl
  | succ budget ih =>
    cases hop : group.executable.code[w.pc]? with
    | none =>
      unfold Wave.play run
      simp only [hop]
      rfl
    | some op =>
      have hrecord : ∃ issues, w.record op scene = ⟨issues, .done () scene⟩ := by
        unfold record
        cases op with
        | instr value =>
          dsimp only
          split
          · exact ⟨[], rfl⟩
          · exact ⟨_, rfl⟩
        | branch | otherwise | endBranch | loop | leave | endLoop => exact ⟨[], rfl⟩
      obtain ⟨issues, hrecord⟩ := hrecord
      rw [play_succ hop, Traced.bind_apply, hrecord]
      unfold run
      simp only [hop]
      rw [Report.outcome_after, Traced.bind_apply]
      simp only [Traced.quietly, Scene.onShared]
      rcases w.step group op scene.shared with ⟨⟨w', _ | _⟩, t⟩ | ⟨error, t⟩ | fault
      · rw [Report.outcome_after]
        exact ih w' { scene with shared := t }
      · rfl
      · rfl
      · rfl

/-- An instruction of flat code, barriers included. -/
theorem play_succ_instr {value : Value} (h : group.executable.code[w.pc]? = some (.instr value)) (budget : Nat) :
    w.play group others (budget + 1) = value.issued group others w.id w.launched w.formation >>= fun φ =>
        play group others budget (w.arrive φ (w.pc + 1)) := by
  have hstay : w.arrive w.formation (w.pc + 1) = { w with pc := w.pc + 1 } := w.arrive_lanes w.lanes _
  rw [play_succ h]
  by_cases he : w.exec.isEmpty
  · have hissued : value.issued group others w.id w.launched w.formation = pure w.formation :=
      if_pos (show w.formation.exec.isEmpty from he)
    have hrecord : w.record (.instr value) = pure () := if_pos he
    have hstep : w.step group (.instr value) = pure ({ w with pc := w.pc + 1 }, false) := if_pos he
    rw [hissued, hrecord, hstep, pure_bind, pure_bind, hstay]
    rfl
  · have hissued : value.issued group others w.id w.launched w.formation = _ :=
      if_neg (show ¬ w.formation.exec.isEmpty from he)
    have hrecord : w.record (.instr value) = .issue ⟨value, w.exec⟩ := if_neg he
    rw [hissued, hrecord, bind_assoc]
    refine congrArg _ (funext fun _ => ?_)
    cases hi : group.program.instr value with
    | error fault =>
      have hstep : w.step group (.instr value) = Exec.fault fault := by
        simp only [step, stepInstr, he, hi]
        rfl
      rw [hstep]
      rfl
    | ok instr =>
      change _ = (ite _ _ _ : Traced Scene Formation) >>= _
      by_cases hbar : instr = .intrinsic .barrier
      · subst hbar
        have hstep : w.step group (.instr value) =
            if w.exec = w.launched then pure ({ w with pc := w.pc + 1 }, true)
            else Exec.fail (.divergentBarrier w.id w.exec.bits w.launched.bits) := by
          simp only [step, stepInstr, he, hi]
          rfl
        rw [hstep, if_pos rfl]
        by_cases hall : w.exec = w.launched
        · rw [if_pos hall, if_pos (show w.formation.exec = w.launched from hall), bind_assoc]
          change _ = Traced.quietly (Scene.wait others) >>= fun _ =>
            play group others budget (w.arrive w.formation (w.pc + 1))
          rw [hstay]
          rfl
        · rw [if_neg hall, if_neg (show ¬ w.formation.exec = w.launched from hall)]
          rfl
      · have hlockstep : value.lockstep group w.id w.formation = (do
            let wave ← (w.formation.toWave w.id).execute group value instr
            return { w.formation with lanes := wave.lanes }) := by
          unfold Value.lockstep
          rw [if_neg (show ¬ w.formation.exec.isEmpty from he), hi]
          rfl
        have hne : group.program.instr value ≠ .ok (.intrinsic .barrier) := by
          rw [hi]
          exact fun hb => hbar (Except.ok.inj hb)
        rw [step_instr hne, hlockstep, if_neg hbar]
        funext scene
        simp only [Traced.bind_apply, Traced.quietly, Scene.onShared, Exec.bind_apply]
        cases (w.formation.toWave w.id).execute group value instr scene.shared <;> rfl

/-- Running an instruction with a record switches no lane on or off. -/
theorem keepsLanes_issued (group : Workgroup) (others : Others) (id : Nat) (launched : LaneMask) :
    KeepsLanes (Value.issued group others id launched) := by
  intro value φ s φ' s' h
  unfold Value.issued at h
  split at h
  · cases h
    exact ⟨rfl, rfl⟩
  · obtain ⟨-, s₁, -, h⟩ := Traced.bind_outcome_eq_done h
    obtain ⟨instr, s₂, -, h⟩ := Traced.bind_outcome_eq_done h
    split at h
    · split at h
      · obtain ⟨-, s₃, -, h⟩ := Traced.bind_outcome_eq_done h
        cases h
        exact ⟨rfl, rfl⟩
      · cases h
    · obtain ⟨wave, s₃, -, h⟩ := Traced.bind_outcome_eq_done h
      cases h
      exact ⟨rfl, rfl⟩

/-- Playing a wave takes it through its code. -/
theorem drives_play (group : Workgroup) (others : Others) :
    Drives group (fun _ => True) (Value.issued group others) fun b w => w.play group others b where
  limit hop := play_zero hop
  steer {w op} hop hne b := by
    have hrecord : w.record op = pure () := by
      cases op with
      | instr v => exact absurd rfl (hne v)
      | branch | otherwise | endBranch | loop | leave | endLoop => rfl
    rw [play_succ hop, step_eq_steer hne, hrecord, pure_bind]
    cases w.steer op <;> rfl
  run hop _ b := play_succ_instr hop b
  keepsLanes := keepsLanes_issued group others

end Wave

/-! ## Valid programs keep their branches and loops balanced -/

theorem Traced.bind_outcome_ne_faulted {σ α β : Type} {step : Traced σ α} {next : α → Traced σ β}
    {s : σ} {fault : Fault} (h : (step s).outcome ≠ .faulted fault)
    (hnext : ∀ a t, (step s).outcome = .done a t → (next a t).outcome ≠ .faulted fault) :
    ((step >>= next) s).outcome ≠ .faulted fault := by
  rw [Traced.bind_apply]
  rcases hs : step s with ⟨issues, ⟨a, t⟩ | ⟨error, t⟩ | fault'⟩
  · exact hnext a t (by rw [hs])
  · simp
  · rw [hs] at h
    simpa using h

theorem Scene.onShared_ne_faulted {α : Type} {step : Exec Shared α} (h : step.Balanced)
    (scene : Scene) : Scene.onShared step scene ≠ .faulted .controlStack := by
  unfold Scene.onShared
  cases hs : step scene.shared with
  | done a t => simp
  | failed error t => simp
  | faulted fault =>
    intro he
    cases he
    exact h.ne _ hs

theorem Value.issued_ne_faulted {group : Workgroup} {others : Others} {id : Nat}
    {launched : LaneMask} (value : Value) (φ : Formation) (scene : Scene) :
    (value.issued group others id launched φ scene).outcome ≠ .faulted .controlStack := by
  unfold Value.issued
  split
  · simp [Traced.pure_apply]
  · refine Traced.bind_outcome_ne_faulted (by simp [Traced.issue]) fun _ t _ => ?_
    refine Traced.bind_outcome_ne_faulted ?_ fun instr t _ => ?_
    · exact Exec.Balanced.ne (x := Exec.lift (group.program.instr value)) t
    split
    · split
      · refine Traced.bind_outcome_ne_faulted ?_ fun _ u _ => by simp [Traced.pure_apply]
        simp [Traced.quietly, Scene.wait, Exec.update]
      · exact Exec.Balanced.ne (x := Exec.fail _) t
    · rename_i hbar
      refine Traced.bind_outcome_ne_faulted
        (Scene.onShared_ne_faulted (Wave.balanced_execute _ value hbar) t) fun _ u _ => ?_
      simp [Traced.pure_apply]

section

variable {σ : Type} {instr : Value → Formation → Traced σ Formation} {id fuel : Nat} {program : Program}

theorem Formation.repeated_ne_faulted {entered : LaneMask} {body : Formation → Traced σ Formation}
    (hkeeps : ∀ φ s φ' s', (body φ s).outcome = .done φ' s' → φ.Continues φ')
    (h : ∀ φ s, φ.left.isSome → (body φ s).outcome ≠ .faulted .controlStack) (n : Nat)
    {φ : Formation} {s : σ} (hφ : φ.left.isSome) :
    (repeated id entered body n φ s).outcome ≠ .faulted .controlStack := by
  induction n generalizing φ s with
  | zero => exact Exec.Balanced.ne (x := Exec.fail _) s
  | succ n ih =>
    unfold repeated
    refine Traced.bind_outcome_ne_faulted (h φ s hφ) fun φ' t hφ' => ?_
    split
    · simp [Traced.pure_apply]
    · exact ih ((hkeeps _ _ _ _ hφ').left.trans hφ)

mutual

theorem Node.perform_ne_faulted (hkeeps : KeepsLanes instr)
    (hinstr : ∀ v φ s, (instr v φ s).outcome ≠ .faulted .controlStack) : ∀ (node : Node) {inLoop : Bool}
    {visible : Value → Prop}, node.WellFormed program inLoop visible →
    ∀ (φ : Formation) (s : σ), (inLoop = true → φ.left.isSome) →
      (node.perform instr id fuel φ s).outcome ≠ .faulted .controlStack
  | .instr value, _, _, _, φ, s, _ => hinstr value φ s
  | .branch cond thenBlock elseBlock, inLoop, _, ⟨_, hthen, helse⟩, φ, s, hφ => by
    have hside {block : Block} (mask : LaneMask) {ψ : Formation} (t : σ)
        (hrun : ∀ φ s, (inLoop = true → φ.left.isSome) →
          (Block.perform instr id fuel block φ s).outcome ≠ .faulted .controlStack)
        (hψ : inLoop = true → ψ.left.isSome) :
        (Formation.narrowed (Block.perform instr id fuel block) mask ψ t).outcome ≠ .faulted .controlStack := by
      unfold Formation.narrowed
      split
      · simp [Traced.pure_apply]
      · exact hrun _ t hψ
    unfold Node.perform
    refine Traced.bind_outcome_ne_faulted (Exec.Balanced.ne (x := Exec.lift _) s) fun taken t _ => ?_
    refine Traced.bind_outcome_ne_faulted
      (hside taken t (Block.perform_ne_faulted hkeeps hinstr thenBlock hthen) hφ) fun φ₁ t₁ h₁ => ?_
    have hleft := (Formation.continues_of_narrowed (Block.continues_of_perform hkeeps thenBlock) h₁).left
    refine Traced.bind_outcome_ne_faulted (hside _ t₁ (Block.perform_ne_faulted hkeeps hinstr elseBlock helse)
        fun hin => hleft.trans (hφ hin)) fun φ₂ t₂ _ => ?_
    simp [Traced.pure_apply]
  | .loop body, _, _, hbody, φ, s, _ => by
    unfold Node.perform
    refine Traced.bind_outcome_ne_faulted (Formation.repeated_ne_faulted
      (Block.continues_of_perform hkeeps body) (fun ψ t hψ =>
        Block.perform_ne_faulted hkeeps hinstr body hbody ψ t fun _ => hψ) fuel rfl) fun ψ t _ => ?_
    simp [Traced.pure_apply]
  | .leave, _, _, hin, φ, s, hφ => by
    obtain ⟨left, hleft⟩ := Option.isSome_iff_exists.mp (hφ hin)
    simp [Node.perform, hleft, Traced.pure_apply]

/-- In a well-formed block only a loop is left. -/
theorem Block.perform_ne_faulted (hkeeps : KeepsLanes instr)
    (hinstr : ∀ v φ s, (instr v φ s).outcome ≠ .faulted .controlStack) : ∀ (block : Block) {inLoop : Bool}
    {visible : Value → Prop}, Block.WellFormed program inLoop visible block →
    ∀ (φ : Formation) (s : σ), (inLoop = true → φ.left.isSome) →
      (Block.perform instr id fuel block φ s).outcome ≠ .faulted .controlStack
  | [], _, _, _, φ, s, _ => by simp [Block.perform, Traced.pure_apply]
  | node :: rest, _, _, ⟨hnode, hrest⟩, φ, s, hφ => by
    unfold Block.perform
    refine Traced.bind_outcome_ne_faulted (Node.perform_ne_faulted hkeeps hinstr node hnode φ s hφ) fun φ₁ t h₁ => ?_
    have hleft := (Node.continues_of_perform hkeeps node _ _ _ _ h₁).left
    exact Block.perform_ne_faulted hkeeps hinstr rest hrest φ₁ t fun hin => hleft.trans (hφ hin)

end

end

/-! ## The record of a run -/

/-- Either the step limit is hit on the way, or the run has ended as the tree does. -/
theorem Wave.play_retraces {program : Program} {executable : Executable} {group : Workgroup} {w : Wave}
    (hexec : program.toExecutable = .ok (.ok executable)) (hgroup : group.executable = executable)
    (hpc : w.pc = 0) (others : Others) (n : Nat) (scene : Scene) :
    let tree := (Block.perform (Value.issued group others w.id w.launched) w.id n program.body w.formation
      scene).map fun φ => w.arrive φ group.executable.code.size
    ∃ c, (∀ b < c, (w.play group others b scene).Limited tree.issues) ∧
      ((∀ b ≥ c, w.play group others b scene = tree) ∨
        tree.IsCut ∧ n + 1 ≤ c ∧ ∀ b ≥ c, tree.issues <+: (w.play group others b scene).issues) := by
  intro tree
  obtain ⟨rfl, -⟩ := Program.toExecutable_eq_ok hexec
  have hcode : CodeAt group.executable.code w.pc (Block.code w.pc program.body) := by
    rw [hpc, hgroup]
    exact ⟨[], [], by simp, rfl⟩
  have hsize : w.pc + (Block.code w.pc program.body).length = group.executable.code.size := by
    rw [hpc, hgroup]
    simp
  have h := Block.retraces_perform (drives_play group others) n scene program.body hcode fun _ _ => trivial
  rw [hsize] at h
  refine h.ends fun w' t ht b => ?_
  obtain ⟨φ, -, rfl⟩ := Outcome.map_eq_done_iff.mp ht
  rw [play_of_code_eq_none (by simp [arrive])]
  rfl

/-- The branches and loops of a valid program are balanced. -/
theorem Wave.play_ne_faulted {program : Program} {executable : Executable} {group : Workgroup} {w : Wave}
    (hvalid : program.validate = .ok ()) (hexec : program.toExecutable = .ok (.ok executable))
    (hgroup : group.executable = executable) (others : Others) (hpc : w.pc = 0) (budget : Nat) (scene : Scene) :
    (w.play group others budget scene).outcome ≠ .faulted .controlStack := by
  obtain ⟨hformed, -⟩ := Program.validate_eq_ok_iff.mp hvalid
  -- With as many passes for each loop as there are operations the tree is not cut off before the wave.
  obtain ⟨c, hlimited, hend⟩ := play_retraces hexec hgroup hpc others budget scene
  intro hfault
  by_cases hlt : budget < c
  · obtain ⟨⟨id, t, hcut⟩, -⟩ := hlimited budget hlt
    rw [hfault] at hcut
    cases hcut
  · rcases hend with heq | ⟨-, hleast, -⟩
    · rw [heq budget (Nat.not_lt.mp hlt)] at hfault
      refine Block.perform_ne_faulted (keepsLanes_issued group others w.id w.launched)
        Value.issued_ne_faulted program.body hformed _ scene ?_ (Report.outcome_map_eq_faulted_iff.mp hfault)
      simp
    · omega

/-- Flat code runs the instructions of the tree of its program, on the same lanes and in the same
order, across all barriers and whatever the other waves do at them. With `b` operations a wave gets
no further than the tree with `b` passes for each loop, and if it is not cut off there it ends as the
tree does. With enough operations it gets as far as the tree with any number of passes. The branches
and loops are balanced all the time. All this is about the turns of the wave, one after the other. -/
theorem Wave.play_follows_tree {program : Program} {executable : Executable}
    (hvalid : program.validate = .ok ()) (hexec : program.toExecutable = .ok (.ok executable))
    (launch : Launch) (wave : WaveWidth) (others : Others) (w : Wave) (hpc : w.pc = 0)
    (hframes : w.frames = []) (scene : Scene) :
    let group : Workgroup := ⟨executable, launch, wave⟩
    let flat (b : Nat) := w.play group others b scene
    let tree (n : Nat) := (Block.perform (Value.issued group others w.id w.launched) w.id n
      program.body ⟨w.exec, none, w.lanes⟩ scene).map fun φ => w.arrive φ executable.code.size
    (∀ b n, b ≤ n → (flat b).issues <+: (tree n).issues ∧ (¬ (flat b).IsCut → flat b = tree n)) ∧
    (∀ n, ∃ c, ∀ b ≥ c, (tree n).issues <+: (flat b).issues ∧ (¬ (tree n).IsCut → flat b = tree n)) ∧
    (∀ b, (flat b).outcome ≠ .faulted .controlStack) ∧
    ∀ b (w' : Wave) (scene' : Scene), (w'.play group others b scene').outcome =
      carryOn group others scene' (w'.run group b scene'.shared) := by
  intro group flat tree
  have hformation : w.formation = ⟨w.exec, none, w.lanes⟩ := by rw [formation, hframes]; rfl
  have hcases (n : Nat) : ∃ c, (∀ b < c, (flat b).Limited (tree n).issues) ∧ ((∀ b ≥ c, flat b = tree n) ∨
        (tree n).IsCut ∧ n + 1 ≤ c ∧ ∀ b ≥ c, (tree n).issues <+: (flat b).issues) := by
    have h := play_retraces hexec (show group.executable = executable from rfl) hpc others n scene
    rwa [hformation] at h
  refine ⟨fun b n hle => ?_, fun n => ?_, fun b => ?_, outcome_play⟩
  · obtain ⟨c, hlimited, hend⟩ := hcases n
    by_cases hlt : b < c
    · obtain ⟨hcut, hpre⟩ := hlimited b hlt
      exact ⟨hpre, fun hnot => absurd hcut hnot⟩
    · rcases hend with heq | ⟨-, hleast, -⟩
      · rw [heq b (Nat.not_lt.mp hlt)]
        exact ⟨List.prefix_rfl, fun _ => rfl⟩
      · omega
  · obtain ⟨c, -, hend⟩ := hcases n
    refine ⟨c, fun b hb => ?_⟩
    rcases hend with heq | ⟨hcut, -, hpre⟩
    · rw [heq b hb]
      exact ⟨List.prefix_rfl, fun _ => rfl⟩
    · exact ⟨hpre b hb, fun hnot => absurd hcut hnot⟩
  · exact play_ne_faulted hvalid hexec rfl others hpc b scene

/-- A barrier in a loop that the first lane leaves before the others. -/
def staggeredProgram : Program where
  stage := .vertex
  definitions := #[⟨.intrinsic (.input .localInvocationIndex), .u32⟩, ⟨.const .u32 1, .u32⟩,
    ⟨.binary .lt ⟨0⟩ ⟨1⟩, .bool⟩, ⟨.intrinsic .barrier, .void⟩, ⟨.undef .u32, .u32⟩]
  body := [.instr ⟨0⟩, .instr ⟨1⟩, .instr ⟨2⟩,
    .loop [.instr ⟨3⟩, .branch ⟨2⟩ [.leave] [], .instr ⟨4⟩, .leave]]

theorem Wave.play_follows_tree_staggered :
    let executable : Executable := ⟨staggeredProgram, (Block.code 0 staggeredProgram.body).toArray⟩
    let group : Workgroup := ⟨executable, { numLanes := 2 }, .wave32⟩
    ∃ c, ∀ b ≥ c, ((Wave.start group 0).play group (fun _ s => s) b ⟨{ memory := {} }, 0⟩).issues =
      [⟨⟨0⟩, ⟨3⟩⟩, ⟨⟨1⟩, ⟨3⟩⟩, ⟨⟨2⟩, ⟨3⟩⟩, ⟨⟨3⟩, ⟨3⟩⟩, ⟨⟨4⟩, ⟨2⟩⟩] := by
  intro executable group
  obtain ⟨-, hreach, -⟩ := Wave.play_follows_tree (show staggeredProgram.validate = .ok () from rfl)
    rfl group.launch group.wave (fun _ s => s) (Wave.start group 0) rfl rfl ⟨{ memory := {} }, 0⟩
  obtain ⟨c, hc⟩ := hreach 1
  refine ⟨c, fun b hb => ?_⟩
  have hend := (hc b hb).2 (by decide +kernel)
  exact (congrArg Report.issues hend).trans (by decide +kernel)

end PrimitiveShader
