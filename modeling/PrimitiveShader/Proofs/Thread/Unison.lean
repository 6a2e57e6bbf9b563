import PrimitiveShader.Proofs.Emission.Script
import PrimitiveShader.Proofs.Thread.Abreast

/-!
# Two runs of a script

Two runs of a script on different memories stay side by side. In each segment of a course the waves of both
runs do what the course promises, and the conditions of its branches are known, so both take the same
operations and as much is counted (`Workgroup.Course.turn_twin`). From sweep to sweep and from barrier to
barrier the runs come to the same end, or hit the step limit at the same place (`Workgroup.Script.rounds_twin`).
-/

namespace PrimitiveShader

variable {ops : List CodeOp}

/-! ## Clear code -/

section

variable {program : Program} {known : Value → Prop}

mutual

theorem Node.Clear.code : ∀ {node : Node} (start : Nat), node.Clear program known →
    ∀ op ∈ node.code start, op.Clear program known
  | .instr value, start, h, op, hop => by
    obtain rfl := List.mem_singleton.mp hop
    exact h
  | .branch cond thenBlock elseBlock, start, ⟨hcond, hthen, helse⟩, op, hop => by
    simp only [Node.code, List.mem_append, List.mem_cons, List.not_mem_nil, or_false] at hop
    rcases hop with ((rfl | hop) | rfl | hop) | rfl
    · exact hcond
    · exact hthen.code _ op hop
    · trivial
    · exact helse.code _ op hop
    · trivial
  | .loop body, _, h, _, _ => h.elim
  | .leave, _, h, _, _ => h.elim

/-- The way through the code of a clear block is clear. -/
theorem Block.Clear.code : ∀ {block : Block} (start : Nat), Block.Clear program known block →
    ∀ op ∈ Block.code start block, op.Clear program known
  | [], _, _, _, hop => by cases hop
  | node :: rest, start, ⟨hnode, hrest⟩, op, hop =>
    (List.mem_append.mp hop).elim (hnode.code start op) (Block.Clear.code _ hrest op)

end

end

namespace Wave

variable {group : Workgroup} {known : Value → Prop} {start n : Nat} {op : CodeOp} {w w' : Wave} {s s' : Shared}

/-- Only the budget of a turn has a limit. -/
theorem step_ends (hop : op.Clear group.program known) (s : Shared) :
    (w.step group op s).Ends RunError.OfStep True fun _ _ => True := by
  have steer (r : Except Fault Wave) : ((do return (← r, false) : Exec Shared (Wave × Bool)) s).Ends
      RunError.OfStep True fun _ _ => True :=
    .bind (.lift (.of_admitted trivial fun _ => trivial))
  cases op with
  | instr value =>
    obtain ⟨instr, hinstr, hquery, -⟩ := hop
    change Outcome.Ends _ _ _ (w.stepInstr group value s)
    unfold stepInstr
    split
    · trivial
    · simp only [hinstr, Exec.liftM_ok, pure_bind]
      split
      · split
        · trivial
        · exact nofun
      · exact .bind ((execute_charges value hquery s).mono fun _ _ _ _ => trivial)
  | loop => trivial
  | branch | otherwise | endBranch | leave | endLoop => exact steer _

/-- An operation of a turn that succeeds or hits the limit succeeds. -/
theorem step_eq_done_of_ensures (hop : op.Clear group.program known) {α : Type}
    {k : Wave × Bool → Exec Shared α} {P : α → Shared → Prop} (h : ((w.step group op >>= k) s).Ensures False P) :
    ∃ p t, w.step group op s = .done p t ∧ (k p t).Ensures False P := by
  have hends := step_ends (w := w) hop s
  rw [Exec.bind_apply] at h
  cases hs : w.step group op s with
  | done p t =>
    rw [hs] at h
    exact ⟨p, t, rfl, h⟩
  | failed error t =>
    rw [hs] at h hends
    cases error with
    | stepLimit id => exact absurd rfl (hends id)
    | _ => exact h.elim
  | faulted fault =>
    rw [hs] at h
    exact h.elim

/-- Waves abreast take a clear way side by side, if neither of them fails. -/
theorem Abreast.turn (hcode : ∀ (pc : Nat) (op : CodeOp), start ≤ pc → group.executable.code[pc]? = some op →
      op.Clear group.program known ∧ op.From start) {budget : Nat} {P P' : Pause → Shared → Prop}
    (h : w.Abreast n known w') (hpc : start ≤ w.pc) (hbare : s'.result.bare = s.result.bare)
    (hw : (w.turn group budget s).Ensures False P) (hw' : (w'.turn group budget s').Ensures False P') :
    (w.turn group budget s).Twin (fun _ _ => True)
      (fun p t p' t' => p.Beside (Abreast n known) p' ∧ t'.result.bare = t.result.bare) (w'.turn group budget s') := by
  refine (Wave.turn_twin (E := fun _ _ => True)
    (J := fun b w s w' s' => w.Abreast n known w' ∧ start ≤ w.pc ∧ s'.result.bare = s.result.bare ∧
      (w.turn group b s).Ensures False P ∧ (w'.turn group b s').Ensures False P')
    (P := fun w s w' s' => w.Abreast n known w' ∧ s'.result.bare = s.result.bare)
    (fun h => ⟨h.1.pc_eq, h.1.id_eq, trivial, h.1, h.2.2.1⟩) ?_ ⟨h, hpc, hbare, hw, hw'⟩).mono ?_
  · rintro b w s w' s' op hop ⟨h, hpc, hbare, hw, hw'⟩
    obtain ⟨hclear, hfrom⟩ := hcode w.pc op hpc hop
    rw [turn_succ hop] at hw
    rw [turn_succ (h.pc_eq ▸ hop)] at hw'
    obtain ⟨⟨w₁, flag⟩, t, hs, hw⟩ := step_eq_done_of_ensures hclear hw
    obtain ⟨⟨w₁', flag'⟩, t', hs', hw'⟩ := step_eq_done_of_ensures hclear hw'
    obtain ⟨hflag, hwave, hbare'⟩ := h.step hclear hbare hs hs'
    rw [hs, hs']
    refine ⟨hflag, ⟨hwave, hbare'⟩, ?_⟩
    rintro rfl
    obtain rfl : flag' = false := hflag
    exact ⟨hwave, le_pc_of_step hfrom hs hpc, hbare', hw, hw'⟩
  · rintro p t p' t' - - ⟨hhalt, hbudget, hwave, hbare'⟩
    exact ⟨⟨hhalt, hbudget, hwave⟩, hbare'⟩

end Wave

/-! ## Segments -/

/-- Code that is cut off behind some operations ends with them. -/
theorem Workgroup.codeAt_cut {group : Workgroup} {pc : Nat}
    (h : CodeAt group.executable.code pc ops) : CodeAt (group.cut (pc + ops.length)).executable.code pc ops ∧
      (group.cut (pc + ops.length)).executable.code.size = pc + ops.length := by
  obtain ⟨before, after, hcode, rfl⟩ := h
  have htake : (group.cut (before.length + ops.length)).executable.code.toList = before ++ ops := by
    change (group.executable.code.extract 0 (before.length + ops.length)).toList = _
    rw [Array.toList_extract, hcode, ← List.length_append]
    exact List.take_left
  refine ⟨⟨before, [], by rw [htake, List.append_nil], rfl⟩, ?_⟩
  rw [← Array.length_toList, htake, List.length_append]

/-- In code that ends with some operations there is nothing else from their start on. -/
theorem CodeAt.mem {code : Array CodeOp} {pc k : Nat} {op : CodeOp} (h : CodeAt code pc ops)
    (hsize : code.size = pc + ops.length) (hk : pc ≤ k) (hop : code[k]? = some op) : op ∈ ops := by
  obtain ⟨before, after, hcode, rfl⟩ := h
  have hafter : after = [] := by
    rw [← Array.length_toList, hcode, List.length_append, List.length_append] at hsize
    exact List.eq_nil_of_length_eq_zero (by omega)
  rw [← Array.getElem?_toList, hcode, hafter, List.append_nil, List.getElem?_append_right hk] at hop
  exact List.mem_of_getElem? hop

/-- The setting with the code before operation `stop` only. -/
def Setting.cut (c : Setting) (stop : Nat) : Setting := { c with group := c.group.cut stop }

section

variable {c : Setting} {id stop : Nat} {lanes : Array Lane} {s s' : Shared} {T : Nat → Thread}

/-- The threads of a wave do not depend on its code. -/
theorem Crew.cut_iff : Crew (c.cut stop) id lanes s T ↔ Crew c id lanes s T :=
  ⟨fun h => ⟨h.count, h.lane, h.sized, h.view, h.primitives, h.vertices, h.space, h.obeys, h.share⟩,
    fun h => ⟨h.count, h.lane, h.sized, h.view, h.primitives, h.vertices, h.space, h.obeys, h.share⟩⟩

theorem Block.lockstep_cut (group : Workgroup) (stop id fuel : Nat) (block : Block) :
    Block.lockstep (group.cut stop) id fuel block = Block.lockstep group id fuel block := by
  funext φ s
  have hcut := congrFun (Block.perform_lockstep (group.cut stop) id fuel block φ) s
  exact congrArg Report.outcome (hcut.symm.trans (congrFun (Block.perform_lockstep group id fuel block φ) s))

/-- A block is run without the code behind it. -/
theorem Block.Brings.cut {block : Block} {Q : (Nat → Thread) → Prop} (h : Block.Brings c id block Q T)
    (stop : Nat) : Block.Brings (c.cut stop) id block Q T := by
  intro fuel lanes s hcrew
  change Outcome.Ensures _ _ (Block.lockstep (c.group.cut stop) id fuel block _ s)
  rw [Block.lockstep_cut]
  refine (h fuel lanes s (Crew.cut_iff.mp hcrew)).mono ?_
  rintro φ t - ⟨hexec, hleft, T', hcrew', hsteps, hQ⟩
  exact ⟨hexec, hleft, T', Crew.cut_iff.mpr hcrew',
    ⟨hsteps.bytes, hsteps.cells, hsteps.primitives, hsteps.vertices, hsteps.allocation⟩, hQ⟩

end

/-- The lanes of wave `id` that exist. -/
def Workgroup.crewSize (group : Workgroup) (id : Nat) : Nat :=
  min (group.launch.numLanes - id * group.wave.size) group.wave.size

theorem Setting.mem_launched_iff_lt {c : Setting} {id l : Nat} :
    l ∈ (c.launched id).lanes ↔ l < c.group.crewSize id := by
  rw [Setting.mem_launched]
  change l < c.group.wave.size ∧ id * c.group.wave.size + l < c.group.launch.numLanes ↔ _
  unfold Workgroup.crewSize
  omega

/-- A wave in two runs, at the start of code whose values have number `n` or more: both have kept a promise,
nothing is in the registers of the code yet that would tell the runs apart, and as much has been counted. -/
structure Crew.Level (c : Setting) (id n : Nat) (promise : Promise) (lanes lanes' : Array Lane)
    (s s' : Shared) : Prop where
  first : ∃ T, Crew c id lanes s T ∧ c.Keeps id promise T
  second : ∃ T, Crew c id lanes' s' T ∧ c.Keeps id promise T
  fresh : LanesAgree (c.group.crewSize id) (fun v => n ≤ v.index) lanes lanes'
  counted : s'.result.bare = s.result.bare

namespace Workgroup

variable {known : Value → Prop} {group : Workgroup} {own : Ownership} {id n n' n'' pc : Nat} {pre mid post : Promise}
  {block rest : Block} {lanes lanes' : Array Lane} {s s' : Shared} {R : Pause → Shared → Pause → Shared → Prop}

/-- Before a segment the lanes agree on what is known, and on the registers behind those of the segment. -/
theorem agree_of_level (h : Crew.Level ⟨group, own, False⟩ id n pre lanes lanes' s s')
    (hknown : ∀ v, known v → v.index < n → ∀ i < group.launch.numLanes, ∀ t t', pre i t →
      pre i t' → t.lane.read v = t'.lane.read v) (hn : n ≤ n') :
    LanesAgree (group.crewSize id) (fun v => known v ∨ n' ≤ v.index) lanes lanes' := by
  refine .of_read h.fresh.count fun l hl v hv => ?_
  by_cases hold : v.index < n
  · obtain ⟨T, hcrew, hpre⟩ := h.first
    obtain ⟨T', hcrew', hpre'⟩ := h.second
    have hmem : l ∈ (Setting.launched ⟨group, own, False⟩ id).lanes := Setting.mem_launched_iff_lt.mpr hl
    obtain ⟨hsize, hlanes⟩ := Setting.mem_launched.mp hmem
    rw [hcrew.readRegister_eq hsize, hcrew'.readRegister_eq hsize]
    exact hknown v (hv.resolve_right (by omega)) hold _ hlanes _ _ (hpre' l hmem) (hpre l hmem)
  · exact h.fresh.read hl (Nat.le_of_not_lt hold)

/-- Two turns of a wave that begin at `pc`, with related ends. -/
def TurnsPair (group : Workgroup) (id pc budget : Nat) (R : Pause → Shared → Pause → Shared → Prop)
    (lanes lanes' : Array Lane) (s s' : Shared) : Prop :=
  ((group.standing id pc lanes).turn group budget s).Twin (fun _ _ => True) R
    ((group.standing id pc lanes').turn group budget s')

/-- A segment of a course, and what comes behind it. -/
theorem segment_twin (hid : id < group.numWaves) (hbrings : ∀ T, Setting.Keeps ⟨group, own, False⟩ id pre T →
      Block.Brings ⟨group, own, False⟩ id block (Setting.Keeps ⟨group, own, False⟩ id mid) T)
    (hbar : block.NoBarrier group.program)
    (hclear : (∃ i < group.launch.numLanes, ∃ t, pre i t) → Block.Clear group.program known block)
    (hknown : ∀ v, known v → v.index < n → ∀ i < group.launch.numLanes, ∀ t t', pre i t →
      pre i t' → t.lane.read v = t'.lane.read v) (hn : n ≤ n') (hbelow : ∀ v ∈ Block.values block, v.index < n')
    (hcode : CodeAt group.executable.code pc (Block.code pc block))
    (h : Crew.Level ⟨group, own, False⟩ id n pre lanes lanes' s s') (budget : Nat)
    (hrest : ∀ b lanes₁ lanes₁' t t', Crew.Level ⟨group, own, False⟩ id n' mid lanes₁ lanes₁' t t' →
      group.TurnsPair id (pc + (Block.code pc block).length) b R lanes₁ lanes₁' t t') :
    group.TurnsPair id pc budget R lanes lanes' s s' := by
  obtain ⟨T, hcrew, hpre⟩ := h.first
  obtain ⟨T', hcrew', hpre'⟩ := h.second
  obtain ⟨stop, hstop⟩ : ∃ stop, stop = pc + (Block.code pc block).length := ⟨_, rfl⟩
  obtain ⟨hcut, hend⟩ := codeAt_cut hcode
  rw [← hstop] at hcut hend hrest
  -- Each run on its own gets to the end of the segment.
  have hone {lanes : Array Lane} {s : Shared} {T : Nat → Thread}
      (hcrew : Crew ⟨group, own, False⟩ id lanes s T) (hpre : Setting.Keeps ⟨group, own, False⟩ id pre T) :=
    ((hbrings T hpre).cut stop).turn_finish hcut (hend.trans hstop) hbar (Crew.cut_iff.mpr hcrew) budget
  have hsome : ∃ i < group.launch.numLanes, ∃ t, pre i t := by
    have hzero := zero_mem_launched ⟨group, own, False⟩ hid
    exact ⟨_, (Setting.mem_launched.mp hzero).2, _, hpre 0 hzero⟩
  have hclear' : Block.Clear group.program (fun v => known v ∨ n' ≤ v.index) block :=
    (hclear hsome).mono (.refl _) (fun _ hv => .inl hv) block fun v hv hor =>
      hor.resolve_right (Nat.not_le_of_lt (hbelow v hv))
  have hbeside : (group.standing id pc lanes).Abreast (group.crewSize id) (fun v => known v ∨ n' ≤ v.index)
      (group.standing id pc lanes') := by
    refine ⟨⟨rfl, agree_of_level h hknown hn⟩, fun l hl => ?_, fun frame hframe => ?_⟩
    · exact (Setting.mem_launched_iff_lt (c := ⟨group, own, False⟩)).mp hl
    · cases hframe
  have hway : ∀ (k : Nat) (op : CodeOp), pc ≤ k → (group.cut stop).executable.code[k]? = some op →
      op.Clear (group.cut stop).program (fun v => known v ∨ n' ≤ v.index) ∧ op.From pc := fun k op hk hop =>
    have hmem := hcut.mem (hend.trans hstop) hk hop
    ⟨hclear'.code pc op hmem, Block.from_of_code (Nat.le_refl pc) hmem⟩
  have htwin := hbeside.turn hway (Nat.le_refl pc) h.counted (hone hcrew hpre) (hone hcrew' hpre')
  unfold TurnsPair
  rw [Wave.turn_eq_cut group stop, Wave.turn_eq_cut group stop]
  refine .bind ((htwin.and_ensures (hone hcrew hpre) (hone hcrew' hpre')).mono ?_)
  rintro ⟨w, b, halt⟩ t ⟨w', b', halt'⟩ t' - - ⟨⟨hpause, hbare⟩, ⟨rfl, lanes₁, hw, T₁, hcrew₁, -, hmid⟩,
    ⟨rfl, lanes₁', hw', T₁', hcrew₁', -, hmid'⟩⟩
  obtain rfl : b' = b := hpause.resume.budget
  have hwaves : w.Abreast (group.crewSize id) (fun v => known v ∨ n' ≤ v.index) w' := hpause.resume.wave
  dsimp only at hw hw'
  rw [← hstop] at hw hw'
  subst hw hw'
  exact hrest b' lanes₁ lanes₁' t t' ⟨⟨T₁, Crew.cut_iff.mp hcrew₁, hmid⟩, ⟨T₁', Crew.cut_iff.mp hcrew₁', hmid'⟩,
    LanesAgree.mono hwaves.lanes fun _ hv => .inr hv, hbare⟩

theorem Course.turn_twin (h : group.Course own n pre block n' post) (hid : id < group.numWaves)
    (hcode : CodeAt group.executable.code pc (Block.code pc block))
    (hlevel : Crew.Level ⟨group, own, False⟩ id n pre lanes lanes' s s') (budget : Nat)
    (hrest : ∀ b lanes₁ lanes₁' t t', Crew.Level ⟨group, own, False⟩ id n' post lanes₁ lanes₁' t t' →
      group.TurnsPair id (pc + (Block.code pc block).length) b R lanes₁ lanes₁' t t') :
    group.TurnsPair id pc budget R lanes lanes' s s' := by
  induction h generalizing pc lanes lanes' s s' budget with
  | nil => exact hrest budget lanes lanes' s s' hlevel
  | cons known hbrings hbar hclear hknown hn hbelow _ ih =>
    rw [Block.code_append] at hcode hrest
    refine segment_twin hid (hbrings id hid) hbar hclear hknown hn hbelow hcode.append_left hlevel budget
      fun b lanes₁ lanes₁' t t' hmid => ih hcode.append_right hmid b ?_
    rwa [List.length_append, ← Nat.add_assoc] at hrest

end Workgroup

/-! ## Sweeps -/

/-- The same wave in two runs, with related lanes. -/
def Wave.Counterpart (L : Nat → Array Lane → Array Lane → Prop) (w w' : Wave) : Prop :=
  w'.id = w.id ∧ L w.id w.lanes w'.lanes

namespace Workgroup

variable {id : Nat} {c : Setting} {pc pc' : Nat} {halt : Halt} {pre post : Promise} {E S : Shared → Shared → Prop}
  {L L' : Nat → Array Lane → Array Lane → Prop} {runners runners' : List Runner} {s s' : Shared}
  {T T' : Nat → Nat → Thread}

theorem ids_of_counterpart (h : List.Forall₂ (Runner.Beside (Wave.Counterpart L)) runners runners') :
    runners'.map (·.wave.id) = runners.map (·.wave.id) := by
  induction h with
  | nil => rfl
  | cons h _ ih => rw [List.map_cons, List.map_cons, h.wave.1, ih]

/-- The turns of two runs go side by side. -/
def TurnsBeside (c : Setting) (pc : Nat) (pre : Promise) (E : Shared → Shared → Prop)
    (L L' : Nat → Array Lane → Array Lane → Prop) (S : Shared → Shared → Prop) : Prop :=
  ∀ id < c.group.numWaves, ∀ b lanes lanes' s s' T T', Crew c id lanes s T → c.Keeps id pre T →
    Crew c id lanes' s' T' → c.Keeps id pre T' → L id lanes lanes' → S s s' →
    ((c.group.standing id pc lanes).turn c.group b s).Twin E
      (fun p t p' t' => p'.budget = p.budget ∧ L' id p.wave.lanes p'.wave.lanes ∧ S t t')
      ((c.group.standing id pc lanes').turn c.group b s')

/-- Waves of two runs that keep their promises, and whose turns go side by side, take a sweep side by side. -/
theorem sweeping_twin_of_lined (hone : c.Turns pc pre pc' halt post) (htwin : TurnsBeside c pc pre E L L' S)
    (hids : ∀ id ∈ runners.map (·.wave.id), id < c.group.numWaves) (hnodup : (runners.map (·.wave.id)).Nodup)
    (hbeside : List.Forall₂ (Runner.Beside (Wave.Counterpart L)) runners runners')
    (hlined : Lined c pc pre s T (runners.map (·.wave)))
    (hlined' : Lined c pc pre s' T' (runners'.map (·.wave))) (hs : S s s') : (c.group.sweeping runners s).Twin E
      (fun ps t ps' t' => List.Forall₂ (Pause.Beside (Wave.Counterpart L')) ps ps' ∧ S t t')
      (c.group.sweeping runners' s') := by
  induction hbeside generalizing s s' with
  | nil => exact ⟨.nil, hs⟩
  | @cons r r' rest rest' hr hrest ih =>
    obtain ⟨hnot, hnodup⟩ : r.wave.id ∉ rest.map (·.wave.id) ∧ (rest.map (·.wave.id)).Nodup :=
      List.nodup_cons.mp hnodup
    have hid : r.wave.id < c.group.numWaves := hids _ (by simp)
    obtain ⟨lanes, hw, hcrew, hpre⟩ := hlined r.wave (by simp)
    obtain ⟨lanes', hw', hcrew', hpre'⟩ := hlined' r'.wave (by simp)
    rw [hr.wave.1] at hw' hcrew' hpre'
    have hlanes : L r.wave.id lanes lanes' := by
      have hlanes := hr.wave.2
      rwa [show r.wave.lanes = lanes from congrArg Wave.lanes hw,
        show r'.wave.lanes = lanes' from congrArg Wave.lanes hw'] at hlanes
    have hturn := (htwin _ hid r.budget lanes lanes' s s' _ _ hcrew hpre hcrew' hpre' hlanes hs).and_ensures
      (hone _ hid r.budget lanes s _ hcrew hpre) (hone _ hid r.budget lanes' s' _ hcrew' hpre')
    rw [← hw, ← hw'] at hturn
    rw [sweeping_cons, sweeping_cons, hr.budget]
    refine .bind (hturn.mono ?_)
    rintro p t p' t' - - ⟨⟨hbudget, hL, ht⟩, ⟨hhalt, lanes₁, hp, T₁, hcrew₁, hsteps, -⟩,
      hhalt', lanes₁', hp', T₁', hcrew₁', hsteps', -⟩
    have hpause : p.Beside (Wave.Counterpart L') p' := by
      refine ⟨hhalt'.trans hhalt.symm, hbudget, ?_⟩
      rw [hp, hp'] at hL
      change Wave.Counterpart L' p.wave p'.wave
      rw [hp, hp']
      exact ⟨rfl, hL⟩
    have hnot' : r.wave.id ∉ rest'.map (·.wave.id) := by rwa [ids_of_counterpart hrest]
    have hlined₁ : Lined c pc pre t T (rest.map (·.wave)) :=
      Lined.of_steps (fun w hw => hlined w (List.mem_cons_of_mem _ hw)) hsteps hcrew₁.obeys (by simpa using hnot)
    have hlined₁' : Lined c pc pre t' T' (rest'.map (·.wave)) :=
      Lined.of_steps (fun w hw => hlined' w (List.mem_cons_of_mem _ hw)) hsteps' hcrew₁'.obeys (by simpa using hnot')
    refine .bind ((ih (fun id hmem => hids id (List.mem_cons_of_mem _ hmem)) hnodup hlined₁ hlined₁' ht).mono ?_)
    rintro ps u ps' u' - - ⟨hps, hu⟩
    exact ⟨.cons hpause hps, hu⟩

theorem sweep_twin (hone : c.Turns pc pre pc' halt post) (htwin : TurnsBeside c pc pre E L L' S)
    (hall : c.group.Complete (runners.map (·.wave)))
    (hbeside : List.Forall₂ (Runner.Beside (Wave.Counterpart L)) runners runners')
    (hlined : Lined c pc pre s T (runners.map (·.wave)))
    (hlined' : Lined c pc pre s' T' (runners'.map (·.wave))) (hs : S s s') :
    (c.group.sweeping runners s).Twin E (fun ps t ps' t' =>
      (List.Forall₂ (Runner.Beside (Wave.Counterpart L')) (ps.map Pause.resume) (ps'.map Pause.resume) ∧ S t t') ∧
        Swept c pc' halt post ps t ∧ Swept c pc' halt post ps' t') (c.group.sweeping runners' s') := by
  have hids : (runners.map (·.wave)).map (·.id) = runners.map (·.wave.id) := by simp
  have hall' : c.group.Complete (runners'.map (·.wave)) := by
    refine hall.of_ids ?_
    rw [hids, ← ids_of_counterpart hbeside]
    simp
  refine .and_ensures ?_ ((sweeping_swept hone hall hlined).mono fun _ _ _ h => h.1)
    ((sweeping_swept hone hall' hlined').mono fun _ _ _ h => h.1)
  refine (sweeping_twin_of_lined hone htwin (fun id hid => (hall.mem id).mp (hids ▸ hid)) (hids ▸ hall.nodup)
    hbeside hlined hlined' hs).mono ?_
  rintro ps t ps' t' - - ⟨hps, ht⟩
  exact ⟨resume_of_beside hps, ht⟩

/-! ## Rounds -/

variable {group : Workgroup} {Q : Unit → Shared → Unit → Shared → Prop}

/-- Where the registers of a wave are the same in two runs, if they belong to values of number `n` or more. -/
def Untouched (group : Workgroup) (n id : Nat) (lanes lanes' : Array Lane) : Prop :=
  LanesAgree (group.crewSize id) (fun v => n ≤ v.index) lanes lanes'

/-- As much has been counted in two runs. -/
def SameCounts (s s' : Shared) : Prop := s'.result.bare = s.result.bare

theorem SameCounts.meet (h : SameCounts s s') : SameCounts s.meet s'.meet := by
  have hmeet (s : Shared) : s.meet.result.bare = { s.result.bare with barriers := s.result.bare.barriers + 1 } := rfl
  unfold SameCounts at h ⊢
  rw [hmeet, hmeet, h]

variable {own : Ownership} {n n' : Nat} {block : Block}

/-- A turn through a course up to a barrier. -/
theorem Course.turn_barrier_twin (h : group.Course own n pre block n' post) {bar : Value}
    (hinstr : group.program.instr bar = .ok (.intrinsic .barrier))
    (hcode : CodeAt group.executable.code pc (Block.code pc block ++ [.instr bar]))
    (hid : id < group.numWaves) {lanes lanes' : Array Lane}
    (hlevel : Crew.Level ⟨group, own, False⟩ id n pre lanes lanes' s s') (budget : Nat) :
    group.TurnsPair id pc budget (fun p t p' t' => p'.budget = p.budget ∧
      group.Untouched n' id p.wave.lanes p'.wave.lanes ∧ SameCounts t t') lanes lanes' s s' := by
  refine h.turn_twin hid hcode.append_left hlevel budget fun b lanes₁ lanes₁' t t' hend => ?_
  have hop := hcode.append_right.head
  unfold TurnsPair
  cases b with
  | zero =>
    rw [Wave.turn_zero hop, Wave.turn_zero hop]
    exact ⟨rfl, trivial⟩
  | succ b =>
    have hsome := launched_ne_empty ⟨group, own, False⟩ hid
    rw [turn_barrier hop hinstr hsome b, turn_barrier hop hinstr hsome b]
    exact ⟨rfl, hend.fresh, hend.counted⟩

/-- A turn through a course up to the end of the program. -/
theorem Course.turn_finish_twin (h : group.Course own n pre block n' post)
    (hcode : CodeAt group.executable.code pc (Block.code pc block))
    (hend : group.executable.code.size = pc + (Block.code pc block).length)
    (hid : id < group.numWaves) {lanes lanes' : Array Lane}
    (hlevel : Crew.Level ⟨group, own, False⟩ id n pre lanes lanes' s s') (budget : Nat) :
    group.TurnsPair id pc budget (fun p t p' t' => p'.budget = p.budget ∧
      group.Untouched n' id p.wave.lanes p'.wave.lanes ∧ SameCounts t t') lanes lanes' s s' := by
  refine h.turn_twin hid hcode hlevel budget fun b lanes₁ lanes₁' t t' hlast => ?_
  have hnone := Array.getElem?_eq_none (Nat.le_of_eq hend)
  unfold TurnsPair
  rw [Wave.turn_of_code_eq_none hnone, Wave.turn_of_code_eq_none hnone]
  exact ⟨rfl, hlast.fresh, hlast.counted⟩

/-- Two runs of a script come to the same end, and as much has been counted. -/
theorem Script.rounds_twin {goal : (Nat → Thread) → Prop} (h : group.Script goal n own pre block)
    (hlanes : 0 < group.launch.numLanes) (hcode : CodeAt group.executable.code pc (Block.code pc block))
    (hend : group.executable.code.size = pc + (Block.code pc block).length)
    (hall : group.Complete (runners.map (·.wave)))
    (hbeside : List.Forall₂ (Runner.Beside (Wave.Counterpart (group.Untouched n))) runners runners')
    (hlined : Lined ⟨group, own, False⟩ pc pre s T (runners.map (·.wave)))
    (hlined' : Lined ⟨group, own, False⟩ pc pre s' T' (runners'.map (·.wave))) (hs : SameCounts s s') :
    (group.rounds runners s).Twin (fun _ _ => True) (fun _ t _ t' => SameCounts t t') (group.rounds runners' s') := by
  induction h generalizing pc runners runners' s s' T T' with
  | @last n n' own pre post block hcourse hgoal =>
    have hsweep := sweep_twin (c := ⟨group, own, False⟩) (L := group.Untouched n) (S := SameCounts)
      (fun id hid b lanes s T hcrew hpre =>
        (hcourse.brings.1 id hid T hpre).turn_finish hcode hend hcourse.brings.2 hcrew b)
      (fun id hid b lanes lanes' s s' T T' hcrew hpre hcrew' hpre' hfresh hcounted =>
        hcourse.turn_finish_twin hcode hend hid ⟨⟨T, hcrew, hpre⟩, ⟨T', hcrew', hpre'⟩, hfresh, hcounted⟩ b)
      hall hbeside hlined hlined' hs
    rw [rounds_eq, rounds_eq]
    refine .bind (hsweep.mono ?_)
    rintro ps t ps' t' - - ⟨⟨-, ht⟩, hswept, hswept'⟩
    rw [afterSweep_of_finished hswept.halt, afterSweep_of_finished hswept'.halt]
    exact ht
  | @barrier n n' n'' own pre mid block rest bar own' next hcourse hinstr hn hnext hrest ih =>
    obtain ⟨hleft, hright, hsize⟩ := codeAt_barrier hcode hend
    have hsweep := sweep_twin (c := ⟨group, own, False⟩) (L := group.Untouched n) (S := SameCounts)
      (fun id hid b lanes s T hcrew hpre => (hcourse.brings.1 id hid T hpre).turn_barrier hleft hcourse.brings.2
        hinstr (launched_ne_empty _ hid) hcrew b)
      (fun id hid b lanes lanes' s s' T T' hcrew hpre hcrew' hpre' hfresh hcounted =>
        hcourse.turn_barrier_twin hinstr hleft hid ⟨⟨T, hcrew, hpre⟩, ⟨T', hcrew', hpre'⟩, hfresh, hcounted⟩ b)
      hall hbeside hlined hlined' hs
    rw [rounds_eq, rounds_eq]
    refine .bind (hsweep.mono ?_)
    rintro ps t ps' t' - - ⟨⟨hps, ht⟩, hswept, hswept'⟩
    obtain ⟨U, hU⟩ := hswept.lined
    obtain ⟨U', hU'⟩ := hswept'.lined
    rw [afterSweep_of_barrier (hswept.all.ne_nil hlanes) hswept.halt,
      afterSweep_of_barrier (hswept'.all.ne_nil hlanes) hswept'.halt]
    have hcount := congrArg WorkgroupResult.barriers (show t'.result.bare = t.result.bare from ht)
    refine meeting_twin hcount
      (ih hright hsize hswept.all ?_ (lined_meet hU own' ?_) (lined_meet hU' own' ?_) (.meet ht))
    · exact hps.imp fun r r' h => ⟨h.budget, h.wave.1, h.wave.2.mono fun v hv => Nat.le_trans hn hv⟩
    · exact hnext _ _ (fun i hi => lined_promise hswept.all hU hi) fun i hi a ha => lined_view hswept.all hU hi ha
    · exact hnext _ _ (fun i hi => lined_promise hswept'.all hU' hi) fun i hi a ha => lined_view hswept'.all hU' hi ha

end Workgroup

end PrimitiveShader
