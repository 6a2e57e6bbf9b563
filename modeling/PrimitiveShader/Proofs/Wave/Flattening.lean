import PrimitiveShader.Proofs.Code
import PrimitiveShader.Proofs.Wave.Structured

/-!
# Flat code and structured control flow

The flat code of a block does to a wave what `Block.perform` does to its formation: the same
instructions are run on the same lanes and with the same end, unless the step limit is hit on the
way, and a large enough limit is not hit (`Block.retraces_perform`). Between the two stand the frames:
`Wave.formation` reads off them who has left the innermost loop, and `Wave.arrive` writes it back.

This holds of any way to run a wave through flat code that handles the control operations as
`Wave.steer` does (`Drives`). One such way is a turn of a wave, so flat code without barriers runs in
lockstep (`Block.follows`).
-/

namespace PrimitiveShader

/-! ## Code at a place -/

/-- The operations `ops` stand in `code` from number `pc` on. -/
def CodeAt (code : Array CodeOp) (pc : Nat) (ops : List CodeOp) : Prop :=
  ∃ before after, code.toList = before ++ ops ++ after ∧ before.length = pc

namespace CodeAt

variable {code : Array CodeOp} {pc : Nat} {a b : List CodeOp} {op : CodeOp}

theorem append_left (h : CodeAt code pc (a ++ b)) : CodeAt code pc a := by
  obtain ⟨before, after, hcode, hpc⟩ := h
  exact ⟨before, b ++ after, by simpa using hcode, hpc⟩

theorem append_right (h : CodeAt code pc (a ++ b)) : CodeAt code (pc + a.length) b := by
  obtain ⟨before, after, hcode, hpc⟩ := h
  exact ⟨before ++ a, after, by simpa using hcode, by simp [hpc]⟩

theorem head (h : CodeAt code pc (op :: a)) : code[pc]? = some op := by
  obtain ⟨before, after, hcode, rfl⟩ := h
  rw [← Array.getElem?_toList, hcode]
  simp

theorem tail (h : CodeAt code pc (op :: a)) : CodeAt code (pc + 1) a :=
  @append_right _ _ [op] a h

end CodeAt

/-- The code of two blocks, one after the other. -/
theorem Block.code_append (start : Nat) (a b : Block) : Block.code start (a ++ b) =
      Block.code start a ++ Block.code (start + (Block.code start a).length) b := by
  induction a generalizing start with
  | nil => simp [Block.code]
  | cons node rest ih =>
    simp only [List.cons_append, Block.code, ih, List.append_assoc, List.length_append, Nat.add_assoc]

/-- The instructions in the code of a block are its own. -/
theorem Block.mem_values_of_code {v : Value} {block : Block} {start : Nat} (h : .instr v ∈ Block.code start block) :
    v ∈ Block.values block := by
  rw [← Block.filterMap_value?_code block start]
  exact List.mem_filterMap.mpr ⟨_, h, rfl⟩

/-- The operation does not lead before operation `start` from behind it. -/
def CodeOp.From (start : Nat) : CodeOp → Prop
  | .branch _ elseAt => start ≤ elseAt
  | .otherwise endAt => start ≤ endAt
  | .endLoop loopAt => start ≤ loopAt
  | _ => True

/-- The code of a block does not lead before its start. -/
theorem Block.from_of_code {first start : Nat} {op : CodeOp} {block : Block} (hle : first ≤ start)
    (h : op ∈ Block.code start block) : op.From first := by
  obtain ⟨k, hk⟩ := List.mem_iff_getElem?.mp h
  have hfits := (Block.fitting_code block start [] []).fits hk
  cases op with
  | branch cond elseAt =>
    obtain ⟨_, _, _, -, rfl⟩ := hfits
    exact Nat.le_trans hle (by omega)
  | otherwise endAt =>
    obtain ⟨_, _, -, rfl⟩ := hfits
    exact Nat.le_trans hle (by omega)
  | endLoop loopAt =>
    obtain ⟨front, body, hfront, hplace⟩ := hfits
    have hlen := congrArg List.length hfront
    simp only [List.nil_append, List.length_take, List.length_append, List.length_cons] at hlen
    exact Nat.le_trans hle (by omega)
  | instr | endBranch | loop | leave => trivial

/-! ## Frames -/

namespace Frame

/-- The lanes that have left the innermost loop, if there is one. -/
def left? : List Frame → Option LaneMask
  | [] => none
  | .loop _ broken :: _ => some broken
  | .branch _ _ :: rest => left? rest

/-- Lets exactly the lanes `left` have left the innermost loop. -/
def setLeft (left : Option LaneMask) : List Frame → List Frame
  | [] => []
  | .loop saved broken :: rest => .loop saved (left.getD broken) :: rest
  | .branch saved otherwise :: rest => .branch saved otherwise :: setLeft left rest

theorem broken_eq (frames : List Frame) : broken frames = (left? frames).getD .empty := by
  induction frames with
  | nil => rfl
  | cons frame rest ih =>
    cases frame with
    | loop saved broken => rfl
    | branch saved otherwise => exact ih

theorem leave_eq (lanes : LaneMask) (frames : List Frame) :
    leave lanes frames = (left? frames).map fun left => setLeft (some (left.union lanes)) frames := by
  induction frames with
  | nil => rfl
  | cons frame rest ih =>
    cases frame with
    | loop saved broken => rfl
    | branch saved otherwise =>
      simp only [leave, ih, left?, Option.map_map]
      rfl

theorem setLeft_left? (frames : List Frame) : setLeft (left? frames) frames = frames := by
  induction frames with
  | nil => rfl
  | cons frame rest ih =>
    cases frame with
    | loop saved broken => rfl
    | branch saved otherwise => simp only [setLeft, left?, ih]

theorem left?_setLeft {left : Option LaneMask} {frames : List Frame}
    (h : left.isSome = (left? frames).isSome) : left? (setLeft left frames) = left := by
  induction frames with
  | nil =>
    cases left with
    | none => rfl
    | some l => cases h
  | cons frame rest ih =>
    cases frame with
    | loop saved broken =>
      obtain ⟨l, rfl⟩ := Option.isSome_iff_exists.mp h
      rfl
    | branch saved otherwise => exact ih h

theorem setLeft_setLeft {left left' : Option LaneMask} (h : left.isSome = left'.isSome)
    (frames : List Frame) : setLeft left (setLeft left' frames) = setLeft left frames := by
  induction frames with
  | nil => rfl
  | cons frame rest ih =>
    cases frame with
    | loop saved broken =>
      cases left with
      | none =>
        cases left' with
        | none => rfl
        | some l => cases h
      | some l => rfl
    | branch saved otherwise => simp only [setLeft, ih]

end Frame

namespace Wave

/-- What flat code needs to know of a wave's control state. -/
def formation (w : Wave) : Formation := ⟨w.exec, Frame.left? w.frames, w.lanes⟩

/-- The wave at operation `pc` in formation `φ`. -/
def arrive (w : Wave) (φ : Formation) (pc : Nat) : Wave :=
  { w with exec := φ.exec, frames := Frame.setLeft φ.left w.frames, lanes := φ.lanes, pc }

variable {op : CodeOp} {φ : Formation} {w w' : Wave}

theorem formation_arrive (h : φ.left.isSome = w.formation.left.isSome) (pc : Nat) : (w.arrive φ pc).formation = φ := by
  simp only [formation, arrive, Frame.left?_setLeft h]

theorem arrive_arrive {φ' : Formation} (h : φ'.left.isSome = φ.left.isSome)
    (pc pc' : Nat) : (w.arrive φ pc).arrive φ' pc' = w.arrive φ' pc' := by
  simp only [arrive, Frame.setLeft_setLeft h]

@[simp] theorem id_arrive (w : Wave) (φ : Formation) (pc : Nat) : (w.arrive φ pc).id = w.id := rfl

@[simp] theorem launched_arrive (w : Wave) (φ : Formation) (pc : Nat) :
    (w.arrive φ pc).launched = w.launched := rfl

theorem arrive_formation (w : Wave) : w.arrive w.formation w.pc = w := by
  simp only [arrive, formation, Frame.setLeft_left?]

theorem arrive_lanes (w : Wave) (lanes : Array Lane) (pc : Nat) :
    w.arrive { w.formation with lanes } pc = { w with pc, lanes } := by
  simp only [arrive, formation, Frame.setLeft_left?]

theorem le_pc_of_steer {start : Nat} (hop : op.From start)
    (h : w.steer op = .ok w') (hpc : start ≤ w.pc) : start ≤ w'.pc := by
  have hnext := Nat.le_succ_of_le hpc
  have hjump {c : Prop} [Decidable c] {target : Nat} (htarget : start ≤ target) :
      start ≤ if c then target else w.pc + 1 := by
    split
    · exact htarget
    · exact hnext
  cases op with
  | instr => exact Except.ok.inj h ▸ hpc
  | loop => exact Except.ok.inj h ▸ hnext
  | branch cond elseAt =>
    simp only [steer, enterBranch] at h
    cases hmask : w.maskOf cond with
    | error fault =>
      rw [hmask] at h
      cases h
    | ok taken =>
      rw [hmask] at h
      cases h
      exact hjump hop
  | otherwise endAt =>
    simp only [steer, turnBranch] at h
    split at h <;> cases h
    exact hjump hop
  | endBranch | leave =>
    simp only [steer, endBranch, leaveLoop] at h
    split at h <;> cases h
    exact hnext
  | endLoop loopAt =>
    simp only [steer, endLoop] at h
    split at h
    · split at h <;> cases h
      exact hnext
    · cases h
      exact Nat.le_succ_of_le hop

end Wave

/-! ## Following a formation -/

section

variable {σ ρ : Type}

/-- A way to run waves through the flat code of a workgroup: `go` takes a number of operations and a
wave. Every operation takes one step; what an instruction does to the formation of its wave is left
to `instr`, which may look at the number of the wave and at its launched lanes. -/
structure Drives (group : Workgroup) (covered : Value → Prop)
    (instr : Nat → LaneMask → Value → Formation → Traced σ Formation) (go : Nat → Wave → Traced σ ρ) : Prop where
  limit : ∀ {w : Wave} {op}, group.executable.code[w.pc]? = some op →
    go 0 w = .quietly (Exec.fail (.stepLimit w.id))
  steer : ∀ {w : Wave} {op}, group.executable.code[w.pc]? = some op → (∀ v, op ≠ .instr v) →
    ∀ b, go (b + 1) w = .quietly (Exec.lift (w.steer op)) >>= go b
  run : ∀ {w : Wave} {v}, group.executable.code[w.pc]? = some (.instr v) → covered v →
    ∀ b, go (b + 1) w = instr w.id w.launched v w.formation >>= fun φ => go b (w.arrive φ (w.pc + 1))
  keepsLanes : ∀ id launched, KeepsLanes (instr id launched)

/-- The report was cut off, by the step limit or by the bound on the passes of a loop. -/
def Report.IsCut (r : Report σ ρ) : Prop := ∃ id t, r.outcome = .failed (.stepLimit id) t

/-- Whether the step limit was hit. -/
def Outcome.hitsLimit : Outcome σ ρ → Bool
  | .failed (.stepLimit _) _ => true
  | _ => false

theorem Outcome.hitsLimit_iff {o : Outcome σ ρ} : o.hitsLimit = true ↔ ∃ id t, o = .failed (.stepLimit id) t := by
  unfold hitsLimit
  split
  · simp
  · rename_i h
    simpa using fun id t => h id t

instance (r : Report σ ρ) : Decidable r.IsCut :=
  decidable_of_iff (r.outcome.hitsLimit = true) Outcome.hitsLimit_iff

/-- The step limit is hit after some of the given instructions. -/
def Report.Limited (r : Report σ ρ) (issues : List Issue) : Prop :=
  r.IsCut ∧ r.issues <+: issues

/-- Running the wave costs a number of operations and does what `report` says. With fewer operations
the step limit is hit on the way, with more they are left for what comes after. Only a report that
itself gives up, after at least `least` operations, may be followed by something else. -/
def Retraces (go : Nat → Wave → Traced σ ρ) (least : Nat) (w : Wave) (s : σ)
    (report : Report σ Wave) : Prop :=
  ∃ cost, (∀ b < cost, (go b w s).Limited report.issues) ∧
    match report.outcome with
    | .done w' t => ∀ b, go (cost + b) w s = (go b w' t).after report.issues
    | .failed error t => (∀ b, go (cost + b) w s = ⟨report.issues, .failed error t⟩) ∨
      (∃ id, error = .stepLimit id) ∧ least ≤ cost ∧
        ∀ b, report.issues <+: (go (cost + b) w s).issues
    | .faulted fault => ∀ b, go (cost + b) w s = ⟨report.issues, .faulted fault⟩

namespace Retraces

variable {go : Nat → Wave → Traced σ ρ} {least : Nat} {w : Wave} {s : σ}

theorem refl (w : Wave) (s : σ) : Retraces go least w s ⟨[], .done w s⟩ := by
  refine ⟨0, fun b hb => absurd hb (Nat.not_lt_zero b), fun b => ?_⟩
  rw [Nat.zero_add, Report.after_nil]

theorem bind {α β : Type} {f : α → Wave} {g : β → Wave} {x : Traced σ α} {k : α → Traced σ β}
    (h : Retraces go least w s ((x s).map f))
    (hk : ∀ a t, (x s).outcome = .done a t → Retraces go least (f a) t ((k a t).map g)) :
    Retraces go least w s (((x >>= k) s).map g) := by
  obtain ⟨cost, hlimit, hend⟩ := h
  rw [Traced.bind_apply]
  rcases hx : x s with ⟨issues, ⟨a, t⟩ | ⟨error, t⟩ | fault⟩ <;> rw [hx] at hlimit hend
  · obtain ⟨cost', hlimit', hend'⟩ := hk a t (by rw [hx])
    have hgo (b : Nat) : go (cost + b) w s = (go b (f a) t).after issues := hend b
    refine ⟨cost + cost', fun b hb => ?_, ?_⟩
    · by_cases hlt : b < cost
      · obtain ⟨hout, hissues⟩ := hlimit b hlt
        exact ⟨hout, hissues.trans (List.prefix_append _ _)⟩
      · obtain ⟨b', rfl⟩ := Nat.exists_eq_add_of_le (Nat.not_lt.mp hlt)
        obtain ⟨hout, hissues⟩ := hlimit' b' (by omega)
        rw [hgo]
        exact ⟨hout, (List.prefix_append_right_inj _).mpr hissues⟩
    · simp only [Nat.add_assoc, hgo]
      rcases hk' : k a t with ⟨issues', ⟨c, u⟩ | ⟨error, u⟩ | fault⟩ <;> rw [hk'] at hend'
      · intro b
        rw [hend' b]
        exact (Report.after_append _ _ _).symm
      · rcases hend' with hend' | ⟨hlim, hleast, hpre⟩
        · exact .inl fun b => by rw [hend' b]; rfl
        · exact .inr ⟨hlim, Nat.le_add_left_of_le hleast, fun b => (List.prefix_append_right_inj _).mpr (hpre b)⟩
      · intro b
        rw [hend' b]
        rfl
  · exact ⟨cost, hlimit, hend⟩
  · exact ⟨cost, hlimit, hend⟩

theorem step {α : Type} {x : Traced σ α} {f : α → Wave} (hlimit : go 0 w = .quietly (Exec.fail (.stepLimit w.id)))
    (hstep : ∀ b, go (b + 1) w = x >>= fun a => go b (f a)) : Retraces go least w s ((x s).map f) := by
  refine ⟨1, fun b hb => ?_, ?_⟩
  · obtain rfl : b = 0 := by omega
    rw [hlimit]
    exact ⟨⟨w.id, s, rfl⟩, List.nil_prefix⟩
  · have hgo (b : Nat) : go (1 + b) w s = (x >>= fun a => go b (f a)) s := by
      rw [Nat.add_comm, hstep]
    simp only [hgo, Traced.bind_apply]
    rcases x s with ⟨issues, ⟨a, t⟩ | ⟨error, t⟩ | fault⟩
    · exact fun b => rfl
    · exact .inl fun b => rfl
    · exact fun b => rfl

variable {report : Report σ Wave}

/-- One operation with a known result, and the rest. -/
theorem jump {u : Wave} (hlimit : go 0 w = .quietly (Exec.fail (.stepLimit w.id)))
    (hstep : ∀ b, go (b + 1) w s = go b u s) (h : Retraces go least u s report) :
    Retraces go (least + 1) w s report := by
  obtain ⟨cost, hlimited, hend⟩ := h
  have hgo (b : Nat) : go (cost + 1 + b) w s = go (cost + b) u s := by
    rw [Nat.add_right_comm, hstep]
  refine ⟨cost + 1, fun b hb => ?_, ?_⟩
  · cases b with
    | zero =>
      rw [hlimit]
      exact ⟨⟨w.id, s, rfl⟩, List.nil_prefix⟩
    | succ b =>
      rw [hstep]
      exact hlimited b (by omega)
  · simp only [hgo]
    rcases report with ⟨issues, ⟨a, t⟩ | ⟨error, t⟩ | fault⟩
    · exact hend
    · exact hend.imp id fun ⟨hlim, hleast, hpre⟩ => ⟨hlim, Nat.succ_le_succ hleast, hpre⟩
    · exact hend

theorem mono (h : Retraces go least w s report) {least' : Nat}
    (hle : least' ≤ least) : Retraces go least' w s report := by
  obtain ⟨cost, hlimited, hend⟩ := h
  refine ⟨cost, hlimited, ?_⟩
  rcases report with ⟨issues, ⟨a, t⟩ | ⟨error, t⟩ | fault⟩
  · exact hend
  · exact hend.imp id fun ⟨hlim, hleast, hpre⟩ => ⟨hlim, Nat.le_trans hle hleast, hpre⟩
  · exact hend

theorem ends {go : Nat → Wave → Traced σ Wave} (h : Retraces go least w s report)
    (hend : ∀ w' t, report.outcome = .done w' t → ∀ b, go b w' t = ⟨[], .done w' t⟩) :
    ∃ c, (∀ b < c, (go b w s).Limited report.issues) ∧ ((∀ b ≥ c, go b w s = report) ∨
        report.IsCut ∧ least ≤ c ∧ ∀ b ≥ c, report.issues <+: (go b w s).issues) := by
  obtain ⟨cost, hlimited, hout⟩ := h
  refine ⟨cost, hlimited, ?_⟩
  rcases report with ⟨issues, ⟨w', t⟩ | ⟨error, t⟩ | fault⟩
  · refine .inl fun b hb => ?_
    obtain ⟨b, rfl⟩ := Nat.exists_eq_add_of_le hb
    rw [hout b, hend w' t rfl b]
    simp [Report.after]
  · refine hout.imp (fun hout b hb => ?_) fun ⟨⟨id, hid⟩, hleast, hpre⟩ =>
      ⟨⟨id, t, by rw [hid]⟩, hleast, fun b hb => ?_⟩
    · obtain ⟨b, rfl⟩ := Nat.exists_eq_add_of_le hb
      exact hout b
    · obtain ⟨b, rfl⟩ := Nat.exists_eq_add_of_le hb
      exact hpre b
  · refine .inl fun b hb => ?_
    obtain ⟨b, rfl⟩ := Nat.exists_eq_add_of_le hb
    exact hout b

end Retraces

namespace Drives

variable {group : Workgroup} {covered : Value → Prop}
  {instr : Nat → LaneMask → Value → Formation → Traced σ Formation} {go : Nat → Wave → Traced σ ρ}

/-- A control operation with a known result, and the rest. -/
theorem jump (hd : Drives group covered instr go) {least : Nat} {w u : Wave} {s : σ} {op : CodeOp}
    {report : Report σ Wave} (hop : group.executable.code[w.pc]? = some op)
    (hne : ∀ v, op ≠ .instr v) (hu : w.steer op = .ok u) (h : Retraces go least u s report) :
    Retraces go (least + 1) w s report := by
  refine .jump (hd.limit hop) (fun b => ?_) h
  rw [hd.steer hop hne, hu, Traced.bind_apply]
  rfl

end Drives

/-! ## Blocks -/

section

variable {group : Workgroup} {covered : Value → Prop}
  {instr : Nat → LaneMask → Value → Formation → Traced σ Formation} {go : Nat → Wave → Traced σ ρ} {fuel : Nat}

/-- The wave runs `block` between `start` and `stop` as its tree says. -/
def Block.Retraced (instr : Nat → LaneMask → Value → Formation → Traced σ Formation)
    (go : Nat → Wave → Traced σ ρ) (fuel : Nat) (block : Block) (start stop : Nat) : Prop :=
  ∀ (w : Wave) (s : σ), w.pc = start → Retraces go (fuel + 1) w s
    ((Block.perform (instr w.id w.launched) w.id fuel block w.formation s).map fun φ => w.arrive φ stop)

variable {body : Block} {start stop endAt : Nat} {w : Wave}

/-- One side of a branch, which is passed over when no lane takes it. -/
theorem Block.Retraced.narrowed {block : Block}
    (h : Block.Retraced instr go fuel block start stop) {φ : Formation} {mask : LaneMask}
    (hφ : { φ with exec := mask } = w.formation) (hpc : w.pc = if mask.isEmpty then stop else start) (s : σ) :
    Retraces go (fuel + 1) w s
      ((Formation.narrowed (Block.perform (instr w.id w.launched) w.id fuel block) mask φ s).map
        fun φ => w.arrive φ stop) := by
  unfold Formation.narrowed
  rw [hφ]
  split at hpc
  · rename_i hempty
    rw [if_pos hempty]
    change Retraces go (fuel + 1) w s ⟨[], .done (w.arrive w.formation stop) s⟩
    rw [← hpc, Wave.arrive_formation]
    exact .refl w s
  · rename_i hempty
    rw [if_neg hempty]
    exact h w s hpc

section

variable (hd : Drives group covered instr go)
include hd

/-- The passes of a loop, up to the operation that ends the last one. Every pass costs a step. -/
theorem Block.Retraced.repeated (h : Block.Retraced instr go fuel body (start + 1) stop)
    (hend : group.executable.code[stop]? = some (.endLoop start)) {n : Nat} (hn : n ≤ fuel + 1) {entered : LaneMask}
    (hpc : w.pc = start + 1)
    (hexec : w.formation.exec = entered.diff w.formation.gone) (s : σ) : Retraces go n w s
      ((Formation.repeated w.id entered (Block.perform (instr w.id w.launched) w.id fuel body) n w.formation s).map
        fun φ => w.arrive φ stop) := by
  induction n generalizing w s with
  | zero =>
    exact ⟨0, fun b hb => absurd hb (Nat.not_lt_zero b), .inr ⟨⟨w.id, rfl⟩, Nat.le_refl _, fun b => List.nil_prefix⟩⟩
  | succ n ih =>
    unfold Formation.repeated
    refine .bind ((h w s hpc).mono hn) fun φ t hφ => ?_
    have hcont := @Block.continues_of_perform σ (instr w.id w.launched) w.id fuel (hd.keepsLanes w.id w.launched) body
    have hc := hcont _ _ _ _ hφ
    have hexec' := hc.exec_eq_diff hexec
    rw [← hexec']
    split
    · exact .refl _ _
    · rename_i hon
      -- Some lane goes on: back to the start, at the cost of one step.
      have hu : (w.arrive φ stop).steer (.endLoop start) = .ok (w.arrive φ (start + 1)) := by
        simp only [Wave.steer, Wave.endLoop]
        rw [if_neg (show ¬ (w.arrive φ stop).exec.isEmpty from hon)]
        rfl
      refine hd.jump hend (by simp) hu ?_
      have hformation := Wave.formation_arrive hc.left (start + 1)
      have hrest := ih (by omega) (w := w.arrive φ (start + 1)) rfl (by rw [hformation]; exact hexec') t
      rw [hformation, Wave.id_arrive, Wave.launched_arrive] at hrest
      rwa [Report.map_congr fun ψ u hψ => Wave.arrive_arrive
        (Formation.repeated_outcome_eq_done hcont hexec' hψ).1.left _ _] at hrest

/-- The two sides of a branch, one after the other. -/
theorem Wave.retraces_branch {cond : Value}
    {thenBlock elseBlock : Block} {elseAt : Nat} (hbranch : group.executable.code[w.pc]? = some (.branch cond elseAt))
    (hthen : Block.Retraced instr go fuel thenBlock (w.pc + 1) elseAt)
    (hturn : group.executable.code[elseAt]? = some (.otherwise endAt))
    (helse : Block.Retraced instr go fuel elseBlock (elseAt + 1) endAt)
    (hend : group.executable.code[endAt]? = some .endBranch) (s : σ) : Retraces go (fuel + 1) w s
      (((Node.branch cond thenBlock elseBlock).perform (instr w.id w.launched) w.id fuel
        w.formation s).map fun φ => w.arrive φ (endAt + 1)) := by
  let entered (taken : LaneMask) : Wave :=
    { w with
      frames := .branch w.exec (w.exec.diff taken) :: w.frames
      exec := taken
      pc := if taken.isEmpty then elseAt else w.pc + 1 }
  have hmask : w.maskOf cond = (w.formation.toWave w.id).maskOf cond :=
    Wave.maskOf_of_same rfl rfl cond
  have hcont (block : Block) :=
    @Block.continues_of_perform σ (instr w.id w.launched) w.id fuel (hd.keepsLanes w.id w.launched) block
  unfold Node.perform
  refine .bind (f := entered) (.step (hd.limit hbranch) fun b => ?_) fun taken t _ => ?_
  · rw [hd.steer hbranch (by simp), ← hmask]
    simp only [Wave.steer, Wave.enterBranch]
    cases w.maskOf cond <;> rfl
  refine .bind (f := fun φ => (entered taken).arrive φ elseAt)
    (hthen.narrowed (w := entered taken) rfl rfl t) fun φ₁ t₁ h₁ => ?_
  have hleft₁ : φ₁.left.isSome = w.formation.left.isSome :=
    (Formation.continues_of_narrowed (hcont thenBlock) h₁).left
  let turned : Wave :=
    { (entered taken).arrive φ₁ elseAt with
      exec := w.exec.diff taken
      pc := if (w.exec.diff taken).isEmpty then endAt else elseAt + 1 }
  refine (hd.jump hturn (by simp) (u := turned) rfl ?_).mono (Nat.le_succ _)
  have hformation : { φ₁ with exec := w.formation.exec.diff taken } = turned.formation := by
    have hl : Frame.left? (Frame.setLeft φ₁.left w.frames) = φ₁.left := Frame.left?_setLeft hleft₁
    simp only [Wave.formation, turned, Wave.arrive, entered, Frame.setLeft, Frame.left?, hl]
  refine .bind (f := fun φ => turned.arrive φ endAt) (helse.narrowed (w := turned) hformation rfl t₁) fun φ₂ t₂ h₂ => ?_
  have hleft₂ : φ₂.left.isSome = φ₁.left.isSome :=
    (Formation.continues_of_narrowed (hcont elseBlock) h₂).left
  -- The end of the branch switches on who entered it and has not left the loop around it.
  let ended : Formation := { φ₂ with exec := w.formation.exec.diff φ₂.gone }
  have hframes : Frame.setLeft φ₂.left (Frame.setLeft φ₁.left w.frames) =
      Frame.setLeft φ₂.left w.frames := Frame.setLeft_setLeft hleft₂ _
  have hgone : Frame.broken (Frame.setLeft φ₂.left w.frames) = φ₂.gone := by
    rw [Frame.broken_eq, Frame.left?_setLeft (hleft₂.trans hleft₁)]
    rfl
  have hu : (turned.arrive φ₂ endAt).steer .endBranch = .ok (w.arrive ended (endAt + 1)) := by
    simp only [Wave.steer, Wave.endBranch, Wave.arrive, turned, entered, Frame.setLeft, hframes, hgone, ended]
    rfl
  exact (hd.jump hend (by simp) hu (.refl _ _)).mono (Nat.le_succ _)

theorem Wave.retraces_loop (hloop : group.executable.code[w.pc]? = some .loop)
    (hbody : Block.Retraced instr go fuel body (w.pc + 1) endAt)
    (hend : group.executable.code[endAt]? = some (.endLoop w.pc)) (s : σ) :
    Retraces go (fuel + 1) w s (((Node.loop body).perform (instr w.id w.launched) w.id fuel
      w.formation s).map fun φ => w.arrive φ (endAt + 1)) := by
  have hcont :=
    @Block.continues_of_perform σ (instr w.id w.launched) w.id fuel (hd.keepsLanes w.id w.launched) body
  have hstart : w.exec = w.exec.diff w.enterLoop.formation.gone :=
    (LaneMask.diff_eq_self fun lane _ => LaneMask.not_mem_lanes_empty lane).symm
  unfold Node.perform
  refine hd.jump hloop (by simp) (u := w.enterLoop) rfl ?_
  refine .bind (f := fun ψ => w.enterLoop.arrive ψ endAt)
    (hbody.repeated hd hend (Nat.le_succ fuel) (w := w.enterLoop) rfl hstart s) fun ψ t hψ => ?_
  obtain ⟨-, -, hempty⟩ := Formation.repeated_outcome_eq_done hcont hstart hψ
  have hu : (w.enterLoop.arrive ψ endAt).steer (.endLoop w.pc) =
      .ok (w.arrive { w.formation with lanes := ψ.lanes } (endAt + 1)) := by
    simp only [Wave.steer, Wave.endLoop]
    rw [if_pos (show (w.enterLoop.arrive ψ endAt).exec.isEmpty from hempty)]
    simp only [Wave.arrive, Wave.enterLoop, Wave.formation, Frame.setLeft, Frame.setLeft_left?]
  exact (hd.jump hend (by simp) hu (.refl _ _)).mono (Nat.le_succ _)

end

mutual

theorem Node.retraces_perform (hd : Drives group covered instr go) (fuel : Nat) {w : Wave} (s : σ) :
    ∀ (node : Node), CodeAt group.executable.code w.pc (node.code w.pc) → (∀ v ∈ node.values, covered v) →
    Retraces go (fuel + 1) w s ((node.perform (instr w.id w.launched) w.id fuel w.formation s).map
      fun φ => w.arrive φ (w.pc + (node.code w.pc).length))
  | .instr value, hcode, hcov => by
    exact .step (hd.limit hcode.head) (hd.run hcode.head (hcov value (by simp [Node.values])))
  | .branch cond thenBlock elseBlock, hcode, hcov => by
    simp only [Node.values, List.mem_append] at hcov
    simp only [Node.code] at hcode ⊢
    obtain ⟨elseAt, helseAt⟩ : ∃ n, n = w.pc + 1 + (Block.code (w.pc + 1) thenBlock).length :=
      ⟨_, rfl⟩
    rw [← helseAt] at hcode ⊢
    obtain ⟨endAt, hendAt⟩ : ∃ n, n = elseAt + 1 + (Block.code (elseAt + 1) elseBlock).length :=
      ⟨_, rfl⟩
    rw [← hendAt] at hcode ⊢
    have hthen := hcode.append_left.append_left
    have helse := hcode.append_left.append_right
    have hend := hcode.append_right
    simp only [List.length_append, List.length_cons, List.length_nil] at helse hend ⊢
    rw [show w.pc + ((Block.code (w.pc + 1) thenBlock).length + 1) = elseAt by omega] at helse
    rw [show w.pc + ((Block.code (w.pc + 1) thenBlock).length + 1 +
      ((Block.code (elseAt + 1) elseBlock).length + 1)) = endAt by omega] at hend
    rw [show w.pc + ((Block.code (w.pc + 1) thenBlock).length + 1 +
      ((Block.code (elseAt + 1) elseBlock).length + 1) + (0 + 1)) = endAt + 1 by omega]
    refine Wave.retraces_branch hd hthen.head ?_ helse.head ?_ hend.head s
    · intro u t hpc
      have hcode := hthen.tail
      rw [helseAt]
      rw [← hpc] at hcode ⊢
      exact Block.retraces_perform hd fuel t thenBlock hcode fun v hv => hcov v (.inl hv)
    · intro u t hpc
      have hcode := helse.tail
      rw [hendAt]
      rw [← hpc] at hcode ⊢
      exact Block.retraces_perform hd fuel t elseBlock hcode fun v hv => hcov v (.inr hv)
  | .loop body, hcode, hcov => by
    simp only [Node.values] at hcov
    simp only [Node.code] at hcode ⊢
    obtain ⟨endAt, hendAt⟩ : ∃ n, n = w.pc + 1 + (Block.code (w.pc + 1) body).length := ⟨_, rfl⟩
    have hbody := hcode.append_left
    have hend := hcode.append_right
    simp only [List.length_append, List.length_cons, List.length_nil] at hend ⊢
    rw [show w.pc + ((Block.code (w.pc + 1) body).length + 1) = endAt by omega] at hend
    rw [show w.pc + ((Block.code (w.pc + 1) body).length + 1 + (0 + 1)) = endAt + 1 by omega]
    refine Wave.retraces_loop hd hbody.head ?_ hend.head s
    intro u t hpc
    have hcode := hbody.tail
    rw [hendAt]
    rw [← hpc] at hcode ⊢
    exact Block.retraces_perform hd fuel t body hcode hcov
  | .leave, hcode, hcov => by
    refine .step (hd.limit hcode.head) fun b => ?_
    rw [hd.steer hcode.head (by simp)]
    simp only [Wave.steer, Wave.leaveLoop, Frame.leave_eq, Node.perform, Wave.formation]
    cases Frame.left? w.frames <;> rfl

/-- Flat code does what the tree of its block does. -/
theorem Block.retraces_perform (hd : Drives group covered instr go) (fuel : Nat) {w : Wave} (s : σ) :
    ∀ (block : Block), CodeAt group.executable.code w.pc (Block.code w.pc block) →
    (∀ v ∈ Block.values block, covered v) → Retraces go (fuel + 1) w s
      ((Block.perform (instr w.id w.launched) w.id fuel block w.formation s).map
        fun φ => w.arrive φ (w.pc + (Block.code w.pc block).length))
  | [], hcode, hcov => by
    unfold Block.perform
    change Retraces go (fuel + 1) w s ⟨[], .done (w.arrive w.formation w.pc) s⟩
    rw [Wave.arrive_formation]
    exact .refl w s
  | node :: rest, hcode, hcov => by
    simp only [Block.values, List.mem_append] at hcov
    unfold Block.perform
    simp only [Block.code] at hcode ⊢
    refine .bind (Node.retraces_perform hd fuel s node hcode.append_left fun v hv => hcov v (.inl hv)) fun φ t hφ => ?_
    have hkeeps := hd.keepsLanes w.id w.launched
    have hleft := (Node.continues_of_perform hkeeps node _ _ _ _ hφ).left
    have hrest := Block.retraces_perform hd fuel (w := w.arrive φ (w.pc + (node.code w.pc).length)) t rest
      hcode.append_right fun v hv => hcov v (.inr hv)
    rw [Wave.formation_arrive hleft, Wave.id_arrive, Wave.launched_arrive] at hrest
    rw [List.length_append, ← Nat.add_assoc]
    rw [Report.map_congr fun ψ u hψ => Wave.arrive_arrive
      (Block.continues_of_perform hkeeps rest _ _ _ _ hψ).left _ _] at hrest
    exact hrest

end

end

end

/-! ## Turns -/

namespace Wave

variable {group : Workgroup} {w : Wave}

/-- An instruction other than a barrier, in lockstep. -/
theorem step_instr {value : Value} (hbar : group.program.instr value ≠ .ok (.intrinsic .barrier)) :
    w.step group (.instr value) = value.lockstep group w.id w.formation >>= fun φ =>
      pure (w.arrive φ (w.pc + 1), false) := by
  funext s
  simp only [step, stepInstr, Value.lockstep]
  by_cases he : w.exec.isEmpty
  · rw [if_pos he, if_pos (show w.formation.exec.isEmpty from he)]
    change Outcome.done ({ w with pc := w.pc + 1 }, false) s =
      .done (w.arrive { w.formation with lanes := w.lanes } (w.pc + 1), false) s
    rw [arrive_lanes]
  · rw [if_neg he, if_neg (show ¬ w.formation.exec.isEmpty from he)]
    cases hi : group.program.instr value with
    | error fault => rfl
    | ok instr =>
      simp only [Exec.liftM_ok, pure_bind]
      split
      · exact absurd hi hbar
      · simp only [Exec.bind_apply]
        rw [@execute_of_same group { w with pc := w.pc + 1 } (w.formation.toWave w.id) rfl rfl rfl]
        cases (w.formation.toWave w.id).execute group value instr s with
        | done u t =>
          change Outcome.done ({ w with pc := w.pc + 1, lanes := u.lanes }, false) t =
            .done (w.arrive { w.formation with lanes := u.lanes } (w.pc + 1), false) t
          rw [arrive_lanes]
        | failed error t => rfl
        | faulted fault => rfl

/-- Turns take waves through code without barriers. -/
theorem drives_turn (group : Workgroup) : Drives group (fun v => group.program.instr v ≠ .ok (.intrinsic .barrier))
      (fun id _ => Value.perform group id) fun b w => .quietly (w.turn group b) where
  limit hop := by rw [turn_zero hop]
  steer hop hne b := by
    rw [turn_succ hop, step_eq_steer hne]
    funext s
    rw [Traced.bind_apply]
    simp only [Traced.quietly, Exec.bind_apply]
    cases steer _ _ <;> rfl
  run hop hbar b := by
    rw [turn_succ hop, step_instr hbar, bind_assoc, Value.perform, ← Traced.quietly_bind]
    rfl
  keepsLanes id _ := Value.keepsLanes_perform group id

/-- The wave's turn hits the step limit, or it goes on as `outcome` says. -/
def Follows (group : Workgroup) (budget : Nat) (w : Wave) (s : Shared)
    (outcome : Outcome Shared Wave) : Prop :=
  (∃ id t, w.turn group budget s = .failed (.stepLimit id) t) ∨
    match outcome with
    | .done w' t => ∃ b ≤ budget, w.turn group budget s = w'.turn group b t
    | .failed error t => w.turn group budget s = .failed error t
    | .faulted fault => w.turn group budget s = .faulted fault

/-- A turn that succeeds goes on from where `outcome` ends. -/
theorem Follows.of_done {budget : Nat} {s t : Shared} {p : Pause}
    {outcome : Outcome Shared Wave} (h : w.Follows group budget s outcome) (hdone : w.turn group budget s = .done p t) :
    ∃ w' t' b, outcome = .done w' t' ∧ w'.turn group b t' = .done p t := by
  rcases h with ⟨_, _, hlimit⟩ | h
  · cases hdone.symm.trans hlimit
  rcases outcome with ⟨w', t'⟩ | ⟨error, t'⟩ | fault
  · obtain ⟨b, -, hturn⟩ := h
    exact ⟨w', t', b, rfl, hturn.symm.trans hdone⟩
  · cases hdone.symm.trans h
  · cases hdone.symm.trans h

end Wave

/-- Flat code does what its block does in lockstep. -/
theorem Block.follows {group : Workgroup} {fuel budget : Nat} {w : Wave} (s : Shared)
    (hfuel : budget ≤ fuel) (block : Block) (hcode : CodeAt group.executable.code w.pc (Block.code w.pc block))
    (hbar : ∀ v ∈ Block.values block, group.program.instr v ≠ .ok (.intrinsic .barrier)) :
    w.Follows group budget s ((Block.lockstep group w.id fuel block w.formation s).map
      fun φ => w.arrive φ (w.pc + (Block.code w.pc block).length)) := by
  obtain ⟨cost, hlimit, hend⟩ :=
    Block.retraces_perform (Wave.drives_turn group) fuel s block hcode hbar
  rw [Block.perform_lockstep] at hend
  by_cases hlt : budget < cost
  · exact .inl (hlimit budget hlt).1
  obtain ⟨b, rfl⟩ := Nat.exists_eq_add_of_le (Nat.not_lt.mp hlt)
  refine .inr ?_
  dsimp only [Report.map, Traced.quietly] at hend
  rcases hrun : Block.lockstep group w.id fuel block w.formation s
    with ⟨φ, t⟩ | ⟨error, t⟩ | fault <;> rw [hrun] at hend
  · exact ⟨b, Nat.le_add_left b cost, congrArg Report.outcome (hend b)⟩
  · rcases hend with hend | ⟨-, hleast, -⟩
    · exact congrArg Report.outcome (hend b)
    · omega
  · exact congrArg Report.outcome (hend b)

end PrimitiveShader
