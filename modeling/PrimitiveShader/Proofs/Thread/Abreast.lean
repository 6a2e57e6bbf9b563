import Mathlib.Logic.Function.Iterate
import PrimitiveShader.Proofs.Thread.Script
import PrimitiveShader.Proofs.Wave.Spared
import PrimitiveShader.Proofs.Wave.Twin

/-!
# Waves abreast

Two waves are abreast when they stand at the same operation with the same lanes on, and their lanes agree on
the values that are known. Whatever else is in their registers and in memory, they take an operation whose way
is clear side by side, and as much is counted for the one as for the other (`Wave.Abreast.step`).
-/

namespace PrimitiveShader

/-! ## What is counted -/

/-- The result without what has been exported. -/
def WorkgroupResult.bare (result : WorkgroupResult) : WorkgroupResult :=
  { result with allocation := none, primitives := #[], vertices := #[] }

/-- What is counted when one lane runs an instruction that does not add to a query counter. -/
def Instr.charge : Instr → WorkgroupResult → WorkgroupResult
  | .intrinsic (.loadShared _ _ _), result => { result with sharedLoads := result.sharedLoads + 1 }
  | .intrinsic (.storeShared _ _ _), result => { result with sharedStores := result.sharedStores + 1 }
  | _, result => result

namespace Outcome

variable {σ α β γ : Type} {E : RunError → Prop} {F : Prop}

/-- A fold over a list which changes what we look at in the same way each time. -/
theorem Ends.foldlM_iterate {xs : List α} {f : β → α → Exec σ β} {g : σ → γ} {step : γ → γ}
    (h : ∀ b x s, (f b x s).Ends E F fun _ t => g t = step (g s)) (b : β) (s : σ) :
    (xs.foldlM f b s).Ends E F fun _ t => g t = step^[xs.length] (g s) :=
  .foldlM (I := fun before _ t => g t = step^[before.length] (g s)) (fun before x _ b t _ ht =>
    (h b x t).mono fun _ u _ hu => by
      rw [hu, ht, List.length_append, List.length_singleton, Function.iterate_succ_apply']) rfl

end Outcome

namespace Wave

variable {group : Workgroup} {w : Wave}

theorem loadShared_charges (value addr : Value) (base : UInt32) (type : ScalarType) (s : Shared) :
    (w.loadShared group value addr base type s).Ends RunError.OfStep True fun _ t =>
      t.result.bare = (Instr.intrinsic (.loadShared addr base type)).charge^[w.exec.lanes.length] s.result.bare := by
  obtain ⟨id, launched, exec, pc, frames, lanes⟩ := w
  refine .bind ((Outcome.Ends.foldlM_iterate (g := fun s : Shared => s.result.bare)
    (fun lanes l s => ?_) lanes s).mono fun _ _ _ h => h)
  refine .bind (.lift (.of_admitted trivial fun a => ?_))
  refine .bind (.lift (.of_admitted trivial fun at_ => ?_))
  refine .bind ((Outcome.Ends.onMemory (SharedMemory.load_ends (fun _ h => h) (.inl trivial))).mono
    fun data t _ ⟨_, ht⟩ => ?_)
  rw [← ht]
  rfl

theorem storeShared_charges (data addr : Value) (base : UInt32) (s : Shared) :
    (w.storeShared group data addr base s).Ends RunError.OfStep True fun _ t =>
      t.result.bare = (Instr.intrinsic (.storeShared data addr base)).charge^[w.exec.lanes.length] s.result.bare := by
  refine .bind (.lift (.of_admitted trivial fun type => ?_))
  rw [forM_eq_foldlM]
  refine Outcome.Ends.foldlM_iterate (g := fun s : Shared => s.result.bare) (fun _ l s => ?_) _ s
  refine .bind (.lift (.of_admitted trivial fun a => ?_))
  refine .bind (.lift (.of_admitted trivial fun at_ => ?_))
  refine .bind (.lift (.of_admitted trivial fun b => ?_))
  refine .bind ((Outcome.Ends.onMemory (SharedMemory.store_ends (fun _ h => h) (.inl trivial))).mono
    fun _ t _ ⟨_, ht⟩ => ?_)
  rw [← ht]
  rfl

variable {instr : Instr} {s s' : Shared} {value : Value} {w' : Wave}

/-- What is counted for an instruction depends on the number of lanes that are on. -/
theorem execute_charges (value : Value) (hquery : instr.isQuery = false) (s : Shared) :
    (w.execute group value instr s).Ends RunError.OfStep True fun _ t =>
      t.result.bare = instr.charge^[w.exec.lanes.length] s.result.bare := by
  have lift (r : Except Fault Wave) (hfree : ∀ result, instr.charge result = result) :
      ((Exec.lift r : Exec Shared Wave) s).Ends RunError.OfStep True fun _ t =>
        t.result.bare = instr.charge^[w.exec.lanes.length] s.result.bare := by
    refine .lift (.of_admitted trivial fun _ => ?_)
    rw [Function.iterate_fixed (hfree _)]
  have keep {f : Nat → Exec Shared Unit} (hfree : ∀ result, instr.charge result = result)
      (hf : ∀ l s, (f l s).Ends RunError.OfStep True fun _ t => t.result.bare = s.result.bare) :
      ((do w.exec.lanes.forM f; return w : Exec Shared Wave) s).Ends RunError.OfStep True fun _ t =>
        t.result.bare = instr.charge^[w.exec.lanes.length] s.result.bare := by
    refine .bind ((Outcome.Ends.forM (I := fun _ t => t.result.bare = s.result.bare)
      (fun _ l _ t _ ht => (hf l t).mono fun _ _ _ hu => hu.trans ht) rfl).mono fun _ t _ ht => ?_)
    rw [Function.iterate_fixed (hfree _)]
    exact ht
  cases instr with
  | intrinsic op =>
    cases op with
    | loadShared addr base type => exact loadShared_charges value addr base type s
    | storeShared data addr base =>
      exact .bind ((storeShared_charges data addr base s).mono fun _ _ _ h => h)
    | queryAdd stream count => cases hquery
    | barrier => exact trivial
    | geometry op => exact nofun
    | crossLane op => exact lift _ fun _ => rfl
    | allocate vertices primitives =>
      refine keep (fun _ => rfl) fun l s => ?_
      by_cases hid : w.id = 0
      · simp only [hid, ↓reduceIte]
        refine .bind (x := Exec.get) ?_
        change Outcome.Ends _ _ _ ((if s.result.allocation.isSome = true then _ else _ : Exec Shared Unit) s)
        split
        · exact nofun
        · refine .bind (.lift (.of_admitted trivial fun v => ?_))
          exact .bind (.lift (.of_admitted trivial fun a => rfl))
      · simp only [hid, ↓reduceIte]
        exact nofun
    | exportPrimitive word =>
      exact keep (fun _ => rfl) fun l s => .bind (.lift (.of_admitted trivial fun a => rfl))
    | exportVertex => exact keep (fun _ => rfl) fun l s => rfl
    | input input => exact lift _ fun _ => rfl
    | storeOutput slot data => exact lift _ fun _ => rfl
  | const | undef | unary | binary | select | convert | extract | loadVar | storeVar =>
    exact lift _ fun _ => rfl

theorem bare_of_execute (hquery : instr.isQuery = false) (h : w.execute group value instr s = .done w' s') :
    s'.result.bare = instr.charge^[w.exec.lanes.length] s.result.bare := by
  have hcharges : (w.execute group value instr s).Ends _ _ _ := execute_charges value hquery s
  rw [h] at hcharges
  exact hcharges

theorem loadShared_keeps (value addr : Value) (base : UInt32) (type : ScalarType) (s : Shared) :
    (w.loadShared group value addr base type s).Ends RunError.OfStep True fun w' _ =>
      LanesKept group.program (· = value) w.lanes w'.lanes := by
  obtain ⟨id, launched, exec, pc, frames, lanes⟩ := w
  refine .bind (Outcome.Ends.foldlM (I := fun _ lanes' _ => LanesKept group.program (· = value) lanes lanes')
    (fun _ l _ b s _ hb => ?_) (.refl lanes))
  refine .bind (.lift (.of_admitted trivial fun a => ?_))
  refine .bind (.lift (.of_admitted trivial fun at_ => ?_))
  refine .bind ((Outcome.Ends.onMemory (SharedMemory.load_ends (fun _ h => h) (.inl trivial))).mono
    fun data t _ ⟨_, ht⟩ => ?_)
  exact hb.trans (.writeRegister b l value data)

/-- An instruction changes its own registers only. -/
theorem execute_keeps (h : w.execute group value instr s = .done w' s') :
    LanesKept group.program (· = value) w.lanes w'.lanes := by
  have spared (hspares : instr.sparesMemory) (hentry : instr.isEntryPoint = false) :
      LanesKept group.program (· = value) w.lanes w'.lanes := by
    have hspared := execute_spares group w value s hspares hentry
    rw [h] at hspared
    exact hspared.1
  cases instr with
  | intrinsic op =>
    cases op with
    | loadShared addr base type =>
      have hkept : (w.execute group value (.intrinsic (.loadShared addr base type)) s).Ends _ _ _ :=
        loadShared_keeps value addr base type s
      rw [h] at hkept
      exact hkept
    | storeShared data addr base =>
      obtain ⟨_, s₁, hstore, h⟩ := Exec.bind_eq_done_iff.mp h
      cases h
      exact .refl _
    | barrier => cases h
    | geometry op => cases h
    | _ => exact spared rfl rfl
  | _ => exact spared rfl rfl

end Wave

/-! ## Lanes side by side -/

namespace LanesRelate

variable {R : Nat → Lane → Lane → Prop} {lanes lanes' lanes₁ lanes₁' : Array Lane}

theorem modifyM (h : LanesRelate R lanes lanes') {k : Nat} {f f' : Lane → Except Fault Lane}
    (hf : ∀ lane lane' new new', R k lane lane' → f lane = .ok new → f' lane' = .ok new' → R k new new')
    (hm : lanes.modifyM k f = .ok lanes₁) (hm' : lanes'.modifyM k f' = .ok lanes₁') : LanesRelate R lanes₁ lanes₁' := by
  obtain ⟨hcount, hsame, hserved⟩ := modifyM_eq_ok hm
  obtain ⟨hcount', hsame', hserved'⟩ := modifyM_eq_ok hm'
  refine ⟨by rw [hcount', h.count, hcount], fun l new new' hnew hnew' => ?_⟩
  by_cases hlk : l = k
  · subst hlk
    have hlt : l < lanes.size := hcount ▸ (Array.getElem?_eq_some_iff.mp hnew).1
    have hlane := Array.getElem?_eq_getElem hlt
    have hlane' := Array.getElem?_eq_getElem (h.count.symm ▸ hlt : l < lanes'.size)
    obtain ⟨_, hf₁, hentry⟩ := hserved _ hlane
    obtain ⟨_, hf₁', hentry'⟩ := hserved' _ hlane'
    cases hentry.symm.trans hnew
    cases hentry'.symm.trans hnew'
    exact hf _ _ new new' (h.lane l _ _ hlane hlane') hf₁ hf₁'
  · rw [hsame l hlk] at hnew
    rw [hsame' l hlk] at hnew'
    exact h.lane l new new' hnew hnew'

variable {f f' : Nat → Lane → Except Fault Lane}

/-- Some lanes change on both sides, one after the other. -/
theorem foldlM {ls : List Nat} (h : LanesRelate R lanes lanes')
    (hf : ∀ l ∈ ls, ∀ lane lane' new new', R l lane lane' → f l lane = .ok new → f' l lane' = .ok new' → R l new new')
    (hm : ls.foldlM (fun lanes l => lanes.modifyM l (f l)) lanes = .ok lanes₁)
    (hm' : ls.foldlM (fun lanes l => lanes.modifyM l (f' l)) lanes' = .ok lanes₁') : LanesRelate R lanes₁ lanes₁' := by
  induction ls generalizing lanes lanes' with
  | nil =>
    cases hm
    cases hm'
    exact h
  | cons l rest ih =>
    rw [List.foldlM_cons] at hm hm'
    obtain ⟨lanes₂, hl, hm⟩ := except_bind_eq_ok.mp hm
    obtain ⟨lanes₂', hl', hm'⟩ := except_bind_eq_ok.mp hm'
    exact ih (h.modifyM (hf l List.mem_cons_self) hl hl') (fun k hk => hf k (List.mem_cons_of_mem l hk)) hm hm'

/-- All lanes that are on change on both sides. -/
theorem updateLanes {w w' w₁ w₁' : Wave} (h : LanesRelate R w.lanes w'.lanes) (hexec : w'.exec = w.exec)
    (hf : ∀ l ∈ w.exec.lanes, ∀ lane lane' new new', R l lane lane' → f l lane = .ok new →
      f' l lane' = .ok new' → R l new new')
    (hu : w.updateLanes f = .ok w₁) (hu' : w'.updateLanes f' = .ok w₁') : LanesRelate R w₁.lanes w₁'.lanes := by
  obtain ⟨id, launched, exec, pc, frames, lanes⟩ := w
  obtain ⟨id', launched', exec', pc', frames', lanes'⟩ := w'
  obtain rfl : exec' = exec := hexec
  obtain ⟨lanes₁, hm, hu⟩ := except_bind_eq_ok.mp hu
  obtain ⟨lanes₁', hm', hu'⟩ := except_bind_eq_ok.mp hu'
  cases hu
  cases hu'
  exact h.foldlM hf hm hm'

end LanesRelate

theorem Lane.read_write_congr {lane lane' : Lane} {v : Value} (h : lane'.read v = lane.read v)
    (value : Value) (a : UInt64) : (lane'.write value a).read v = (lane.write value a).read v := by
  by_cases hv : value.index = v.index
  · simp only [read, write, hv, Array.getElem?_setIfInBounds_self] at h ⊢
    by_cases hlt : v.index < lane.registers.size <;> by_cases hlt' : v.index < lane'.registers.size
    · rw [if_pos hlt, if_pos hlt']
    · simp [hlt, hlt'] at h
    · simp [hlt, hlt'] at h
    · rw [if_neg hlt, if_neg hlt']
  · simpa only [read, write, Array.getElem?_setIfInBounds_ne hv] using h

/-- The first lanes agree on the values that are known. -/
def LanesAgree (n : Nat) (known : Value → Prop) : Array Lane → Array Lane → Prop :=
  LanesRelate fun l lane lane' => l < n → ∀ v, known v → lane'.read v = lane.read v

namespace LanesAgree

variable {program : Program} {n : Nat} {known : Value → Prop} {lanes lanes' lanes₁ lanes₁' : Array Lane}

theorem read (h : LanesAgree n known lanes lanes') {l : Nat} (hl : l < n) {v : Value} (hv : known v) :
    readRegister lanes' l v = readRegister lanes l v :=
  LanesRelate.readRegister_eq h fun _ _ hread => hread hl v hv

theorem of_read (hcount : lanes'.size = lanes.size)
    (hread : ∀ l < n, ∀ v, known v → readRegister lanes' l v = readRegister lanes l v) :
    LanesAgree n known lanes lanes' := by
  refine ⟨hcount, fun l lane lane' hlane hlane' hl v hv => ?_⟩
  simpa only [readRegister, hlane, hlane'] using hread l hl v hv

theorem refl (n : Nat) (known : Value → Prop) (lanes : Array Lane) : LanesAgree n known lanes lanes :=
  of_read rfl fun _ _ _ _ => rfl

theorem mono (h : LanesAgree n known lanes lanes') {known' : Value → Prop} (hk : ∀ v, known' v → known v) :
    LanesAgree n known' lanes lanes' :=
  ⟨h.count, fun l lane lane' hlane hlane' hl v hv => h.lane l lane lane' hlane hlane' hl v (hk v hv)⟩

/-- Registers that are not known have changed. -/
theorem of_kept (h : LanesAgree n known lanes lanes') {value : Value} (hvalue : ¬ known value)
    (hkept : LanesKept program (· = value) lanes lanes₁)
    (hkept' : LanesKept program (· = value) lanes' lanes₁') : LanesAgree n known lanes₁ lanes₁' := by
  refine of_read (by rw [hkept'.count, h.count, hkept.count]) fun l hl v hv => ?_
  have hne : ¬ v = value := fun heq => hvalue (heq ▸ hv)
  rw [hkept'.read l v hne, h.read hl hv, hkept.read l v hne]

end LanesAgree

/-! ## Operations side by side -/

/-- Two waves that stand at the same place, with the same lanes on, and whose lanes agree on the values that
are known. -/
structure Wave.Abreast (n : Nat) (known : Value → Prop) (w w' : Wave) : Prop
    extends Relates (fun l lane lane' => l < n → ∀ v, known v → lane'.read v = lane.read v) w w' where
  below : w.Below n

namespace Wave.Abreast

variable {group : Workgroup} {n : Nat} {known : Value → Prop} {w w' w₁ w₁' : Wave} {value : Value}
  {instr : Instr} {s s' s₁ s₁' : Shared}

variable (h : w.Abreast n known w')
include h

/-- All lanes that are on get the same result on both sides. -/
theorem lanes_of_writes {f g : Nat → Lane → Except Fault UInt64}
    (hf : ∀ l, ∀ lane lane' : Lane, (∀ v, known v → lane'.read v = lane.read v) → g l lane' = f l lane)
    (hu : w.updateLanes (fun l lane => do return lane.write value (← f l lane)) = .ok w₁)
    (hu' : w'.updateLanes (fun l lane => do return lane.write value (← g l lane)) = .ok w₁') :
    LanesAgree n known w₁.lanes w₁'.lanes := by
  refine h.lanes.updateLanes h.exec_eq (fun l _ lane lane' new new' hread hnew hnew' hl v hv => ?_) hu hu'
  obtain ⟨a, ha, hnew⟩ := except_bind_eq_ok.mp hnew
  obtain ⟨a', ha', hnew'⟩ := except_bind_eq_ok.mp hnew'
  rw [hf l lane lane' (hread hl), ha] at ha'
  cases ha'
  cases hnew
  cases hnew'
  exact Lane.read_write_congr (hread hl v hv) value a

/-- A settled instruction gives both sides the same result. -/
theorem lanes_of_settled (hsettled : instr.Settled known) (he : w.execute group value instr s = .done w₁ s₁)
    (he' : w'.execute group value instr s' = .done w₁' s₁') : LanesAgree n known w₁.lanes w₁'.lanes := by
  unfold Instr.Settled at hsettled
  split at hsettled
  · exact h.lanes_of_writes (fun _ _ _ _ => rfl) (Exec.lift_eq_done_iff.mp he).1 (Exec.lift_eq_done_iff.mp he').1
  · refine h.lanes_of_writes (fun l lane lane' hread => ?_) (Exec.lift_eq_done_iff.mp he).1
      (Exec.lift_eq_done_iff.mp he').1
    simp only [Lane.compute, hread _ hsettled.1, hread _ hsettled.2]
  · refine h.lanes_of_writes (fun l lane lane' _ => ?_) (Exec.lift_eq_done_iff.mp he).1 (Exec.lift_eq_done_iff.mp he').1
    rw [h.id_eq]
    rfl
  · refine h.lanes_of_writes (f := fun l _ => .ok (w.exec.lowest? == some l).toUInt64)
      (g := fun l _ => .ok (w'.exec.lowest? == some l).toUInt64) (fun l lane lane' _ => ?_)
      (Exec.lift_eq_done_iff.mp he).1 (Exec.lift_eq_done_iff.mp he').1
    rw [h.exec_eq]
  · exact hsettled.elim

theorem execute (hsettled : known value → instr.Settled known) (he : w.execute group value instr s = .done w₁ s₁)
    (he' : w'.execute group value instr s' = .done w₁' s₁') : w₁.Abreast n known w₁' := by
  have hw := execute_eq_done he
  have hw' := execute_eq_done he'
  have hbelow : w₁.Below n := by
    rw [hw]
    exact ⟨h.below.exec, h.below.frames⟩
  refine ⟨⟨by rw [hw', h.same, hw], ?_⟩, hbelow⟩
  by_cases hvalue : known value
  · exact h.lanes_of_settled (hsettled hvalue) he he'
  · exact LanesAgree.of_kept h.lanes hvalue (execute_keeps he) (execute_keeps he')

end Wave.Abreast

variable {s t : Shared} {w : Wave} {p : Wave × Bool} {group : Workgroup}

theorem Wave.stepInstr_cases {value : Value} (h : w.stepInstr group value s = .done p t) :
    (w.exec.isEmpty = true ∧ p = ({ w with pc := w.pc + 1 }, false) ∧ t = s) ∨
      w.exec.isEmpty = false ∧ ∃ instr, group.program.instr value = .ok instr ∧
        ((instr = .intrinsic .barrier ∧ w.exec = w.launched ∧ p = ({ w with pc := w.pc + 1 }, true) ∧ t = s) ∨
          instr ≠ .intrinsic .barrier ∧ p.2 = false ∧
            Wave.execute group value instr { w with pc := w.pc + 1 } s = .done p.1 t) := by
  unfold stepInstr at h
  by_cases hempty : w.exec.isEmpty
  · simp only [hempty, ↓reduceIte] at h
    cases h
    exact .inl ⟨hempty, rfl, rfl⟩
  · simp only [hempty, Bool.false_eq_true, ↓reduceIte] at h
    obtain ⟨instr, s₁, hlift, h⟩ := Exec.bind_eq_done_iff.mp h
    obtain ⟨hinstr, rfl⟩ := Exec.lift_eq_done_iff.mp hlift
    refine .inr ⟨by simpa using hempty, instr, hinstr, ?_⟩
    split at h
    · split at h
      · rename_i hall
        cases h
        exact .inl ⟨rfl, hall, rfl, rfl⟩
      · cases h
    · rename_i hne
      obtain ⟨w₁, s₂, he, h⟩ := Exec.bind_eq_done_iff.mp h
      cases h
      exact .inr ⟨hne, rfl, he⟩

/-- No operation leads before the start of the code that it belongs to. -/
theorem Wave.le_pc_of_step {op : CodeOp}
    {start : Nat} (hop : op.From start) (h : w.step group op s = .done p t) (hpc : start ≤ w.pc) : start ≤ p.1.pc := by
  by_cases hinstr : ∃ value, op = .instr value
  · obtain ⟨value, rfl⟩ := hinstr
    rw [stepInstr_eq_done h]
    exact Nat.le_succ_of_le hpc
  · rw [step_eq_steer fun value heq => hinstr ⟨value, heq⟩] at h
    exact le_pc_of_steer hop (control_eq_done_iff.mp h).1 hpc

/-- An operation with a clear way. -/
def CodeOp.Clear (program : Program) (known : Value → Prop) : CodeOp → Prop
  | .instr value => (Node.instr value).Clear program known
  | .branch cond _ => known cond
  | .otherwise _ => True
  | .endBranch => True
  | _ => False

namespace Wave.Abreast

variable {n : Nat} {known : Value → Prop} {w' w₁ w₁' : Wave} {value cond : Value} {s' t' : Shared} {p' : Wave × Bool}
  {op : CodeOp}

variable (h : w.Abreast n known w')
include h

theorem stepInstr (hclear : (Node.instr value).Clear group.program known)
    (hbare : s'.result.bare = s.result.bare) (hs : w.stepInstr group value s = .done p t)
    (hs' : w'.stepInstr group value s' = .done p' t') :
    p'.2 = p.2 ∧ p.1.Abreast n known p'.1 ∧ t'.result.bare = t.result.bare := by
  obtain ⟨instr, hinstr, hquery, hsettled⟩ := hclear
  obtain ⟨lanes', rfl⟩ : ∃ lanes', w' = { w with lanes := lanes' } := ⟨_, h.same⟩
  have hnext : Abreast n known { w with pc := w.pc + 1 } { w with pc := w.pc + 1, lanes := lanes' } :=
    ⟨h.goto (w.pc + 1), ⟨h.below.exec, h.below.frames⟩⟩
  rcases stepInstr_cases hs with ⟨hempty, rfl, rfl⟩ | ⟨hsome, instr₁, hinstr₁, hrun⟩
  · rcases stepInstr_cases hs' with ⟨-, rfl, rfl⟩ | ⟨hsome', -⟩
    · exact ⟨rfl, hnext, hbare⟩
    · exact absurd (hempty.symm.trans hsome') (by decide)
  rcases stepInstr_cases hs' with ⟨hempty', -⟩ | ⟨-, instr₂, hinstr₂, hrun'⟩
  · exact absurd (hempty'.symm.trans hsome) (by decide)
  cases hinstr.symm.trans hinstr₁
  cases hinstr.symm.trans hinstr₂
  rcases hrun with ⟨hbar, -, rfl, rfl⟩ | ⟨hbar, hflag, he⟩
  · rcases hrun' with ⟨-, -, rfl, rfl⟩ | ⟨hbar', -⟩
    · exact ⟨rfl, hnext, hbare⟩
    · exact absurd hbar hbar'
  rcases hrun' with ⟨hbar', -⟩ | ⟨-, hflag', he'⟩
  · exact absurd hbar' hbar
  refine ⟨hflag'.trans hflag.symm, hnext.execute hsettled he he', ?_⟩
  rw [bare_of_execute hquery he, bare_of_execute hquery he', hbare]

/-- The same lanes take a branch whose condition is known. -/
theorem maskOf_eq (hcond : known cond) : w'.maskOf cond = w.maskOf cond :=
  maskOf_congr h.exec_eq fun l hl => LanesAgree.read h.lanes (h.below.exec l hl) hcond

/-- Both waves take an operation with a clear way. -/
theorem step (hop : op.Clear group.program known)
    (hbare : s'.result.bare = s.result.bare) (hs : w.step group op s = .done p t)
    (hs' : w'.step group op s' = .done p' t') :
    p'.2 = p.2 ∧ p.1.Abreast n known p'.1 ∧ t'.result.bare = t.result.bare := by
  have hbelow := (h.below.step hs).2
  by_cases hinstr : ∃ value, op = .instr value
  · obtain ⟨value, rfl⟩ := hinstr
    exact h.stepInstr hop hbare hs hs'
  have hne : ∀ value, op ≠ .instr value := fun value heq => hinstr ⟨value, heq⟩
  rw [step_eq_steer hne] at hs hs'
  obtain ⟨hw, hflag, rfl⟩ := control_eq_done_iff.mp hs
  obtain ⟨hw', hflag', rfl⟩ := control_eq_done_iff.mp hs'
  refine ⟨hflag'.trans hflag.symm, ⟨h.of_steer (fun cond elseAt heq => ?_) hw hw', hbelow⟩, hbare⟩
  subst heq
  exact h.maskOf_eq hop

end Wave.Abreast

end PrimitiveShader
