import PrimitiveShader.Proofs.Emission.Growth
import PrimitiveShader.Proofs.Thread.Crew
import PrimitiveShader.Proofs.Validity
import PrimitiveShader.Proofs.Wave.Structured

/-!
# Code that leaves shared memory alone

An instruction writes at most one register of each lane, its own. If it is not an access to shared
memory and not a barrier, then memory and the counters of accesses and barriers stay as they are
(`Wave.execute_spares`). It can end with an error of a request for output space or with a fault, and in no
other way.
-/

namespace PrimitiveShader

/-! ## Lanes and their registers -/

/-- Changing one entry of an array, if that succeeds. -/
theorem modifyM_eq_ok {f : Lane → Except Fault Lane} {lanes lanes' : Array Lane} {k : Nat}
    (h : lanes.modifyM k f = .ok lanes') : lanes'.size = lanes.size ∧ (∀ l, l ≠ k → lanes'[l]? = lanes[l]?) ∧
      ∀ lane, lanes[k]? = some lane → ∃ lane', f lane = .ok lane' ∧ lanes'[k]? = some lane' := by
  unfold Array.modifyM at h
  by_cases hk : k < lanes.size
  · rw [dif_pos hk] at h
    obtain ⟨lane', hf, h⟩ := except_bind_eq_ok.mp h
    cases h
    refine ⟨by simp, fun l hl => ?_, fun lane hlane => ⟨lane', ?_, ?_⟩⟩
    · exact Array.getElem?_set_ne hk (Ne.symm hl)
    · rw [Array.getElem?_eq_getElem hk] at hlane
      exact Option.some.inj hlane ▸ hf
    · simp [hk]
  · rw [dif_neg hk] at h
    cases h
    refine ⟨rfl, fun _ _ => rfl, fun lane hlane => ?_⟩
    rw [Array.getElem?_eq_none (Nat.not_lt.mp hk)] at hlane
    cases hlane

/-- All lanes have the registers and variables of the program. -/
def AllSized (program : Program) (lanes : Array Lane) : Prop :=
  ∀ (l : Nat) (lane : Lane), lanes[l]? = some lane → lane.Sized program

/-- Lanes that may differ in the registers of some values, but in no others. -/
structure LanesKept (program : Program) (touched : Value → Prop) (lanes lanes' : Array Lane) :
    Prop where
  count : lanes'.size = lanes.size
  sized : AllSized program lanes → AllSized program lanes'
  read : ∀ l v, ¬ touched v → readRegister lanes' l v = readRegister lanes l v

/-- What an instruction does to one lane: at most the register of its value changes. -/
structure Lane.Kept (program : Program) (value : Value) (lane lane' : Lane) : Prop where
  sized : lane.Sized program → lane'.Sized program
  read : ∀ v ≠ value, lane'.read v = lane.read v

namespace Lane

variable {program : Program} {value : Value} {lane lane' : Lane}

theorem kept_write (lane : Lane) (a : UInt64) : lane.Kept program value (lane.write value a) where
  sized h := h.write value a
  read v hv := by
    have hne : value.index ≠ v.index := fun h => hv (by cases value; cases v; exact congrArg _ h.symm)
    simp [read, write, hne]

theorem kept_of_execute {group : Workgroup} {id : LaneId} {instr : Instr}
    (h : lane.execute group id value instr = .ok lane') : lane.Kept program value lane' := by
  refine ⟨fun hs => hs.execute h, fun v hv => ?_⟩
  unfold execute at h
  split at h
  · obtain ⟨a, -, h⟩ := except_bind_eq_ok.mp h
    unfold writeVar at h
    split at h
    · cases h
      rfl
    · cases h
  · obtain ⟨a, -, h⟩ := except_bind_eq_ok.mp h
    cases h
    rfl
  · obtain ⟨a, -, h⟩ := except_bind_eq_ok.mp h
    cases h
    exact (@kept_write program value lane a).read v hv

end Lane

namespace LanesKept

variable {program : Program} {touched : Value → Prop} {lanes lanes₁ lanes₂ : Array Lane}

theorem refl (lanes : Array Lane) : LanesKept program touched lanes lanes :=
  ⟨rfl, fun h => h, fun _ _ _ => rfl⟩

theorem trans (h : LanesKept program touched lanes lanes₁)
    (h' : LanesKept program touched lanes₁ lanes₂) : LanesKept program touched lanes lanes₂ :=
  ⟨h'.count.trans h.count, fun hs => h'.sized (h.sized hs), fun l v hv => (h'.read l v hv).trans (h.read l v hv)⟩

theorem of_getElem? {value : Value} {k : Nat} (hcount : lanes₁.size = lanes.size)
    (hsame : ∀ l, l ≠ k → lanes₁[l]? = lanes[l]?)
    (hk : ∀ lane, lanes[k]? = some lane → ∃ lane', lanes₁[k]? = some lane' ∧
      lane.Kept program value lane') : LanesKept program (· = value) lanes lanes₁ := by
  refine ⟨hcount, fun hs l lane hlane => ?_, fun l v hv => ?_⟩
  · by_cases hl : l = k
    · subst hl
      have hlt : l < lanes.size := hcount ▸ (Array.getElem?_eq_some_iff.mp hlane).1
      obtain ⟨lane', hlane', hkept⟩ := hk _ (Array.getElem?_eq_getElem hlt)
      cases hlane.symm.trans hlane'
      exact hkept.sized (hs l _ (Array.getElem?_eq_getElem hlt))
    · exact hs l lane (hsame l hl ▸ hlane)
  · unfold readRegister
    by_cases hl : l = k
    · subst hl
      cases hlane : lanes[l]? with
      | none =>
        have hge : lanes.size ≤ l := Array.getElem?_eq_none_iff.mp hlane
        rw [Array.getElem?_eq_none (hcount ▸ hge)]
      | some lane =>
        obtain ⟨lane', hlane', hkept⟩ := hk lane hlane
        rw [hlane']
        exact hkept.read v hv
    · rw [hsame l hl]

theorem writeRegister (lanes : Array Lane) (l : Nat) (value : Value) (a : UInt64) :
    LanesKept program (· = value) lanes (PrimitiveShader.writeRegister lanes l value a) := by
  refine .of_getElem? (k := l) (by simp [PrimitiveShader.writeRegister]) (fun k hk => ?_) fun lane hlane => ?_
  · simp [PrimitiveShader.writeRegister, Array.getElem?_modify, Ne.symm hk]
  · exact ⟨lane.write value a, by simp [PrimitiveShader.writeRegister, Array.getElem?_modify, hlane], lane.kept_write a⟩

end LanesKept

namespace Wave

variable {program : Program} {value : Value} {w : Wave}

theorem updateLanes_keeps {f : Nat → Lane → Except Fault Lane}
    (hf : ∀ l lane lane', f l lane = .ok lane' → lane.Kept program value lane') :
    Yields True (fun w' => LanesKept program (· = value) w.lanes w'.lanes) (w.updateLanes f) := by
  obtain ⟨id, launched, exec, pc, frames, lanes⟩ := w
  refine Yields.bind_iff.mpr (Yields.foldlM_relates .refl .trans (fun b l _ => ?_) lanes)
  cases hm : b.modifyM l (f l) with
  | error fault => exact trivial
  | ok b' =>
    obtain ⟨hcount, hsame, hserved⟩ := modifyM_eq_ok hm
    refine .of_getElem? hcount hsame fun lane hlane => ?_
    obtain ⟨lane', hlane', hentry⟩ := hserved lane hlane
    exact ⟨lane', hentry, hf l lane lane' hlane'⟩

theorem assign_keeps (f : Nat → UInt64) :
    Yields True (fun w' => LanesKept program (· = value) w.lanes w'.lanes) (w.assign value f) := by
  refine updateLanes_keeps fun l lane lane' h => ?_
  cases h
  exact lane.kept_write _

theorem readLanes_keeps (source index : Value) : Yields True (fun w' => LanesKept program (· = value) w.lanes w'.lanes)
      (readLanes value source index w) := by
  obtain ⟨id, launched, exec, pc, frames, lanes⟩ := w
  refine Yields.bind_iff.mpr (Yields.foldlM_relates .refl .trans (fun b l _ => ?_) lanes)
  refine Yields.bind_iff.mpr ?_
  cases readRegister b l index with
  | error fault => exact trivial
  | ok from_ =>
    change Yields True _ (if from_.toNat < b.size then _ else _)
    split
    · refine Yields.bind_iff.mpr ?_
      cases readRegister b from_.toNat source with
      | error fault => exact trivial
      | ok a => exact .writeRegister b l value a
    · exact .writeRegister b l value 0

theorem crossLane_keeps (group : Workgroup) (op : CrossLaneOp) :
    Yields True (fun w' => LanesKept program (· = value) w.lanes w'.lanes) (w.crossLane group value op) := by
  cases op with
  | ballot predicate type =>
    refine Yields.bind_iff.mpr ?_
    cases w.maskOf predicate with
    | error fault => exact trivial
    | ok mask => exact assign_keeps _
  | maskedBitCount mask =>
    refine updateLanes_keeps fun l lane lane' h => ?_
    obtain ⟨bits, -, h⟩ := except_bind_eq_ok.mp h
    cases h
    exact lane.kept_write _
  | readLane source index => exact readLanes_keeps source index
  | readFirstLane source =>
    refine Yields.bind_iff.mpr ?_
    cases readRegister w.lanes (w.exec.lowest?.getD 64) source with
    | error fault => exact trivial
    | ok data => exact assign_keeps _
  | elect => exact assign_keeps _
  | reduceAdd source =>
    refine Yields.bind_iff.mpr ?_
    cases group.program.typeOf source with
    | error fault => exact trivial
    | ok type =>
      refine Yields.bind_iff.mpr ?_
      cases w.sumOf source with
      | error fault => exact trivial
      | ok sum => exact assign_keeps _

end Wave

/-! ## Instructions -/

/-- Whether an instruction is neither an access to shared memory nor a barrier. -/
def Instr.sparesMemory : Instr → Bool
  | .intrinsic (.loadShared _ _ _) => false
  | .intrinsic (.storeShared _ _ _) => false
  | .intrinsic .barrier => false
  | _ => true

/-- Whether an instruction is a request for output space. -/
def Instr.isRequest : Instr → Bool
  | .intrinsic (.allocate _ _) => true
  | _ => false

/-- Nothing has happened to memory, and nothing is counted. -/
structure Shared.Spared (s s' : Shared) : Prop where
  memory : s'.memory = s.memory
  barriers : s'.result.barriers = s.result.barriers
  loads : s'.result.sharedLoads = s.result.sharedLoads
  stores : s'.result.sharedStores = s.result.sharedStores

namespace Shared.Spared

variable {s s₁ s₂ : Shared}

theorem refl (s : Shared) : s.Spared s := ⟨rfl, rfl, rfl, rfl⟩

theorem trans (h : s.Spared s₁) (h' : s₁.Spared s₂) : s.Spared s₂ :=
  ⟨h'.memory.trans h.memory, h'.barriers.trans h.barriers, h'.loads.trans h.loads, h'.stores.trans h.stores⟩

end Shared.Spared

/-- The only error of an instruction that spares memory is that of a request for output space. -/
theorem Wave.execute_spares (group : Workgroup) (w : Wave) (value : Value) {instr : Instr}
    (s : Shared) (hspares : instr.sparesMemory) (hentry : instr.isEntryPoint = false) :
    (w.execute group value instr s).Ends
      (fun error => instr.isRequest ∧ ∃ cause, error = .allocation cause) True fun w' s' =>
        LanesKept group.program (· = value) w.lanes w'.lanes ∧ s.Spared s' := by
  have lift {r : Except Fault Wave}
      (hr : Yields True (fun w' => LanesKept group.program (· = value) w.lanes w'.lanes) r) :
      ((Exec.lift r : Exec Shared Wave) s).Ends
        (fun error => instr.isRequest ∧ ∃ cause, error = .allocation cause) True fun w' s' =>
          LanesKept group.program (· = value) w.lanes w'.lanes ∧ s.Spared s' :=
    .lift (hr.mono fun w' _ h => ⟨h, .refl s⟩)
  have perLane : ((Exec.lift (w.updateLanes fun lane =>
      Lane.execute group (laneId group w.id lane) value instr) : Exec Shared Wave) s).Ends
        (fun error => instr.isRequest ∧ ∃ cause, error = .allocation cause) True fun w' s' =>
          LanesKept group.program (· = value) w.lanes w'.lanes ∧ s.Spared s' :=
    lift (updateLanes_keeps fun l lane lane' h => Lane.kept_of_execute h)
  have keep {f : Nat → Exec Shared Unit} (hf : ∀ l s, (f l s).Ends
      (fun error => instr.isRequest ∧ ∃ cause, error = .allocation cause) True fun _ s' => s.Spared s') :
      ((do w.exec.lanes.forM f; return w : Exec Shared Wave) s).Ends
        (fun error => instr.isRequest ∧ ∃ cause, error = .allocation cause) True fun w' s' =>
          LanesKept group.program (· = value) w.lanes w'.lanes ∧ s.Spared s' :=
    .bind ((Outcome.Ends.forM (I := fun _ => s.Spared) (fun _ l _ t _ ht => (hf l t).mono fun _ _ _ => ht.trans)
      (.refl s)).mono fun _ s' _ h => ⟨.refl _, h⟩)
  cases instr with
  | intrinsic op =>
    cases op with
    | crossLane op => exact lift (crossLane_keeps group op)
    | loadShared | storeShared | barrier => cases hspares
    | geometry op => cases hentry
    | queryAdd stream count =>
      refine keep fun l s => ?_
      by_cases hs : stream.toNat < 4
      · rw [dif_pos hs]
        refine .bind (.lift ?_)
        cases readRegister w.lanes l count with
        | error fault => exact trivial
        | ok a => exact ⟨rfl, rfl, rfl, rfl⟩
      · rw [dif_neg hs]
        exact trivial
    | allocate vertices primitives =>
      refine keep fun l s => ?_
      by_cases hid : w.id = 0
      · simp only [hid, ↓reduceIte]
        refine .bind (x := Exec.get) ?_
        change Outcome.Ends _ _ _ ((if s.result.allocation.isSome = true then _ else _ : Exec Shared Unit) s)
        split
        · exact ⟨rfl, _, rfl⟩
        · refine .bind (.lift ?_)
          cases readRegister w.lanes l vertices with
          | error fault => exact trivial
          | ok v =>
            refine .bind (.lift ?_)
            cases readRegister w.lanes l primitives with
            | error fault => exact trivial
            | ok a => exact ⟨rfl, rfl, rfl, rfl⟩
      · simp only [hid, ↓reduceIte]
        exact ⟨rfl, _, rfl⟩
    | exportPrimitive word =>
      refine keep fun l s => .bind (.lift ?_)
      cases readRegister w.lanes l word with
      | error fault => exact trivial
      | ok a => exact ⟨rfl, rfl, rfl, rfl⟩
    | exportVertex => exact keep fun l s => ⟨rfl, rfl, rfl, rfl⟩
    | input input => exact perLane
    | storeOutput slot data => exact perLane
  | const | undef | unary | binary | select | convert | extract | loadVar | storeVar => exact perLane

end PrimitiveShader
